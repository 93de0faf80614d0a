import Mathlib.Data.Finset.Card
import Mathlib.Data.Finset.Range
import Mathlib.Data.List.Forall2
import Formulary.Proofs.Zone.Acyclicity
import Formulary.Zone.Evaluation

/-!
Trees and values of the nodes of a zone. Where no references lead back, a chain of them has no more
nodes than the zone, so every node has a tree; and a node evaluates to what its tree evaluates to,
also with a memory in which there are results for other nodes already.
-/

namespace Formulary

namespace Record

/-- Whether an expression has the shape of a record and, in its places, expressions that `tree`
gives to the nodes that the record refers to. -/
inductive Assembles (tree : NodeId → Expr → Prop) : Record → Expr → Prop
  | number (x : Float) : Assembles tree (.number x) (.number x)
  | unbound (kind : SymbolKind) (name : String) (shadowed : Bool) :
    Assembles tree (.symbol kind name none shadowed) (.symbol kind name none)
  | bound (kind : SymbolKind) (name : String) (shadowed : Bool) {i : NodeId} {v : Expr}
      (hv : tree i v) :
    Assembles tree (.symbol kind name (some i) shadowed) (.symbol kind name (some v))
  | term {i j k : NodeId} {c a x : Expr} (hc : tree i c) (ha : tree j a) (hx : tree k x) :
    Assembles tree (.term i j k) (.term c a x)
  | unary (op : UnaryOp) {i : NodeId} {e : Expr} (he : tree i e) :
    Assembles tree (.unary op i) (.unary op e)
  | binary (op : BinaryOp) {i j : NodeId} {l r : Expr} (hl : tree i l) (hr : tree j r) :
    Assembles tree (.binary op i j) (.binary op l r)
  | nary (op : NaryOp) {ids : List NodeId} {es : List Expr} (hes : ids.Forall₂ tree es) :
    Assembles tree (.nary op ids) (.nary op es)
  | call (name : String) {ids : List NodeId} {es : List Expr} (hes : ids.Forall₂ tree es) :
    Assembles tree (.call name ids) (.call name es)

section Assembles

variable {tree tree' : NodeId → Expr → Prop} {tree? : NodeId → Option Expr} {r : Record} {t : Expr}
  {ids : List NodeId} {ts : List Expr}

theorem Assembles.mono (h : r.Assembles tree t) (htree : ∀ i e, tree i e → tree' i e) :
    r.Assembles tree' t := by
  cases h with
  | number x => exact .number x
  | unbound kind name shadowed => exact .unbound kind name shadowed
  | bound kind name shadowed hv => exact .bound kind name shadowed (htree _ _ hv)
  | term hc ha hx => exact .term (htree _ _ hc) (htree _ _ ha) (htree _ _ hx)
  | unary op he => exact .unary op (htree _ _ he)
  | binary op hl hr => exact .binary op (htree _ _ hl) (htree _ _ hr)
  | nary op hes => exact .nary op (hes.imp fun i e => htree i e)
  | call name hes => exact .call name (hes.imp fun i e => htree i e)

theorem exists_forall₂ (h : ∀ c ∈ ids, ∃ t, tree c t) : ∃ ts, ids.Forall₂ tree ts := by
  induction ids with
  | nil => exact ⟨[], .nil⟩
  | cons id ids ih =>
    obtain ⟨t, ht⟩ := h id (by simp)
    obtain ⟨ts, hts⟩ := ih fun c hc => h c (by simp [hc])
    exact ⟨t :: ts, .cons ht hts⟩

theorem exists_assembles (h : ∀ c ∈ r.references, ∃ t, tree c t) : ∃ t, r.Assembles tree t := by
  have hchild (c) (hc : c ∈ r.children) : ∃ t, tree c t := h c (List.mem_append_left _ hc)
  cases r with
  | number x => exact ⟨_, .number x⟩
  | symbol kind name bound shadowed =>
    cases bound with
    | none => exact ⟨_, .unbound kind name shadowed⟩
    | some i =>
      obtain ⟨v, hv⟩ := h i (by simp [references, children, bound?])
      exact ⟨_, .bound kind name shadowed hv⟩
  | term i j k =>
    obtain ⟨c, hc⟩ := hchild i (by simp [children])
    obtain ⟨a, ha⟩ := hchild j (by simp [children])
    obtain ⟨x, hx⟩ := hchild k (by simp [children])
    exact ⟨_, .term hc ha hx⟩
  | unary op i =>
    obtain ⟨e, he⟩ := hchild i (by simp [children])
    exact ⟨_, .unary op he⟩
  | binary op i j =>
    obtain ⟨l, hl⟩ := hchild i (by simp [children])
    obtain ⟨r, hr⟩ := hchild j (by simp [children])
    exact ⟨_, .binary op hl hr⟩
  | nary op ids =>
    obtain ⟨es, hes⟩ := exists_forall₂ hchild
    exact ⟨_, .nary op hes⟩
  | call name ids =>
    obtain ⟨es, hes⟩ := exists_forall₂ hchild
    exact ⟨_, .call name hes⟩

theorem mapM_eq_some_iff :
    ids.mapM tree? = some ts ↔ ids.Forall₂ (fun i t => tree? i = some t) ts := by
  induction ids generalizing ts with
  | nil => cases ts <;> simp
  | cons id ids ih => cases ts <;> simp [List.mapM_cons, Option.bind_eq_some_iff, ih]

theorem assemble?_eq_some_iff :
    r.assemble? tree? = some t ↔ r.Assembles (fun i t => tree? i = some t) t := by
  constructor
  · intro h
    cases r with
    | number x =>
      cases h
      exact .number x
    | symbol kind name bound shadowed =>
      cases bound with
      | none =>
        cases h
        exact .unbound kind name shadowed
      | some i =>
        obtain ⟨v, hv, h⟩ := Option.bind_eq_some_iff.mp h
        cases h
        exact .bound kind name shadowed hv
    | term i j k =>
      obtain ⟨c, hc, h⟩ := Option.bind_eq_some_iff.mp h
      obtain ⟨a, ha, h⟩ := Option.bind_eq_some_iff.mp h
      obtain ⟨x, hx, h⟩ := Option.bind_eq_some_iff.mp h
      cases h
      exact .term hc ha hx
    | unary op i =>
      obtain ⟨e, he, h⟩ := Option.bind_eq_some_iff.mp h
      cases h
      exact .unary op he
    | binary op i j =>
      obtain ⟨l, hl, h⟩ := Option.bind_eq_some_iff.mp h
      obtain ⟨r, hr, h⟩ := Option.bind_eq_some_iff.mp h
      cases h
      exact .binary op hl hr
    | nary op ids =>
      obtain ⟨es, hes, h⟩ := Option.bind_eq_some_iff.mp h
      cases h
      exact .nary op (mapM_eq_some_iff.mp hes)
    | call name ids =>
      obtain ⟨es, hes, h⟩ := Option.bind_eq_some_iff.mp h
      cases h
      exact .call name (mapM_eq_some_iff.mp hes)
  · intro h
    cases h with
    | number | unbound => rfl
    | bound kind name shadowed hv => simp [assemble?, hv]
    | term hc ha hx => simp [assemble?, hc, ha, hx]
    | unary op he => simp [assemble?, he]
    | binary op hl hr => simp [assemble?, hl, hr]
    | nary op hes | call name hes => simp [assemble?, mapM_eq_some_iff.mpr hes]

end Assembles

end Record

namespace Zone

section Rank

open scoped Classical

variable {z : Zone} {x y id : NodeId}

/-- How many nodes a node leads to, with itself. -/
noncomputable def rank (z : Zone) (id : NodeId) : Nat :=
  ((Finset.range z.size).filter fun i => z.LeadsTo id ⟨i⟩).card

theorem rank_le_size (z : Zone) (id : NodeId) : z.rank id ≤ z.size := by
  have hle := Finset.card_filter_le (Finset.range z.size) fun i => z.LeadsTo id ⟨i⟩
  rwa [Finset.card_range] at hle

theorem rank_pos (h : id.index < z.size) : 0 < z.rank id := by
  refine Finset.card_pos.mpr ⟨id.index, ?_⟩
  rw [Finset.mem_filter, Finset.mem_range]
  exact ⟨h, .refl⟩

/-- What a node refers to leads to fewer nodes, for it does not lead back. -/
theorem rank_lt (href : z.Refers x y) (hback : ¬ z.LeadsTo y x) : z.rank y < z.rank x := by
  refine Finset.card_lt_card (Finset.ssubset_iff_of_subset ?_ |>.mpr ⟨x.index, ?_, ?_⟩)
  · intro i hi
    rw [Finset.mem_filter] at hi ⊢
    exact ⟨hi.1, .head href hi.2⟩
  · obtain ⟨r, hr, -⟩ := href
    rw [Finset.mem_filter, Finset.mem_range]
    exact ⟨lt_size_of_record? hr, .refl⟩
  · rw [Finset.mem_filter]
    exact fun hx => hback hx.2

end Rank

section Build

variable {z z' : Zone} {id : NodeId} {depth depth' : Nat} {t t' : Expr}

theorem build?_succ_eq_some : z.build? (depth + 1) id = some t ↔
    ∃ r, z.record? id = some r ∧ r.Assembles (fun i t => z.build? depth i = some t) t := by
  rw [build?, Option.bind_eq_some_iff]
  exact exists_congr fun r => and_congr_right fun _ => Record.assemble?_eq_some_iff

/-- A tree stays the tree of its node however the zone is extended. -/
theorem build?_mono (hz : z.Extends z') (hle : depth ≤ depth') (h : z.build? depth id = some t) :
    z'.build? depth' id = some t := by
  induction depth generalizing depth' id t with
  | zero => cases h
  | succ depth ih =>
    obtain ⟨depth', rfl⟩ := Nat.exists_eq_add_of_le' hle
    obtain ⟨r, hr, ht⟩ := build?_succ_eq_some.mp h
    refine build?_succ_eq_some.mpr ⟨r, hz.record? hr, ht.mono fun i t hi => ?_⟩
    exact ih (Nat.le_add_left ..) hi

theorem build?_unique (h : z.build? depth id = some t) (h' : z.build? depth' id = some t') :
    t = t' := by
  have hmax := build?_mono (.refl z) (Nat.le_max_left depth depth') h
  exact Option.some.inj (hmax.symm.trans (build?_mono (.refl z) (Nat.le_max_right ..) h'))

theorem exists_build? (hz : z.Consistent) (hacyclic : z.Acyclic) (hid : id.index < z.size)
    (hdepth : z.rank id ≤ depth) : ∃ t, z.build? depth id = some t := by
  induction depth generalizing id with
  | zero => exact absurd hdepth (Nat.not_le_of_lt (rank_pos hid))
  | succ depth ih =>
    obtain ⟨n, hn⟩ := exists_node? hid
    have hr := record?_of_node? hn
    have hassembles : ∃ t, n.record.Assembles (fun i t => z.build? depth i = some t) t := by
      refine Record.exists_assembles fun c hc => ?_
      have hrefers : z.Refers id c := ⟨n.record, hr, hc⟩
      refine ih (hz.refers_lt_size hrefers) (Nat.le_of_lt_succ ?_)
      exact Nat.lt_of_lt_of_le (rank_lt hrefers (acyclic_iff.mp hacyclic _ _ hrefers)) hdepth
    obtain ⟨t, ht⟩ := hassembles
    exact ⟨t, build?_succ_eq_some.mpr ⟨n.record, hr, ht⟩⟩

/-- Every node of a zone without cycles has a tree. -/
theorem exists_toExpr (hz : z.Consistent) (hacyclic : z.Acyclic) (hid : id.index < z.size) :
    ∃ t, z.build? z.size id = some t ∧ z.toExpr id = .ok t := by
  obtain ⟨t, ht⟩ := exists_build? hz hacyclic hid (z.rank_le_size id)
  refine ⟨t, ht, ?_⟩
  rw [toExpr, ht]
  exact if_pos hid

end Build

section Memory

variable {α β : Type} {a : Assembly} {env : Environment} {z : Zone} {active : List String}
  {id : NodeId} {depth : Nat} {t : Expr}

/-- Whether all that is remembered for a node is the result for the tree of the node. -/
def Remembers (a : Assembly) (env : Environment) (z : Zone) (memo : Memo) : Prop :=
  ∀ id v depth t, memo[id.index]?.join = some v → z.build? depth id = some t →
    v = t.evaluate a env []

/-- Whether a step has a result from all that may be remembered, and remembers nothing wrong. -/
def Yields (a : Assembly) (env : Environment) (z : Zone) (step : Evaluator α) (result : α) :
    Prop :=
  ∀ memo, Remembers a env z memo →
    ∃ memo', step.run memo = some (result, memo') ∧ Remembers a env z memo'

theorem yields_pure (x : α) : Yields a env z (pure x) x := by
  intro memo hmemo
  exact ⟨memo, rfl, hmemo⟩

theorem Yields.bind {step : Evaluator α} {next : α → Evaluator β} {x : α} {y : β}
    (h : Yields a env z step x) (hnext : Yields a env z (next x) y) :
    Yields a env z (step >>= next) y := by
  intro memo hmemo
  obtain ⟨memo₁, hrun, hmemo₁⟩ := h memo hmemo
  obtain ⟨memo₂, hrun₂, hmemo₂⟩ := hnext memo₁ hmemo₁
  refine ⟨memo₂, ?_, hmemo₂⟩
  rw [StateT.run_bind, hrun]
  exact hrun₂

theorem yields_mapM {step : NodeId → Evaluator Expr} {result : Expr → Expr} {ids : List NodeId}
    {ts : List Expr} (h : ids.Forall₂ (fun i t => Yields a env z (step i) (result t)) ts) :
    Yields a env z (ids.mapM step) (ts.map result) := by
  induction h with
  | nil => exact yields_pure []
  | cons hstep _ ih =>
    rw [List.mapM_cons]
    exact hstep.bind (ih.bind (yields_pure _))

theorem remembers_replicate (n : Nat) : Remembers a env z (Array.replicate n none) := by
  intro id v depth t hv
  rw [Array.getElem?_replicate] at hv
  split at hv <;> cases hv

/-- The tree of a node is settled, so the result for it may be put into the memory. -/
theorem Remembers.set {memo : Memo} (hmemo : Remembers a env z memo)
    (h : z.build? depth id = some t) :
    Remembers a env z (memo.setIfInBounds id.index (some (t.evaluate a env []))) := by
  intro id' v depth' t' hv h'
  rw [Array.getElem?_setIfInBounds] at hv
  split at hv
  · rename_i hindex
    obtain rfl : id = id' := by
      cases id
      cases id'
      exact congrArg NodeId.mk hindex
    split at hv
    · rw [build?_unique h' h]
      exact (Option.some.inj hv).symm
    · cases hv
  · exact hmemo id' v depth' t' hv h'

theorem Yields.remember {kept : Bool} {step : Evaluator Expr} (hkept : kept = true → active = [])
    (h : z.build? depth id = some t) (hstep : Yields a env z step (t.evaluate a env active)) :
    Yields a env z (remember kept id step) (t.evaluate a env active) := by
  cases kept with
  | false => exact hstep
  | true =>
    obtain rfl := hkept rfl
    intro memo hmemo
    cases hv : memo[id.index]?.join with
    | some v =>
      obtain rfl := hmemo id v depth t hv h
      exact ⟨memo, by simp [Zone.remember, StateT.run, hv], hmemo⟩
    | none =>
      obtain ⟨memo', hrun, hmemo'⟩ := hstep memo hmemo
      rw [StateT.run] at hrun
      refine ⟨_, ?_, hmemo'.set h⟩
      simp [Zone.remember, StateT.run, hv, hrun]

end Memory

section Evaluate

variable {a : Assembly} {env : Environment} {z : Zone} {active : List String} {depth : Nat}
  {id : NodeId} {t : Expr}

/-- A node evaluates to what its tree does. -/
theorem yields_evaluateAt (h : z.build? depth id = some t) :
    Yields a env z (evaluateAt a env z depth active id) (t.evaluate a env active) := by
  induction depth generalizing active id t with
  | zero => cases h
  | succ depth ih =>
    refine Yields.remember (fun hkept => by simp_all) h ?_
    obtain ⟨r, hrecord, ht⟩ := build?_succ_eq_some.mp h
    rw [hrecord]
    cases ht with
    | number x =>
      rw [Expr.evaluate]
      exact yields_pure _
    | unbound kind name shadowed =>
      dsimp only
      by_cases hname : name ∈ active
      · rw [if_pos hname, Expr.evaluate_active none hname, h]
        exact yields_pure _
      · rw [if_neg hname]
        cases hvalue : env[name]? with
        | some v =>
          rw [Expr.evaluate_published hname hvalue]
          exact yields_pure _
        | none =>
          rw [Expr.evaluate_unpublished hname hvalue]
          exact yields_pure _
    | bound kind name shadowed hv =>
      dsimp only
      by_cases hname : name ∈ active
      · rw [if_pos hname, Expr.evaluate_active _ hname, h]
        exact yields_pure _
      · rw [if_neg hname, Expr.evaluate_value _ hname]
        exact ih hv
    | term hc hx hu =>
      rw [Expr.evaluate]
      exact (ih hc).bind ((ih hx).bind ((ih hu).bind (yields_pure _)))
    | unary op he =>
      rw [Expr.evaluate]
      exact (ih he).bind (yields_pure _)
    | binary op hl hr =>
      rw [Expr.evaluate]
      exact (ih hl).bind ((ih hr).bind (yields_pure _))
    | nary op hes | call name hes =>
      rw [Expr.evaluate]
      exact (yields_mapM (hes.imp fun i t hi => ih hi)).bind (yields_pure _)

theorem evaluate_of_build? (a : Assembly) (env : Environment) (h : z.build? z.size id = some t)
    (hid : id.index < z.size) : z.evaluate a env id = .ok (t.evaluate a env []) := by
  have hyields : Yields a env z (evaluateAt a env z z.size [] id) (t.evaluate a env []) :=
    yields_evaluateAt h
  obtain ⟨memo, hrun, -⟩ := hyields _ (remembers_replicate z.size)
  rw [evaluate, hrun]
  exact if_pos hid

end Evaluate

section History

/-- Whatever has been done to a zone, with success or without, no node is reached from itself. So
every node has a tree and values in all environments: no chain of references is without end. -/
theorem acyclic_total_after (hasher : Hasher) (ops : List Operation) :
    let z := after hasher ops
    (∀ x, ¬ Relation.TransGen z.Refers x x) ∧
    ∀ id, id.index < z.size →
      (∃ t, z.toExpr id = .ok t) ∧
      ∀ env, (∃ v, z.compute env id = .ok v) ∧ ∃ v, z.converting env id = .ok v := by
  intro z
  have hacyclic : z.Acyclic := acyclic_after hasher ops
  refine ⟨hacyclic, ?_⟩
  intro id hid
  obtain ⟨t, ht, htoExpr⟩ := exists_toExpr (consistent_after hasher ops) hacyclic hid
  refine ⟨⟨t, htoExpr⟩, ?_⟩
  intro env
  exact ⟨⟨_, evaluate_of_build? .folding env ht hid⟩, ⟨_, evaluate_of_build? .plain env ht hid⟩⟩

/-- The `x` in the first value of `x` is a node of its own. Once `x` is bound to `y` instead, `y` is
refused the value `x`. -/
theorem acyclic_total_after_refusal :
    let x : Option Expr → Expr := .symbol .unknown "x"
    let y : Expr := .symbol .unknown "y" none
    let z := after Hasher.structural
      [.insert (x (some (.binaryOf .addition (x none) (.number 1)))), .assign "x" (some y),
        .assign "y" (some (x none))]
    z.record? ⟨3⟩ = some (.symbol .unknown "x" (some ⟨4⟩) false) ∧
      ¬ Relation.TransGen z.Refers ⟨3⟩ ⟨3⟩ ∧ 3 < z.size ∧ ∃ t, z.toExpr ⟨3⟩ = .ok t := by
  intro x y z
  have hsize : 3 < z.size := by decide +kernel
  obtain ⟨hacyclic, htotal⟩ := acyclic_total_after Hasher.structural
    [.insert (x (some (.binaryOf .addition (x none) (.number 1)))), .assign "x" (some y),
      .assign "y" (some (x none))]
  exact ⟨by decide +kernel, hacyclic ⟨3⟩, hsize, (htotal ⟨3⟩ hsize).1⟩

/-- Whatever has been done to a zone, a node computes and converts to what its tree does; and so
does every node of a list where results for some of them are remembered for the others. -/
theorem evaluate_eq_tree_after (hasher : Hasher) (ops : List Operation) :
    let z := after hasher ops
    (∀ id, id.index < z.size → ∃ t, z.toExpr id = .ok t ∧
      ∀ env, z.compute env id = .ok (t.compute env) ∧
        z.converting env id = .ok (t.converting env)) ∧
    ∀ ids : List NodeId, (∀ id ∈ ids, id.index < z.size) →
      ∃ ts, ids.Forall₂ (fun id t => z.toExpr id = .ok t) ts ∧
        ∀ a env, ((ids.mapM (evaluateAt a env z z.size [])).run (Array.replicate z.size none)).map
          (·.1) = some (ts.map (·.evaluate a env [])) := by
  intro z
  have htree {id : NodeId} (hid : id.index < z.size) :
      ∃ t, z.build? z.size id = some t ∧ z.toExpr id = .ok t :=
    exists_toExpr (consistent_after hasher ops) (acyclic_after hasher ops) hid
  constructor
  · intro id hid
    obtain ⟨t, ht, htoExpr⟩ := htree hid
    refine ⟨t, htoExpr, ?_⟩
    intro env
    exact ⟨evaluate_of_build? .folding env ht hid, evaluate_of_build? .plain env ht hid⟩
  · intro ids hids
    obtain ⟨ts, hts⟩ := Record.exists_forall₂ fun id hid => htree (hids id hid)
    refine ⟨ts, hts.imp fun id t h => h.2, ?_⟩
    intro a env
    have hyields : ids.Forall₂ (fun id t =>
        Yields a env z (evaluateAt a env z z.size [] id) (t.evaluate a env [])) ts :=
      hts.imp fun id t h => yields_evaluateAt h.1
    obtain ⟨memo, hrun, -⟩ := yields_mapM hyields _ (remembers_replicate z.size)
    rw [hrun, Option.map_some]

/-- A sum of one symbol with itself, evaluated together with the symbol, which has a value. -/
theorem evaluate_eq_tree_after_shared :
    let z := after Hasher.structural
      [.insert (.binaryOf .addition (.named "a") (.named "a")), .assign "a" (some (.number 2))]
    let ids : List NodeId := [⟨1⟩, ⟨0⟩]
    (∀ id ∈ ids, id.index < z.size) ∧
      (∃ t, z.toExpr ⟨1⟩ = .ok t ∧ ∀ env, z.compute env ⟨1⟩ = .ok (t.compute env)) ∧
      ∃ ts, ids.Forall₂ (fun id t => z.toExpr id = .ok t) ts ∧
        ∀ a env, ((ids.mapM (evaluateAt a env z z.size [])).run (Array.replicate z.size none)).map
          (·.1) = some (ts.map (·.evaluate a env [])) := by
  intro z ids
  have hids : ∀ id ∈ ids, id.index < z.size := by decide +kernel
  obtain ⟨hnode, hlist⟩ := evaluate_eq_tree_after Hasher.structural
    [.insert (.binaryOf .addition (.named "a") (.named "a")), .assign "a" (some (.number 2))]
  obtain ⟨t, htoExpr, ht⟩ := hnode ⟨1⟩ (hids ⟨1⟩ (by simp [ids]))
  exact ⟨hids, ⟨t, htoExpr, fun env => (ht env).1⟩, hlist ids hids⟩

end History

end Zone

end Formulary
