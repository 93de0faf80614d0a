import Formulary.Proofs.Zone.Unfolding
import Formulary.Zone.Formula

/-!
Which expression a node stands for. An insertion that succeeds gives an expression the node that
stands for it, values of symbols included, and a node that stands for one expression stands for no
other. So nothing of an expression is lost, and expressions have one node if and only if they are
equal.
-/

namespace Formulary

namespace Zone

mutual

/-- Whether a node is that of an expression which stands in the values of symbols of the names
`binding`. -/
def Represents (z : Zone) : List String → NodeId → Expr → Prop
  | _, id, .number x => z.record? id = some (.number x)
  | binding, id, .symbol kind name bound =>
    ∃ i, z.record? id = some (.symbol kind name i (decide (name ∈ binding))) ∧
      RepresentsBound z (name :: binding) i bound
  | binding, id, .term c a x =>
    ∃ i j k, z.record? id = some (.term i j k) ∧ Represents z binding i c ∧
      Represents z binding j a ∧ Represents z binding k x
  | binding, id, .unary op e =>
    ∃ i, z.record? id = some (.unary op i) ∧ Represents z binding i e
  | binding, id, .binary op l r =>
    ∃ i j, z.record? id = some (.binary op i j) ∧ Represents z binding i l ∧
      Represents z binding j r
  | binding, id, .nary op es =>
    ∃ ids, z.record? id = some (.nary op ids) ∧ RepresentsAll z binding ids es
  | binding, id, .call name es =>
    ∃ ids, z.record? id = some (.call name ids) ∧ RepresentsAll z binding ids es

def RepresentsBound (z : Zone) : List String → Option NodeId → Option Expr → Prop
  | _, i, none => i = none
  | binding, i, some e => ∃ j, i = some j ∧ Represents z binding j e

def RepresentsAll (z : Zone) : List String → List NodeId → List Expr → Prop
  | _, ids, [] => ids = []
  | binding, ids, e :: es =>
    ∃ i is, ids = i :: is ∧ Represents z binding i e ∧ RepresentsAll z binding is es

end

section Represents

variable {z z' : Zone} {binding binding' : List String} {id id' : NodeId} {i i' : Option NodeId}
  {ids ids' : List NodeId} {e t : Expr} {bound : Option Expr} {es ts : List Expr} {depth : Nat}

theorem representsBound_mono
    (h : ∀ e ∈ bound, ∀ id, z.Represents binding id e → z'.Represents binding' id e)
    (hi : z.RepresentsBound binding i bound) : z'.RepresentsBound binding' i bound := by
  cases bound with
  | none => exact hi
  | some e =>
    obtain ⟨j, rfl, he⟩ := hi
    exact ⟨j, rfl, h e rfl j he⟩

theorem representsAll_mono
    (h : ∀ e ∈ es, ∀ id, z.Represents binding id e → z'.Represents binding' id e)
    (hids : z.RepresentsAll binding ids es) : z'.RepresentsAll binding' ids es := by
  induction es generalizing ids with
  | nil => exact hids
  | cons e es ih =>
    obtain ⟨i, is, rfl, he, hes⟩ := hids
    exact ⟨i, is, rfl, h e (by simp) i he, ih (fun f hf => h f (by simp [hf])) hes⟩

/-- A node stands for its expression however the zone is extended. -/
theorem Represents.extends (h : z.Represents binding id e) (hz : z.Extends z') :
    z'.Represents binding id e := by
  induction e generalizing binding id with
  | number x => exact hz.record? h
  | symbol kind name bound ih =>
    obtain ⟨i, hr, hbound⟩ := h
    exact ⟨i, hz.record? hr, representsBound_mono (fun e he _ => ih e he) hbound⟩
  | term c a x ihc iha ihx =>
    obtain ⟨i, j, k, hr, hc, ha, hx⟩ := h
    exact ⟨i, j, k, hz.record? hr, ihc hc, iha ha, ihx hx⟩
  | unary op e ih =>
    obtain ⟨i, hr, he⟩ := h
    exact ⟨i, hz.record? hr, ih he⟩
  | binary op l r ihl ihr =>
    obtain ⟨i, j, hr, hl, hr'⟩ := h
    exact ⟨i, j, hz.record? hr, ihl hl, ihr hr'⟩
  | nary op es ih | call name es ih =>
    obtain ⟨ids, hr, hes⟩ := h
    exact ⟨ids, hz.record? hr, representsAll_mono (fun e he _ => ih e he) hes⟩

theorem representsBound_unique
    (h : ∀ e ∈ bound, ∀ id id', z.Represents binding id e → z.Represents binding id' e → id = id')
    (hi : z.RepresentsBound binding i bound) (hi' : z.RepresentsBound binding i' bound) :
    i = i' := by
  cases bound with
  | none => exact Eq.trans hi (Eq.symm hi')
  | some e =>
    obtain ⟨j, rfl, he⟩ := hi
    obtain ⟨j', rfl, he'⟩ := hi'
    rw [h e rfl j j' he he']

theorem representsAll_unique
    (h : ∀ e ∈ es, ∀ id id', z.Represents binding id e → z.Represents binding id' e → id = id')
    (hids : z.RepresentsAll binding ids es) (hids' : z.RepresentsAll binding ids' es) :
    ids = ids' := by
  induction es generalizing ids ids' with
  | nil => exact Eq.trans hids (Eq.symm hids')
  | cons e es ih =>
    obtain ⟨i, is, rfl, he, hes⟩ := hids
    obtain ⟨i', is', rfl, he', hes'⟩ := hids'
    rw [h e (by simp) i i' he he', ih (fun f hf => h f (by simp [hf])) hes hes']

/-- There is one node for an expression in one place. -/
theorem Represents.unique (h : z.Represents binding id e) (h' : z.Represents binding id' e)
    (hz : z.Consistent) : id = id' := by
  induction e generalizing binding id id' with
  | number x => exact hz.eq_of_record? h h'
  | symbol kind name bound ih =>
    obtain ⟨i, hr, hbound⟩ := h
    obtain ⟨i', hr', hbound'⟩ := h'
    obtain rfl := representsBound_unique (fun e he _ _ => ih e he) hbound hbound'
    exact hz.eq_of_record? hr hr'
  | term c a x ihc iha ihx =>
    obtain ⟨i, j, k, hr, hc, ha, hx⟩ := h
    obtain ⟨i', j', k', hr', hc', ha', hx'⟩ := h'
    obtain rfl := ihc hc hc'
    obtain rfl := iha ha ha'
    obtain rfl := ihx hx hx'
    exact hz.eq_of_record? hr hr'
  | unary op e ih =>
    obtain ⟨i, hr, he⟩ := h
    obtain ⟨i', hr', he'⟩ := h'
    obtain rfl := ih he he'
    exact hz.eq_of_record? hr hr'
  | binary op l r ihl ihr =>
    obtain ⟨i, j, hr, hl, hright⟩ := h
    obtain ⟨i', j', hr', hl', hright'⟩ := h'
    obtain rfl := ihl hl hl'
    obtain rfl := ihr hright hright'
    exact hz.eq_of_record? hr hr'
  | nary op es ih | call name es ih =>
    obtain ⟨ids, hr, hes⟩ := h
    obtain ⟨ids', hr', hes'⟩ := h'
    obtain rfl := representsAll_unique (fun e he _ _ => ih e he) hes hes'
    exact hz.eq_of_record? hr hr'

theorem assembles_of_build? {r : Record} (hr : z.record? id = some r)
    (ht : z.build? depth id = some t) :
    ∃ depth', r.Assembles (fun i t => z.build? depth' i = some t) t := by
  cases depth with
  | zero => cases ht
  | succ depth =>
    obtain ⟨r', hr', ht⟩ := build?_succ_eq_some.mp ht
    obtain rfl := Option.some.inj (hr'.symm.trans hr)
    exact ⟨depth, ht⟩

theorem representsAll_eq_of_build?
    (h : ∀ e ∈ es, ∀ id t, z.Represents binding id e → z.build? depth id = some t → t = e)
    (hids : z.RepresentsAll binding ids es)
    (hts : ids.Forall₂ (fun i t => z.build? depth i = some t) ts) : ts = es := by
  induction es generalizing ids ts with
  | nil =>
    obtain rfl := hids
    cases hts
    rfl
  | cons e es ih =>
    obtain ⟨i, is, rfl, he, hes⟩ := hids
    cases hts with
    | cons ht hts =>
      rw [h e (by simp) i _ he ht, ih (fun f hf => h f (by simp [hf])) hes hts]

/-- The tree of the node of an expression is this expression. -/
theorem Represents.eq_of_build? (h : z.Represents binding id e) (ht : z.build? depth id = some t) :
    t = e := by
  induction e generalizing binding id depth t with
  | number x =>
    obtain ⟨depth, ht⟩ := assembles_of_build? h ht
    cases ht
    rfl
  | symbol kind name bound ih =>
    obtain ⟨i, hr, hbound⟩ := h
    obtain ⟨depth, ht⟩ := assembles_of_build? hr ht
    cases bound with
    | none =>
      obtain rfl := hbound
      cases ht
      rfl
    | some v =>
      obtain ⟨j, rfl, hv⟩ := hbound
      cases ht with
      | bound _ _ _ hv' => rw [ih v rfl hv hv']
  | term c a x ihc iha ihx =>
    obtain ⟨i, j, k, hr, hc, ha, hx⟩ := h
    obtain ⟨depth, ht⟩ := assembles_of_build? hr ht
    cases ht with
    | term hc' ha' hx' => rw [ihc hc hc', iha ha ha', ihx hx hx']
  | unary op e ih =>
    obtain ⟨i, hr, he⟩ := h
    obtain ⟨depth, ht⟩ := assembles_of_build? hr ht
    cases ht with
    | unary _ he' => rw [ih he he']
  | binary op l r ihl ihr =>
    obtain ⟨i, j, hr, hl, hright⟩ := h
    obtain ⟨depth, ht⟩ := assembles_of_build? hr ht
    cases ht with
    | binary _ hl' hright' => rw [ihl hl hl', ihr hright hright']
  | nary op es ih =>
    obtain ⟨ids, hr, hes⟩ := h
    obtain ⟨depth, ht⟩ := assembles_of_build? hr ht
    cases ht with
    | nary _ hts => rw [representsAll_eq_of_build? (fun e he _ _ => ih e he) hes hts]
  | call name es ih =>
    obtain ⟨ids, hr, hes⟩ := h
    obtain ⟨depth, ht⟩ := assembles_of_build? hr ht
    cases ht with
    | call _ hts => rw [representsAll_eq_of_build? (fun e he _ _ => ih e he) hes hts]

theorem exists_record?_of_represents (h : z.Represents binding id e) :
    ∃ r, z.record? id = some r := by
  cases e with
  | number => exact ⟨_, h⟩
  | symbol | unary | nary | call =>
    obtain ⟨_, hr, -⟩ := h
    exact ⟨_, hr⟩
  | term =>
    obtain ⟨_, _, _, hr, -⟩ := h
    exact ⟨_, hr⟩
  | binary =>
    obtain ⟨_, _, hr, -⟩ := h
    exact ⟨_, hr⟩

/-- In a zone without cycles, a node that stands for an expression has it as its tree. -/
theorem Represents.build?_eq (h : z.Represents binding id e) (hz : z.Consistent)
    (hacyclic : z.Acyclic) : id.index < z.size ∧ z.build? z.size id = some e := by
  obtain ⟨r, hr⟩ := exists_record?_of_represents h
  have hid := lt_size_of_record? hr
  obtain ⟨t, ht⟩ := exists_build? hz hacyclic hid (z.rank_le_size id)
  rw [h.eq_of_build? ht] at ht
  exact ⟨hid, ht⟩

end Represents

section Insert

variable {z z' : Zone} {binding : List String} {id : NodeId} {i : Option NodeId}
  {ids : List NodeId} {r : Record} {e : Expr} {bound : Option Expr} {es : List Expr}

/-- A record is given the node that has it, if there is one. -/
theorem Consistent.record?_of_internWith (hz : z.Consistent)
    (h : (internWith false r).run z = .ok id z') : z'.record? id = some r := by
  rcases internWith_cases false r z with
    ⟨err, hrun⟩ | ⟨id', hlookup, hbound, hrun⟩ | ⟨-, -, hrun⟩
  · cases h.symm.trans hrun
  · cases h.symm.trans hrun
    have hvalue : z.boundOf id = r.bound? := by simpa using hbound
    obtain ⟨s, hs, houtline⟩ := Option.map_eq_some_iff.mp (hz.outline?_of_lookup hlookup)
    rw [boundOf, hs, Option.bind_some] at hvalue
    rw [hs, Record.eq_of_outline houtline hvalue]
  · cases h.symm.trans hrun
    rw [record?_push, if_pos rfl]

theorem represents_insertBound
    (hinsert : ∀ e ∈ bound, ∀ {z z' id}, z.Consistent →
      (insertIn false binding e).run z = .ok id z' → z'.Represents binding id e)
    (hz : z.Consistent) (h : (insertBound false binding bound).run z = .ok i z') :
    z'.RepresentsBound binding i bound := by
  cases bound with
  | none =>
    cases h
    rfl
  | some e =>
    obtain ⟨j, z₁, hj, h⟩ := run_bind_eq_ok.mp h
    cases h
    exact ⟨j, rfl, hinsert e rfl hz hj⟩

theorem represents_insertList
    (hinsert : ∀ e ∈ es, ∀ {z z' id}, z.Consistent →
      (insertIn false binding e).run z = .ok id z' → z'.Represents binding id e)
    (hz : z.Consistent) (h : (insertList false binding es).run z = .ok ids z') :
    z'.RepresentsAll binding ids es := by
  induction es generalizing z z' ids with
  | nil =>
    cases h
    rfl
  | cons e es ih =>
    obtain ⟨i, z₁, hi, h⟩ := run_bind_eq_ok.mp h
    obtain ⟨is, z₂, his, h⟩ := run_bind_eq_ok.mp h
    cases h
    obtain ⟨-, hz₁⟩ := hz.step (accreting_insertIn _ _ _) hi
    obtain ⟨hextends, -⟩ := hz₁.step (accreting_insertList _ _ _) his
    exact ⟨i, is, rfl, (hinsert e (by simp) hz hi).extends hextends,
      ih (fun f hf => hinsert f (by simp [hf])) hz₁ his⟩

/-- An insertion that succeeds gives an expression the node that stands for it. -/
theorem represents_insertIn (hz : z.Consistent)
    (h : (insertIn false binding e).run z = .ok id z') : z'.Represents binding id e := by
  induction e generalizing z z' binding id with
  | number x => exact hz.record?_of_internWith h
  | symbol kind name bound ih =>
    obtain ⟨i, z₁, hi, h⟩ := run_bind_eq_ok.mp h
    obtain ⟨-, hz₁⟩ := hz.step (accreting_insertBound _ _ _) hi
    obtain ⟨hextends, -⟩ := hz₁.step (accreting_internWith _ _) h
    have hbound := represents_insertBound (fun e he _ _ _ => ih e he) hz hi
    exact ⟨i, hz₁.record?_of_internWith h,
      representsBound_mono (fun _ _ _ he => he.extends hextends) hbound⟩
  | term c a x ihc iha ihx =>
    obtain ⟨i, z₁, hi, h⟩ := run_bind_eq_ok.mp h
    obtain ⟨j, z₂, hj, h⟩ := run_bind_eq_ok.mp h
    obtain ⟨k, z₃, hk, h⟩ := run_bind_eq_ok.mp h
    obtain ⟨-, hz₁⟩ := hz.step (accreting_insertIn _ _ _) hi
    obtain ⟨h₁₂, hz₂⟩ := hz₁.step (accreting_insertIn _ _ _) hj
    obtain ⟨h₂₃, hz₃⟩ := hz₂.step (accreting_insertIn _ _ _) hk
    obtain ⟨h₃, -⟩ := hz₃.step (accreting_internWith _ _) h
    exact ⟨i, j, k, hz₃.record?_of_internWith h,
      (ihc hz hi).extends ((h₁₂.trans h₂₃).trans h₃), (iha hz₁ hj).extends (h₂₃.trans h₃),
      (ihx hz₂ hk).extends h₃⟩
  | unary op e ih =>
    obtain ⟨i, z₁, hi, h⟩ := run_bind_eq_ok.mp h
    obtain ⟨-, hz₁⟩ := hz.step (accreting_insertIn _ _ _) hi
    obtain ⟨h₁, -⟩ := hz₁.step (accreting_internWith _ _) h
    exact ⟨i, hz₁.record?_of_internWith h, (ih hz hi).extends h₁⟩
  | binary op l r ihl ihr =>
    obtain ⟨i, z₁, hi, h⟩ := run_bind_eq_ok.mp h
    obtain ⟨j, z₂, hj, h⟩ := run_bind_eq_ok.mp h
    obtain ⟨-, hz₁⟩ := hz.step (accreting_insertIn _ _ _) hi
    obtain ⟨h₁₂, hz₂⟩ := hz₁.step (accreting_insertIn _ _ _) hj
    obtain ⟨h₂, -⟩ := hz₂.step (accreting_internWith _ _) h
    exact ⟨i, j, hz₂.record?_of_internWith h, (ihl hz hi).extends (h₁₂.trans h₂),
      (ihr hz₁ hj).extends h₂⟩
  | nary op es ih | call name es ih =>
    obtain ⟨ids, z₁, hids, h⟩ := run_bind_eq_ok.mp h
    obtain ⟨-, hz₁⟩ := hz.step (accreting_insertList _ _ _) hids
    obtain ⟨h₁, -⟩ := hz₁.step (accreting_internWith _ _) h
    have hes := represents_insertList (fun e he _ _ _ => ih e he) hz hids
    exact ⟨ids, hz₁.record?_of_internWith h,
      representsAll_mono (fun _ _ _ he => he.extends h₁) hes⟩

end Insert

section History

variable {hasher : Hasher} {ops others : List Operation} {z z' : Zone} {i j : NodeId}
  {e e' : Expr}

theorem eq_after_of_insert (h : (insert e).run (after hasher ops) = .ok i z) :
    z = after hasher (ops ++ [.insert e]) := by
  rw [after, applyAll_append]
  exact (leave_of_ok h).symm

theorem represents_of_insert (h : (insert e).run (after hasher ops) = .ok i z) :
    z.Consistent ∧ z.Acyclic ∧ z.Represents [] i e := by
  have hrepresents := represents_insertIn (consistent_after hasher ops) h
  obtain rfl := eq_after_of_insert h
  exact ⟨consistent_after hasher _, acyclic_after hasher _, hrepresents⟩

theorem toExpr_of_insert (h : (insert e).run (after hasher ops) = .ok i z) :
    z.toExpr i = .ok e := by
  obtain ⟨hz, hacyclic, he⟩ := represents_of_insert h
  obtain ⟨hi, ht⟩ := he.build?_eq hz hacyclic
  rw [toExpr, ht]
  exact if_pos hi

/-- A node keeps standing for its expression, so another one inserted later has this node exactly if
it is the same. -/
theorem eq_iff_of_insert (h : (insert e).run (after hasher ops) = .ok i z)
    (hothers : ∀ op ∈ others, op.isInsertion = true)
    (h' : (insert e').run (z.applyAll others) = .ok j z') : i = j ↔ e = e' := by
  have haccretes : z.Accretes z' :=
    (accretes_applyAll hothers).trans ((accreting_insertIn false [] e').of_ok h')
  obtain ⟨-, -, he⟩ := represents_of_insert h
  rw [eq_after_of_insert h, after, ← applyAll_append, ← after] at h'
  obtain ⟨hz', hacyclic, he'⟩ := represents_of_insert h'
  have he : z'.Represents [] i e := he.extends haccretes.extends
  constructor
  · rintro rfl
    exact he'.eq_of_build? (he.build?_eq hz' hacyclic).2
  · rintro rfl
    exact he.unique he' hz'

end History

end Zone

/-- Whether a formula is read, written and evaluated in all environments as an expression is. -/
structure Formula.Matches (f : Formula) (e : Expr) : Prop where
  toExpr : f.toExpr = .ok e
  text : f.toExpr.map Expr.text = .ok e.text
  tex : f.toExpr.map Expr.tex = .ok e.tex
  compute : ∀ env, f.compute env = .ok (e.compute env)
  converting : ∀ env, f.converting env = .ok (e.converting env)

section Formula

variable {hasher : Hasher} {f : Formula} {e : Expr}

theorem Formula.run_insert_of_ofExpr (h : Formula.ofExpr e = .ok f) :
    (Zone.insert e).run (.empty Hasher.structural) = .ok f.root f.zone := by
  unfold Formula.ofExpr at h
  split at h
  · rename_i root zone hrun
    cases h
    exact hrun
  · cases h

theorem Formula.matches_of_insert
    (h : (Zone.insert e).run (.empty hasher) = .ok f.root f.zone) : f.Matches e := by
  have hinsert : (Zone.insert e).run (Zone.after hasher []) = .ok f.root f.zone := h
  obtain ⟨hz, hacyclic, he⟩ := Zone.represents_of_insert hinsert
  obtain ⟨hid, ht⟩ := he.build?_eq hz hacyclic
  have htoExpr : f.toExpr = .ok e := Zone.toExpr_of_insert hinsert
  refine ⟨htoExpr, ?_, ?_, ?_, ?_⟩
  · rw [htoExpr, Except.map]
  · rw [htoExpr, Except.map]
  · intro env
    exact Zone.evaluate_of_build? .folding env ht hid
  · intro env
    exact Zone.evaluate_of_build? .plain env ht hid

/-- Whatever has been done to a zone before, with success or without, the node that an expression is
given has this expression as its tree; as long as nothing is bound or unbound, it is the node of
this expression and of no other; and a formula made from an expression matches it. -/
theorem insert_lossless (hasher : Hasher) (ops : List Operation) (e : Expr) :
    (∀ i z, (Zone.insert e).run (Zone.after hasher ops) = .ok i z →
      z.toExpr i = .ok e ∧
      ∀ others e' j z', (∀ op ∈ others, op.isInsertion = true) →
        (Zone.insert e').run (z.applyAll others) = .ok j z' → (i = j ↔ e = e')) ∧
    ∀ f : Formula,
      (Zone.insert e).run (.empty hasher) = .ok f.root f.zone ∨ Formula.ofExpr e = .ok f →
      f.Matches e := by
  constructor
  · intro i z h
    refine ⟨Zone.toExpr_of_insert h, ?_⟩
    intro others e' j z' hothers h'
    exact Zone.eq_iff_of_insert h hothers h'
  · rintro f (h | h)
    · exact Formula.matches_of_insert h
    · exact Formula.matches_of_insert (Formula.run_insert_of_ofExpr h)

/-- A symbol that stands in its own value, inserted twice, with a failure between. -/
theorem insert_lossless_selfReference :
    let x : Option Expr → Expr := .symbol .unknown "x"
    let e := x (some (.binaryOf .addition (x none) (.number 1)))
    let ops : List Operation :=
      [.insert (.symbol .coefficient "a" none), .intern (.unary .paren ⟨9⟩)]
    ∃ i z j z' f, (Zone.insert e).run (Zone.after Hasher.structural ops) = .ok i z ∧
      (Zone.insert e).run (z.applyAll [.insert (x none)]) = .ok j z' ∧ Formula.ofExpr e = .ok f ∧
      z.toExpr i = .ok e ∧ i = j ∧ f.Matches e := by
  intro x e ops
  obtain ⟨i, z, h⟩ : ∃ i z, (Zone.insert e).run (Zone.after Hasher.structural ops) = .ok i z := by
    dsimp only [x, e, ops]
    exact ⟨_, _, rfl⟩
  obtain ⟨j, z', h'⟩ : ∃ j z',
      (Zone.insert e).run (z.applyAll [.insert (x none)]) = .ok j z' := by
    rw [Zone.eq_after_of_insert h]
    dsimp only [x, e, ops]
    exact ⟨_, _, rfl⟩
  obtain ⟨f, hf⟩ : ∃ f, Formula.ofExpr e = .ok f := by
    dsimp only [x, e]
    exact ⟨_, rfl⟩
  obtain ⟨hinsert, hformula⟩ := insert_lossless Hasher.structural ops e
  obtain ⟨htoExpr, hiff⟩ := hinsert i z h
  have hothers : ∀ op ∈ [Operation.insert (x none)], op.isInsertion = true := by
    simp [Operation.isInsertion]
  have hij : i = j := (hiff _ e j z' hothers h').mpr rfl
  exact ⟨i, z, j, z', f, h, h', hf, htoExpr, hij, hformula f (.inr hf)⟩

end Formula

/-- Zeros of different signs are told apart, and so are a sign and a subtraction from zero. -/
example (x : Expr) : Expr.number 0 ≠ .number (-0) ∧
    Expr.signed .subtraction x ≠ .binaryOf .subtraction (.number 0) x := by
  simp only [ne_eq, Expr.number.injEq, Expr.signed, Expr.binaryOf, Expr.binary.injEq,
    BinaryOp.mk.injEq]
  decide +kernel

end Formulary
