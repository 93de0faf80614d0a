import Formulary.Proofs.Binding.Agreement
import Formulary.Proofs.Zone.Shadowing

/-!
Binding a name in a formula and in its tree. In the tree every symbol of the name is set that does
not stand in a value of the name. In the formula shadowed symbols are left alone, from wherever they
are referred to.
-/

namespace Formulary

namespace Record

section Assembles

variable {tree tree' : NodeId → Expr → Prop} {P : NodeId → Prop} {r : Record} {ids : List NodeId}
  {t t' : Expr} {ts ts' : List Expr} {name : String} {value : Option Expr}

theorem map_eq_of_forall₂_iff {f : Expr → Expr} (h : ids.Forall₂ tree ts)
    (h' : ids.Forall₂ tree' ts')
    (hP : ∀ i ∈ ids, ∀ a a', tree i a → tree' i a' → (a' = f a ↔ P i)) :
    ts' = ts.map f ↔ ∀ i ∈ ids, P i := by
  induction h generalizing ts' with
  | nil =>
    cases h'
    simp
  | cons ha _ ih =>
    cases h' with
    | cons ha' h' =>
      rw [List.map_cons, List.cons.injEq, List.forall_mem_cons, hP _ (by simp) _ _ ha ha',
        ih h' fun i hi => hP i (by simp [hi])]

/-- A tree is another one with a name bound if this is so for what the record refers to, unless the
record itself is a symbol of the name. -/
theorem Assembles.eq_rebind_iff (hname : r.name? ≠ some name) (h : r.Assembles tree t)
    (h' : r.Assembles tree' t')
    (hP : ∀ i ∈ r.references, ∀ a a', tree i a → tree' i a' → (a' = a.rebind name value ↔ P i)) :
    t' = t.rebind name value ↔ ∀ i ∈ r.references, P i := by
  cases h with
  | number x =>
    cases h'
    simp [Expr.rebind, references, children, bound?]
  | unbound kind n shadowed =>
    cases h'
    have hne : n ≠ name := fun h => hname (congrArg some h)
    simp [Expr.rebind, Expr.rebindBound, references, children, bound?, hne]
  | bound kind n shadowed hv =>
    cases h' with
    | bound _ _ _ hv' =>
      have hne : n ≠ name := fun h => hname (congrArg some h)
      have hiff := hP _ (by simp [references, children, bound?]) _ _ hv hv'
      simp [Expr.rebind, Expr.rebindBound, references, children, bound?, hne, hiff]
  | term hc ha hx =>
    cases h' with
    | term hc' ha' hx' =>
      have hc'' := hP _ (by simp [references, children]) _ _ hc hc'
      have ha'' := hP _ (by simp [references, children]) _ _ ha ha'
      have hx'' := hP _ (by simp [references, children]) _ _ hx hx'
      simp [Expr.rebind, references, children, bound?, hc'', ha'', hx'']
  | unary op he =>
    cases h' with
    | unary _ he' =>
      have hiff := hP _ (by simp [references, children]) _ _ he he'
      simp [Expr.rebind, references, children, bound?, hiff]
  | binary op hl hr =>
    cases h' with
    | binary _ hl' hr' =>
      have hl'' := hP _ (by simp [references, children]) _ _ hl hl'
      have hr'' := hP _ (by simp [references, children]) _ _ hr hr'
      simp [Expr.rebind, references, children, bound?, hl'', hr'']
  | nary op hes =>
    cases h' with
    | nary _ hes' =>
      simp only [references, children, bound?, Option.toList_none, List.append_nil] at hP ⊢
      rw [← map_eq_of_forall₂_iff hes hes' hP]
      simp [Expr.rebind, Expr.rebindList_eq_map]
  | call n hes =>
    cases h' with
    | call _ hes' =>
      simp only [references, children, bound?, Option.toList_none, List.append_nil] at hP ⊢
      rw [← map_eq_of_forall₂_iff hes hes' hP]
      simp [Expr.rebind, Expr.rebindList_eq_map]

end Assembles

end Record

namespace Zone

section Trees

variable {z z' : Zone} {x id : NodeId} {name : String} {c : Float} {depth depth' : Nat}
  {t t' : Expr}

theorem eq_number_iff_of_build? (h : z.build? depth x = some t) :
    t = .number c ↔ z.record? x = some (.number c) := by
  cases depth with
  | zero => cases h
  | succ depth =>
    obtain ⟨r, hr, ht⟩ := build?_succ_eq_some.mp h
    rw [hr, Option.some.injEq]
    constructor
    · rintro rfl
      cases ht
      rfl
    · rintro rfl
      cases ht
      rfl

theorem number_iff_of_set
    (hset : ∀ x r, z.record? x = some r →
      z'.record? x = some (if r.isOpen name then r.setBound (some id) else r))
    (hx : x.index < z.size) : z'.record? x = some (.number c) ↔ z.record? x = some (.number c) := by
  obtain ⟨n, hn⟩ := exists_node? hx
  have hr := record?_of_node? hn
  rw [hset x _ hr, hr, Option.some.injEq, Option.some.injEq]
  cases n.record <;> simp [Record.isOpen, Record.name?, Record.setBound]
  split <;> simp

/-- Where the open symbols of a name are set to the node of a number, the tree of a node becomes the
one with the name bound exactly if no shadowed symbol is in the way. -/
theorem build?_eq_rebind_iff (hz : z.Consistent) (hid : z'.record? id = some (.number c))
    (hset : ∀ x r, z.record? x = some r →
      z'.record? x = some (if r.isOpen name then r.setBound (some id) else r))
    (h : z.build? depth x = some t) (h' : z'.build? depth' x = some t') :
    t' = t.rebind name (some (.number c)) ↔ z.ShadowsAgree name c x := by
  induction depth generalizing x t t' depth' with
  | zero => cases h
  | succ depth ih =>
    cases depth' with
    | zero => cases h'
    | succ depth' =>
      obtain ⟨r, hr, ht⟩ := build?_succ_eq_some.mp h
      obtain ⟨r', hr', ht'⟩ := build?_succ_eq_some.mp h'
      rw [hset x r hr, Option.some.injEq] at hr'
      subst hr'
      by_cases hname : r.name? = some name
      · cases r with
        | symbol kind n bound shadowed =>
          obtain rfl : n = name := Option.some.inj hname
          have hrebind : t.rebind n (some (.number c)) = .symbol kind n (some (.number c)) := by
            cases ht <;> simp [Expr.rebind]
          rw [hrebind, shadowsAgree_iff_of_symbol hr]
          cases shadowed with
          | false =>
            have hopen : (Record.symbol kind n bound false).isOpen n = true := by
              simp [Record.isOpen, Record.name?, Record.isShadowed]
            rw [hopen] at ht'
            cases ht' with
            | bound _ _ _ hv => simp [(eq_number_iff_of_build? hv).mpr hid]
          | true =>
            have hopen : (Record.symbol kind n bound true).isOpen n = false := by
              simp [Record.isOpen, Record.isShadowed]
            rw [hopen] at ht'
            cases ht' with
            | unbound => simp
            | @bound _ _ _ i v hv =>
              have hi : i.index < z.size :=
                hz.references_lt hr i (by simp [Record.references, Record.bound?])
              simp [eq_number_iff_of_build? hv, number_iff_of_set hset hi]
        | _ => cases hname
      · have hopen : r.isOpen name = false := by simp [Record.isOpen, hname]
        rw [hopen] at ht'
        rw [shadowsAgree_iff_of_name? hr hname]
        exact ht.eq_rebind_iff hname ht' fun i _ a a' ha ha' => ih ha ha'

end Trees

section Number

variable {τ : Type} [SymbolTable τ] {z z' : Zone} {id : NodeId} {name : String} {c : Float}

/-- Interning a number fails only if its hash is that of another node. -/
theorem run_insert_number_cases (hz : z.Consistent) (c : Float) :
    (∃ hash existing, (insertIn true [] (.number c)).run z =
      .error (.hashCollision hash existing) z) ∨
    ∃ id z', (insertIn true [] (.number c)).run z = .ok id z' ∧
      z'.record? id = some (.number c) := by
  rw [insertIn, run_internWith]
  have hmissing : z.missing? (.number c) = none := rfl
  rw [hmissing]
  cases hlookup : z.lookup (z.weigh (.number c)) with
  | error err =>
    obtain ⟨existing, w, -, -, -, rfl⟩ := hz.lookup_eq_error_iff.mp hlookup
    exact .inl ⟨_, existing, rfl⟩
  | ok found =>
    right
    cases found with
    | none => exact ⟨_, _, rfl, by rw [record?_push, if_pos rfl]⟩
    | some id =>
      refine ⟨id, z, if_pos (.inr ⟨rfl, rfl⟩), ?_⟩
      obtain ⟨r, hr, houtline⟩ := Option.map_eq_some_iff.mp (hz.outline?_of_lookup hlookup)
      rw [hr]
      cases r with
      | number x => exact congrArg some houtline
      | _ => cases houtline

/-- A number leads to no name. -/
theorem reaches_number (hid : z.record? id = some (.number c)) : z.reaches id name = false := by
  rw [← Bool.not_eq_true, reaches_iff, exists_names_iff]
  rintro ⟨r, hr, h⟩
  obtain rfl := Option.some.inj (hid.symm.trans hr)
  rcases h with hname | ⟨x, hx, -⟩
  · cases hname
  · cases hx

/-- Binding a name to a number sets its open symbols to the node of the number. -/
theorem assign_number_cases (hz : z.Consistent) (name : String) (c : Float) (table : τ) :
    (∃ hash existing, z.assign name (some (.number c)) table =
      (.error (.hashCollision hash existing), z, table)) ∨
    ∃ id z', z.Extends z' ∧ z'.Consistent ∧ z'.record? id = some (.number c) ∧
      z.assign name (some (.number c)) table =
        (.ok (z'.places name), z'.setAll name (some id),
          SymbolTable.publish table name (some (.number c))) := by
  have hinsert := run_insert_number_cases hz c
  rcases assign_cases name (.number c) z table with ⟨err, z', hrun, hassign⟩ |
    ⟨id, z', hrun, hassign⟩
  · rcases hinsert with ⟨hash, existing, hrun'⟩ | ⟨id, z'', hrun', -⟩
    · cases hrun.symm.trans hrun'
      exact .inl ⟨hash, existing, hassign⟩
    · cases hrun.symm.trans hrun'
  · rcases hinsert with ⟨hash, existing, hrun'⟩ | ⟨id', z'', hrun', hid⟩
    · cases hrun.symm.trans hrun'
    · cases hrun.symm.trans hrun'
      obtain ⟨hextends, hz'⟩ := hz.step (accreting_insertIn _ _ _) hrun
      rcases hassign with ⟨hreaches, -⟩ | ⟨-, hassign⟩
      · rw [reaches_number hid] at hreaches
        cases hreaches
      · exact .inr ⟨id, z', hextends, hz', hid, hassign⟩

end Number

end Zone

section Formula

variable {τ : Type} [SymbolTable τ] {hasher : Hasher} {e : Expr} {f g : Formula}
  {steps : List (String × Option Expr)} {table : τ} {name : String} {c : Float}

/-- What every step of a run keeps of the zone of a formula, the run keeps. -/
theorem Formula.assignAll_keeps {motive : Zone → Prop} (f : Formula)
    (steps : List (String × Option Expr)) (table : τ)
    (hstep : ∀ z, motive z → ∀ s ∈ steps, motive (z.apply (.assign s.1 s.2)))
    (hf : motive f.zone) :
    (f.assignAll steps table).1.root = f.root ∧ motive (f.assignAll steps table).1.zone := by
  induction steps generalizing f table with
  | nil => exact ⟨rfl, hf⟩
  | cons s steps ih =>
    have hzone : (f.assign s.1 s.2 table).2.1.zone = f.zone.apply (.assign s.1 s.2) :=
      Zone.assign_eq_apply s.1 s.2 f.zone table
    have hmotive : motive (f.assign s.1 s.2 table).2.1.zone := by
      rw [hzone]
      exact hstep f.zone hf s (by simp)
    exact ih _ _ (fun z hz t ht => hstep z hz t (by simp [ht])) hmotive

/-- Whether the parts of a formula's zone agree, and the node of the whole is in it. -/
structure Formula.Proper (f : Formula) : Prop where
  consistent : f.zone.Consistent
  acyclic : f.zone.Acyclic
  root_lt : f.root.index < f.zone.size

theorem Formula.proper_of_insert (h : (Zone.insert e).run (.empty hasher) = .ok f.root f.zone) :
    f.Proper ∧ f.zone.Represents [] f.root e := by
  have hinsert : (Zone.insert e).run (Zone.after hasher []) = .ok f.root f.zone := h
  obtain ⟨hz, hacyclic, he⟩ := Zone.represents_of_insert hinsert
  exact ⟨⟨hz, hacyclic, he.lt_size⟩, he⟩

theorem Zone.proper_apply {z : Zone} {root : NodeId} (hz : (Formula.mk z root).Proper)
    (op : Operation) : (Formula.mk (z.apply op) root).Proper := by
  refine apply_keeps (motive := fun z => (Formula.mk z root).Proper) ?_ ?_ hz op
  · intro z z' hz hadds
    exact ⟨hz.consistent.adds hadds, hz.acyclic.adds hz.consistent hadds,
      hadds.extends.lt_size hz.root_lt⟩
  · intro z name bound hz hbound
    refine ⟨hz.consistent.setAll fun id hid => (hbound id hid).1,
      hz.acyclic.setAll fun id hid => (hbound id hid).2, ?_⟩
    rw [size_setAll]
    exact hz.root_lt

/-- Numbers shelter nothing from what they replace, and open no way to a shadowed symbol. -/
theorem Zone.sheltered_apply {z : Zone} {root : NodeId} {value : Option Expr}
    (hz : (Formula.mk z root).Proper) (h : z.Sheltered root)
    (hvalue : ∀ v ∈ value, ∃ d, v = .number d) (name : String) :
    (z.apply (.assign name value)).Sheltered root := by
  cases value with
  | none => exact h.setAll (by simp)
  | some v =>
    obtain ⟨d, rfl⟩ := hvalue v rfl
    rw [apply]
    rcases assign_number_cases hz.consistent name d () with ⟨hash, existing, hassign⟩ |
      ⟨id, z', hextends, hz', hid, hassign⟩
    · rw [hassign]
      exact h
    · rw [hassign]
      refine (h.extends hz.consistent hz.root_lt hextends).setAll fun i hi => ?_
      obtain rfl : id = i := Option.some.inj hi
      exact ⟨d, hid⟩

theorem Zone.unshadowed_apply {z : Zone} {value : Option Expr} (h : z.Unshadowed)
    (hvalue : ∀ v ∈ value, ∀ u ∈ v.uses, u.shadowed = false) (name : String) :
    (z.apply (.assign name value)).Unshadowed := by
  cases value with
  | none => exact h.setAll
  | some v =>
    have hinsert := addsUnshadowed_of_uses true (hvalue v rfl) z h
    rw [apply]
    rcases assign_cases name v z () with ⟨err, z', hrun, hassign⟩ |
      ⟨id, z', hrun, ⟨-, hassign⟩ | ⟨-, hassign⟩⟩
    · rw [hassign]
      rwa [leave_of_error hrun] at hinsert
    · rw [hassign]
      rwa [leave_of_ok hrun] at hinsert
    · rw [hassign]
      rw [leave_of_ok hrun] at hinsert
      exact hinsert.setAll

theorem Formula.Proper.exists_toExpr (h : f.Proper) :
    ∃ t, f.zone.build? f.zone.size f.root = some t ∧ f.toExpr = .ok t :=
  Zone.exists_toExpr h.consistent h.acyclic h.root_lt

/-- A name bound to a number is bound in the tree as well, exactly if the shadowed symbols of the
name that the tree shows outside its values agree. -/
theorem Formula.Proper.toExpr_assign_number (h : g.Proper) (name : String) (c : Float) (table : τ) :
    ∃ t t', g.toExpr = .ok t ∧ (g.assign name (some (.number c)) table).2.1.toExpr = .ok t' ∧
      ((∃ hash existing, (g.assign name (some (.number c)) table).1 =
          .error (.hashCollision hash existing)) ∧ t' = t ∨
        (∃ n, (g.assign name (some (.number c)) table).1 = .ok n) ∧
          (t' = t.rebind name (some (.number c)) ↔ g.zone.ShadowsAgree name c g.root)) := by
  obtain ⟨t, ht, htree⟩ := h.exists_toExpr
  have happly := Zone.proper_apply h (.assign name (some (.number c)))
  rw [← Zone.assign_eq_apply _ _ _ table] at happly
  obtain ⟨t', ht', htree'⟩ := happly.exists_toExpr
  refine ⟨t, t', htree, htree', ?_⟩
  unfold Formula.assign
  rcases Zone.assign_number_cases h.consistent name c table with ⟨hash, existing, hassign⟩ |
    ⟨id, z', hextends, hz', hid, hassign⟩
  · rw [hassign] at ht' ⊢
    exact .inl ⟨⟨hash, existing, rfl⟩, Zone.build?_unique ht' ht⟩
  · rw [hassign] at ht' ⊢
    have hnumber : (z'.setAll name (some id)).record? id = some (.number c) := by
      rw [Zone.record?_setAll, hid]
      rfl
    refine .inr ⟨⟨_, rfl⟩, Zone.build?_eq_rebind_iff h.consistent hnumber ?_ ht ht'⟩
    intro x r hr
    exact (Zone.record?_setAll x).trans (by rw [hextends.record? hr, Option.map_some])

/-- Binding a name to a number in a formula that was made from a tree, after any other bindings,
binds it in the formula's tree if no two hashes collide, exactly if the shadowed symbols of the name
that the tree shows outside its values agree. They do if all names were bound to numbers, and if no
symbol stood in a value of its name. -/
theorem assignAll_toExpr_number (h : (Zone.insert e).run (.empty hasher) = .ok f.root f.zone)
    (steps : List (String × Option Expr)) (table : τ) (name : String) (c : Float) :
    let g := (f.assignAll steps table).1
    let result := g.assign name (some (.number c)) (f.assignAll steps table).2
    ∃ t t', g.toExpr = .ok t ∧ result.2.1.toExpr = .ok t' ∧
      ((∃ hash existing, result.1 = .error (.hashCollision hash existing)) ∧ t' = t ∨
        (∃ n, result.1 = .ok n) ∧
          (t' = t.rebind name (some (.number c)) ↔ g.zone.ShadowsAgree name c g.root)) ∧
      ((∀ s ∈ steps, ∀ v ∈ s.2, ∃ d, v = .number d) ∨
        (∀ u ∈ e.uses, u.shadowed = false) ∧
          (∀ s ∈ steps, ∀ v ∈ s.2, ∀ u ∈ v.uses, u.shadowed = false) →
        g.zone.ShadowsAgree name c g.root) := by
  intro g result
  obtain ⟨hproper, he⟩ := Formula.proper_of_insert h
  have hkeeps := f.assignAll_keeps (motive := fun z => (Formula.mk z f.root).Proper) steps table
    (fun z hz s _ => Zone.proper_apply hz (.assign s.1 s.2)) hproper
  have hroot : g.root = f.root := hkeeps.1
  have hg : g.Proper := by
    have hproper := hkeeps.2
    rwa [← hroot] at hproper
  obtain ⟨t, t', ht, ht', hbound⟩ := hg.toExpr_assign_number name c (f.assignAll steps table).2
  refine ⟨t, t', ht, ht', hbound, ?_⟩
  rintro (hsteps | ⟨huses, hsteps⟩)
  · obtain ⟨-, -, hsheltered⟩ := f.assignAll_keeps
      (motive := fun z => (Formula.mk z f.root).Proper ∧ z.Sheltered f.root) steps table
      (fun z hz s hs => ⟨Zone.proper_apply hz.1 (.assign s.1 s.2),
        Zone.sheltered_apply hz.1 hz.2 (hsteps s hs) s.1⟩)
      ⟨hproper, he.sheltered⟩
    rw [← hroot] at hsheltered
    exact hsheltered.shadowsAgree name c
  · have hempty : (Zone.empty hasher).Unshadowed := by
      intro x r hr
      rw [Zone.record?_empty] at hr
      cases hr
    have hinsert := Zone.addsUnshadowed_of_uses false huses _ hempty
    have hf : Zone.leave (Zone.insertIn false [] e) (.empty hasher) = f.zone := Zone.leave_of_ok h
    rw [hf] at hinsert
    obtain ⟨-, hunshadowed⟩ := f.assignAll_keeps (motive := Zone.Unshadowed) steps table
      (fun z hz s hs => Zone.unshadowed_apply hz (hsteps s hs) s.1) hinsert
    exact (hunshadowed.sheltered _).shadowsAgree name c

/-- The first `x` shadows the second one, which is in the value of `y`. When `w` is bound to this
`y`, nothing shadows the second `x` there, yet it is left alone. -/
theorem assignAll_toExpr_number_shadowed :
    let x : Option Expr → Expr := .symbol .coefficient "x"
    let y : Option Expr → Expr := .symbol .coefficient "y"
    let w : Option Expr → Expr := .symbol .coefficient "w"
    let e := Expr.binaryOf .addition (x (some (y (some (x none))))) (w none)
    let f : Formula := ⟨Zone.after Hasher.structural [.insert e], ⟨4⟩⟩
    let g := (f.assignAll [("w", some (y none))] (∅ : Environment)).1
    let env := (f.assignAll [("w", some (y none))] (∅ : Environment)).2
    let five := some (Expr.number 5)
    (Zone.insert e).run (.empty Hasher.structural) = .ok f.root f.zone ∧
      ¬ g.zone.ShadowsAgree "x" 5 g.root ∧
      (g.assign "x" five env).2.1.toExpr =
        .ok (.binaryOf .addition (x five) (w (some (y (some (x none)))))) ∧
      (g.toExpr.map fun t => t.rebind "x" five) =
        .ok (.binaryOf .addition (x five) (w (some (y (some (x five)))))) := by
  intro x y w e f g env five
  have hinsert : (Zone.insert e).run (.empty Hasher.structural) = .ok f.root f.zone := by rfl
  have hbound : (g.assign "x" five env).2.1.toExpr =
      .ok (.binaryOf .addition (x five) (w (some (y (some (x none)))))) := by decide +kernel
  have hrebind : (g.toExpr.map fun t => t.rebind "x" five) =
      .ok (.binaryOf .addition (x five) (w (some (y (some (x five)))))) := by decide +kernel
  refine ⟨hinsert, fun hagree => ?_, hbound, hrebind⟩
  have hcount : (g.assign "x" five env).1 = .ok 1 := by decide +kernel
  obtain ⟨t, t', ht, ht', hcases, -⟩ :=
    assignAll_toExpr_number hinsert [("w", some (y none))] (∅ : Environment) "x" 5
  rcases hcases with ⟨⟨hash, existing, hcollision⟩, -⟩ | ⟨-, hiff⟩
  · cases hcount.symm.trans hcollision
  · have heq := hiff.mpr hagree
    obtain rfl := Except.ok.inj (hbound.symm.trans ht')
    rw [ht] at hrebind
    have heq := heq.trans (Except.ok.inj hrebind)
    have hne : x none ≠ x five := by simp [x, five]
    simp [Expr.binaryOf, w, y, hne] at heq

end Formula

end Formulary
