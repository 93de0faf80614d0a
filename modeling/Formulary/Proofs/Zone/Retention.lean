import Formulary.Proofs.Zone.Unfolding

/-!
What operations leave as it is. An insertion, and a binding that is refused, only add nodes, so all
that could be said of a node before can be said of it afterwards. A binding that succeeds sets the
values of the open symbols of its name besides, and there are none of these among the nodes that it
adds, because all of them are reached from the value.
-/

namespace Formulary.Zone

section Extension

variable {z z' : Zone} {x y id : NodeId} {t : Expr}

/-- Whether another zone has the nodes of a zone, and the same trees and results for them. -/
structure Retains (z z' : Zone) : Prop extends z.Extends z' where
  toExpr_eq : ∀ {id}, id.index < z.size → z'.toExpr id = z.toExpr id
  compute_eq : ∀ {id} env, id.index < z.size → z'.compute env id = z.compute env id
  converting_eq : ∀ {id} env, id.index < z.size → z'.converting env id = z.converting env id

/-- What extends a zone without cycles builds the same trees from its nodes, and it is the tree of a
node that decides what it evaluates to. -/
theorem Extends.retains (h : z.Extends z') (hz : z.Consistent) (hacyclic : z.Acyclic) :
    z.Retains z' := by
  have htree {id : NodeId} (hid : id.index < z.size) : ∃ t, z.build? z.size id = some t ∧
      z'.build? z'.size id = some t ∧ id.index < z'.size := by
    obtain ⟨t, ht, -⟩ := exists_toExpr hz hacyclic hid
    exact ⟨t, ht, build?_mono h h.size_le ht, h.lt_size hid⟩
  refine ⟨h, fun {id} hid => ?_, fun {id} env hid => ?_, fun {id} env hid => ?_⟩
  all_goals obtain ⟨t, ht, ht', hid'⟩ := htree hid
  · rw [toExpr, toExpr, ht, ht', ofNode, ofNode, if_pos hid, if_pos hid']
  · rw [compute, compute, evaluate_of_build? _ _ ht hid, evaluate_of_build? _ _ ht' hid']
  · rw [converting, converting, evaluate_of_build? _ _ ht hid, evaluate_of_build? _ _ ht' hid']

theorem Extends.leadsTo (h : z.Extends z') (hxy : z.LeadsTo x y) : z'.LeadsTo x y := by
  refine Relation.ReflTransGen.mono ?_ _ _ hxy
  rintro a b ⟨r, hr, hb⟩
  exact ⟨r, h.record? hr, hb⟩

end Extension

section Fresh

variable {adopt : Bool} {scope : List String} {z z' : Zone} {y id : NodeId} {ids : List NodeId}
  {r : Record} {e : Expr} {es : List Expr}

/-- The node of a record has its children and, if the record has one, its value. -/
theorem Consistent.references_of_internWith (hz : z.Consistent)
    (h : (internWith adopt r).run z = .ok id z') :
    ∃ s, z'.record? id = some s ∧ s.outline = r.outline ∧ r.references ⊆ s.references := by
  rcases internWith_cases adopt r z with
    ⟨err, hrun⟩ | ⟨id', hlookup, hbound, hrun⟩ | ⟨-, -, hrun⟩
  · cases h.symm.trans hrun
  · cases h.symm.trans hrun
    obtain ⟨s, hs, houtline⟩ := Option.map_eq_some_iff.mp (hz.outline?_of_lookup hlookup)
    refine ⟨s, hs, houtline, ?_⟩
    have hchildren : s.children = r.children := by
      have := congrArg Record.children houtline
      rwa [Record.children_setBound, Record.children_setBound] at this
    rw [boundOf, hs, Option.bind_some] at hbound
    unfold Record.references
    rw [hchildren]
    rcases hbound with hbound | ⟨-, hbound⟩ <;> simp [hbound]
  · cases h.symm.trans hrun
    exact ⟨r, by rw [record?_push, if_pos rfl], rfl, List.Subset.refl _⟩

/-- To intern a record adds one node at most, and this is what is answered. -/
theorem eq_of_internWith (h : (internWith adopt r).run z = .ok id z') (hy : z.size ≤ y.index)
    (hy' : y.index < z'.size) : y = id := by
  rcases internWith_cases adopt r z with ⟨err, hrun⟩ | ⟨id', -, -, hrun⟩ | ⟨-, -, hrun⟩
  · cases h.symm.trans hrun
  · cases h.symm.trans hrun
    exact absurd hy' (Nat.not_lt_of_le hy)
  · cases h.symm.trans hrun
    have hindex : y.index = z.size := by
      simp only [size, push, Array.size_push] at hy hy' ⊢
      omega
    cases y
    exact congrArg NodeId.mk hindex

theorem exists_leadsTo_of_insertList
    (hinsert : ∀ e ∈ es, ∀ {z z' id}, z.Consistent → (insertIn adopt scope e).run z = .ok id z' →
      ∀ {y : NodeId}, z.size ≤ y.index → y.index < z'.size → z'.LeadsTo id y)
    (hz : z.Consistent) (h : (insertList adopt scope es).run z = .ok ids z')
    (hy : z.size ≤ y.index) (hy' : y.index < z'.size) : ∃ i ∈ ids, z'.LeadsTo i y := by
  induction es generalizing z ids with
  | nil =>
    cases h
    exact absurd hy' (Nat.not_lt_of_le hy)
  | cons e es ih =>
    obtain ⟨i, z₁, hi, h⟩ := run_bind_eq_ok.mp h
    obtain ⟨is, z₂, his, h⟩ := run_bind_eq_ok.mp h
    cases h
    obtain ⟨-, hz₁⟩ := hz.step (accreting_insertIn _ _ _) hi
    obtain ⟨hextends, -⟩ := hz₁.step (accreting_insertList _ _ _) his
    by_cases hy₁ : y.index < z₁.size
    · exact ⟨i, by simp, hextends.leadsTo (hinsert e (by simp) hz hi hy hy₁)⟩
    · obtain ⟨j, hj, hlead⟩ := ih (fun f hf => hinsert f (by simp [hf])) hz₁ his
        (Nat.le_of_not_lt hy₁)
      exact ⟨j, by simp [hj], hlead⟩

/-- All that an insertion adds is reached from what it answers. -/
theorem leadsTo_of_insertIn {adopt : Bool} {scope : List String} {z z' : Zone} {y id : NodeId}
    {e : Expr} (hz : z.Consistent) (h : (insertIn adopt scope e).run z = .ok id z')
    (hy : z.size ≤ y.index) (hy' : y.index < z'.size) : z'.LeadsTo id y := by
  obtain ⟨r, z₁, hintern, hparts⟩ := insertIn_cases h
  by_cases hy₁ : y.index < z₁.size
  · -- The node was added with a part, to which the new record refers.
    have hpart : ∃ i ∈ r.references, z₁.LeadsTo i y := by
      rcases hparts with ⟨-, hlist⟩ | ⟨kind, name, v, i, he, -, hbound, hv⟩
      · obtain ⟨i, hi, hlead⟩ := exists_leadsTo_of_insertList
          (fun c _ {z z' id} hz hc {y} hy hy' => leadsTo_of_insertIn hz hc hy hy') hz hlist hy hy₁
        exact ⟨i, List.mem_append_left _ hi, hlead⟩
      · exact ⟨i, by simp [Record.references, hbound], leadsTo_of_insertIn hz hv hy hy₁⟩
    obtain ⟨i, hi, hlead⟩ := hpart
    have hz₁ : z₁.Consistent := by
      rcases hparts with ⟨-, hlist⟩ | ⟨_, _, _, _, -, -, -, hv⟩
      · exact (hz.step (accreting_insertList _ _ _) hlist).2
      · exact (hz.step (accreting_insertIn _ _ _) hv).2
    obtain ⟨hextends, -⟩ := hz₁.step (accreting_internWith _ _) hintern
    obtain ⟨s, hs, -, hsubset⟩ := hz₁.references_of_internWith hintern
    exact .head ⟨s, hs, hsubset hi⟩ (hextends.leadsTo hlead)
  · rw [eq_of_internWith hintern (Nat.le_of_not_lt hy₁) hy']
termination_by sizeOf e
decreasing_by
  · exact Expr.sizeOf_lt_of_mem_children ‹_›
  · rw [he]
    exact Expr.sizeOf_value_lt kind name v

end Fresh

section Value

variable {adopt : Bool} {z z' : Zone} {id : NodeId} {ids : List NodeId} {r : Record} {e : Expr}
  {es : List Expr}

theorem Spells.extends (h : z.Spells id e) (hz : z.Extends z') : z'.Spells id e := by
  refine h.mono fun id r hr => ?_
  obtain ⟨s, hs, rfl⟩ := Option.map_eq_some_iff.mp hr
  exact Option.map_eq_some_iff.mpr ⟨s, hz.record? hs, rfl⟩

theorem Consistent.outline?_of_internWith (hz : z.Consistent)
    (h : (internWith adopt r).run z = .ok id z') : z'.outline? id = some r.outline := by
  obtain ⟨s, hs, houtline, -⟩ := hz.references_of_internWith h
  rw [outline?, hs, Option.map_some, houtline]

theorem spellsAll_insertList
    (hinsert : ∀ e ∈ es, ∀ {z z' id}, z.Consistent → (insertIn adopt [] e).run z = .ok id z' →
      z'.Spells id e.bare)
    (hz : z.Consistent) (h : (insertList adopt [] es).run z = .ok ids z') :
    z'.SpellsAll ids (es.map Expr.bare) := by
  induction es generalizing z ids with
  | nil =>
    cases h
    rfl
  | cons e es ih =>
    obtain ⟨i, z₁, hi, h⟩ := run_bind_eq_ok.mp h
    obtain ⟨is, z₂, his, h⟩ := run_bind_eq_ok.mp h
    cases h
    obtain ⟨-, hz₁⟩ := hz.step (accreting_insertIn _ _ _) hi
    obtain ⟨hextends, -⟩ := hz₁.step (accreting_insertList _ _ _) his
    exact ⟨i, is, rfl, (hinsert e (by simp) hz hi).extends hextends,
      ih (fun f hf => hinsert f (by simp [hf])) hz₁ his⟩

/-- Whatever values the zone's symbols lend it, an expression is given a node that spells it. -/
theorem spells_insertIn (hz : z.Consistent) (h : (insertIn adopt [] e).run z = .ok id z') :
    z'.Spells id e.bare := by
  induction e generalizing z z' id with
  | number x => exact hz.outline?_of_internWith h
  | symbol kind name bound =>
    obtain ⟨i, z₁, hi, h⟩ := run_bind_eq_ok.mp h
    obtain ⟨-, hz₁⟩ := hz.step (accreting_insertBound _ _ _) hi
    exact ⟨rfl, hz₁.outline?_of_internWith h⟩
  | term c a x ihc iha ihx =>
    obtain ⟨i, z₁, hi, h⟩ := run_bind_eq_ok.mp h
    obtain ⟨j, z₂, hj, h⟩ := run_bind_eq_ok.mp h
    obtain ⟨k, z₃, hk, h⟩ := run_bind_eq_ok.mp h
    obtain ⟨-, hz₁⟩ := hz.step (accreting_insertIn _ _ _) hi
    obtain ⟨h₁₂, hz₂⟩ := hz₁.step (accreting_insertIn _ _ _) hj
    obtain ⟨h₂₃, hz₃⟩ := hz₂.step (accreting_insertIn _ _ _) hk
    obtain ⟨h₃, -⟩ := hz₃.step (accreting_internWith _ _) h
    exact ⟨i, j, k, hz₃.outline?_of_internWith h,
      (ihc hz hi).extends ((h₁₂.trans h₂₃).trans h₃), (iha hz₁ hj).extends (h₂₃.trans h₃),
      (ihx hz₂ hk).extends h₃⟩
  | unary op e ih =>
    obtain ⟨i, z₁, hi, h⟩ := run_bind_eq_ok.mp h
    obtain ⟨-, hz₁⟩ := hz.step (accreting_insertIn _ _ _) hi
    obtain ⟨h₁, -⟩ := hz₁.step (accreting_internWith _ _) h
    exact ⟨i, hz₁.outline?_of_internWith h, (ih hz hi).extends h₁⟩
  | binary op l r ihl ihr =>
    obtain ⟨i, z₁, hi, h⟩ := run_bind_eq_ok.mp h
    obtain ⟨j, z₂, hj, h⟩ := run_bind_eq_ok.mp h
    obtain ⟨-, hz₁⟩ := hz.step (accreting_insertIn _ _ _) hi
    obtain ⟨h₁₂, hz₂⟩ := hz₁.step (accreting_insertIn _ _ _) hj
    obtain ⟨h₂, -⟩ := hz₂.step (accreting_internWith _ _) h
    exact ⟨i, j, hz₂.outline?_of_internWith h, (ihl hz hi).extends (h₁₂.trans h₂),
      (ihr hz₁ hj).extends h₂⟩
  | nary op es ih | call name es ih =>
    obtain ⟨ids, z₁, hids, h⟩ := run_bind_eq_ok.mp h
    obtain ⟨-, hz₁⟩ := hz.step (accreting_insertList _ _ _) hids
    obtain ⟨h₁, -⟩ := hz₁.step (accreting_internWith _ _) h
    have hes := spellsAll_insertList (fun e he _ _ _ => ih e he) hz hids
    rw [Expr.bare, Expr.bareList_eq_map]
    exact ⟨ids, hz₁.outline?_of_internWith h, spellsAll_mono (fun _ _ _ he => he.extends h₁) hes⟩

end Value

section Binding

variable {z z' : Zone} {id : NodeId} {r : Record} {w : Weight} {name : String}
  {bound : Option NodeId}

/-- Whether another zone has the nodes of a zone, of which the open symbols of a name have a given
value, or none, and nothing else is changed. -/
structure Sets (name : String) (bound : Option NodeId) (z z' : Zone) : Prop where
  record?_eq : ∀ {id r}, z.record? id = some r →
    z'.record? id = some (if r.isOpen name then r.setBound bound else r)
  weight?_eq : ∀ {id w}, z.weight? id = some w → z'.weight? id = some w

theorem Extends.sets_setAll (h : z.Extends z') : z.Sets name bound (z'.setAll name bound) := by
  constructor
  · intro id r hr
    rw [record?_setAll, h.record? hr, Option.map_some]
  · intro id w hw
    rw [weight?_setAll, h.weight? hw]

theorem places_eq_countP (z : Zone) (name : String) :
    z.places name = z.records.countP (·.isOpen name) := by
  simp [places, records, List.countP_map, Function.comp_def]

theorem isOpen_setBound (r : Record) (bound : Option NodeId) (name : String) :
    (r.setBound bound).isOpen name = r.isOpen name := by
  simp [Record.isOpen]

theorem places_setAll (z : Zone) (name : String) (bound : Option NodeId) :
    (z.setAll name bound).places name = z.places name := by
  simp only [places, setAll, Array.countP_map]
  congr 1
  funext n
  simp only [Function.comp_apply]
  split <;> simp [isOpen_setBound, *]

theorem places_push : (z.push r w).places name =
    z.places name + if r.isOpen name then 1 else 0 := by
  simp [places, push, Array.countP_push]

/-- Where no new node is an open symbol of a name, there are as many of these as before. -/
theorem places_of_accretes (h : z.Accretes z')
    (hfresh : ∀ id r, z.size ≤ id.index → z'.record? id = some r → r.isOpen name = false) :
    z'.places name = z.places name := by
  induction h with
  | refl => rfl
  | @tail b c hb hadds ih =>
    rw [← ih fun id r hid hr => hfresh id r hid (hadds.extends.record? hr)]
    cases hadds with
    | push =>
      have hsize : z.size ≤ b.size := (Accretes.extends hb).size_le
      rw [places_push, hfresh ⟨b.size⟩ _ hsize (by rw [record?_push, if_pos rfl])]
      simp

/-- What a binding that succeeds does: the value has a node from which the name is not reached, and
the open symbols of the name are set to it. None of them is new. -/
theorem Consistent.sets_of_assign {τ : Type} [SymbolTable τ] {v : Expr} {table table' : τ}
    {count : Nat} (hz : z.Consistent)
    (h : z.assign name (some v) table = (.ok count, z', table')) :
    table' = SymbolTable.publish table name (some v) ∧ count = z.places name ∧
      z'.places name = z.places name ∧ ∃ id, z.Sets name (some id) z' ∧ z'.Spells id v.bare := by
  rcases assign_cases name v z table with ⟨err, z₁, -, hassign⟩ |
    ⟨id, z₁, hrun, ⟨-, hassign⟩ | ⟨hreaches, hassign⟩⟩
  · cases h.symm.trans hassign
  · cases h.symm.trans hassign
  · cases h.symm.trans hassign
    obtain ⟨hextends, -⟩ := hz.step (accreting_insertIn _ _ _) hrun
    have hplaces : z₁.places name = z.places name := by
      refine places_of_accretes ((accreting_insertIn _ _ _).of_ok hrun) fun y r hy hr => ?_
      have hlead := leadsTo_of_insertIn hz hrun hy (lt_size_of_record? hr)
      have hname : r.name? ≠ some name := fun hname =>
        not_names_of_reaches hreaches hlead ⟨r, hr, hname⟩
      simp [Record.isOpen, hname]
    have hspells : (z₁.setAll name (some id)).Spells id v.bare :=
      (spells_insertIn hz hrun).mono fun i r hr => (outline?_setAll i).trans hr
    exact ⟨rfl, hplaces, (places_setAll ..).trans hplaces, id, hextends.sets_setAll, hspells⟩

/-- A binding that is refused adds nodes at most, and publishes nothing. -/
theorem extends_of_assign_eq_error {τ : Type} [SymbolTable τ] {value : Option Expr}
    {table table' : τ} {err : ZoneError}
    (h : z.assign name value table = (.error err, z', table')) :
    z.Extends z' ∧ table' = table := by
  cases value with
  | none => cases h
  | some v =>
    have haccretes := accreting_insertIn true [] v z
    rcases assign_cases name v z table with ⟨err, z₁, hrun, hassign⟩ |
      ⟨id, z₁, hrun, ⟨-, hassign⟩ | ⟨-, hassign⟩⟩
    · cases h.symm.trans hassign
      rw [leave_of_error hrun] at haccretes
      exact ⟨haccretes.extends, rfl⟩
    · cases h.symm.trans hassign
      rw [leave_of_ok hrun] at haccretes
      exact ⟨haccretes.extends, rfl⟩
    · cases h.symm.trans hassign

end Binding

/-- Whatever has been done to a zone, to intern a record or to insert an expression, with success or
without, leaves its nodes as they are, and so the trees and results of these; so does a binding that
is refused, and it publishes nothing. A binding that succeeds is published, and sets the values of
the open symbols of its name, which are as many as it answers, to a node that spells the new value;
an unbinding takes their values away. Both leave all else of the old nodes as it was. -/
theorem retains_after (hasher : Hasher) (ops : List Operation) :
    let z := after hasher ops
    (∀ r, z.Retains (leave (intern r) z)) ∧ (∀ e, z.Retains (leave (insert e) z)) ∧
    ∀ {τ : Type} [SymbolTable τ] (table : τ) (name : String) (value : Option Expr),
      (∀ err z' table', z.assign name value table = (.error err, z', table') →
        z.Retains z' ∧ table' = table) ∧
      ∀ count z' table', z.assign name value table = (.ok count, z', table') →
        table' = SymbolTable.publish table name value ∧
        count = z.records.countP (·.isOpen name) ∧ count = z'.records.countP (·.isOpen name) ∧
        ∃ bound, z.Sets name bound z' ∧ bound.isSome = value.isSome ∧
          ∀ id ∈ bound, ∀ v ∈ value, z'.Spells id v.bare := by
  intro z
  have hz : z.Consistent := consistent_after hasher ops
  have hacyclic : z.Acyclic := acyclic_after hasher ops
  refine ⟨fun r => ?_, fun e => ?_, ?_⟩
  · exact (accreting_internWith false r z).extends.retains hz hacyclic
  · exact (accreting_insertIn false [] e z).extends.retains hz hacyclic
  · intro τ _ table name value
    constructor
    · intro err z' table' hassign
      obtain ⟨hextends, htable⟩ := extends_of_assign_eq_error hassign
      exact ⟨hextends.retains hz hacyclic, htable⟩
    · intro count z' table' hassign
      simp only [← places_eq_countP]
      cases value with
      | none =>
        cases hassign
        exact ⟨rfl, rfl, (places_setAll ..).symm, none, (Extends.refl z).sets_setAll, rfl, by simp⟩
      | some v =>
        obtain ⟨htable, hcount, hplaces, id, hsets, hspells⟩ := hz.sets_of_assign hassign
        refine ⟨htable, hcount, hcount.trans hplaces.symm, some id, hsets, rfl, ?_⟩
        intro i hi u hu
        obtain rfl := Option.some.inj hi
        obtain rfl := Option.some.inj hu
        exact hspells

/-- Once `x` is bound to `y`, the value `x` is refused to `y` and a number is not. -/
theorem retains_after_cycle :
    let x : Expr := .symbol .unknown "x" none
    let y : Expr := .symbol .unknown "y" none
    let z := after Hasher.structural [.insert (.binaryOf .addition x y), .assign "x" (some y)]
    let refused := z.assign "y" (some x) (∅ : Environment)
    let bound := z.assign "y" (some (.number 5)) (∅ : Environment)
    refused.1 = .error (.cyclicBinding "y") ∧ z.Retains refused.2.1 ∧ refused.2.2 = ∅ ∧
      bound.1 = .ok 1 ∧ (∃ id, z.Sets "y" (some id) bound.2.1) ∧
      bound.2.2 = Environment.update ∅ "y" (some (.number 5)) := by
  intro x y z refused bound
  have hrefused : refused.1 = .error (.cyclicBinding "y") := by decide +kernel
  have hbound : bound.1 = .ok 1 := by decide +kernel
  obtain ⟨-, -, hassign⟩ := retains_after Hasher.structural
    [.insert (.binaryOf .addition x y), .assign "x" (some y)]
  obtain ⟨herror, -⟩ := hassign (∅ : Environment) "y" (some x)
  obtain ⟨-, hok⟩ := hassign (∅ : Environment) "y" (some (.number 5))
  obtain ⟨hretains, htable⟩ := herror _ refused.2.1 refused.2.2 (Prod.ext hrefused rfl)
  obtain ⟨hpublished, -, -, i, hsets, hi, -⟩ := hok _ bound.2.1 bound.2.2 (Prod.ext hbound rfl)
  obtain ⟨id, rfl⟩ := Option.isSome_iff_exists.mp hi
  exact ⟨hrefused, hretains, htable, hbound, ⟨id, hsets⟩, hpublished⟩

end Formulary.Zone
