import Formulary.Proofs.Zone.Sharing

/-!
Finding an expression and inserting it. A zone finds a node for an expression exactly if it has the
node that stands for it, and then an insertion answers this node and changes nothing. So what has
been inserted once is found from then on, as long as nothing is bound or unbound.
-/

namespace Formulary

namespace Zone

section Find

variable {z z' : Zone} {scope : List String} {id : NodeId} {i : Option NodeId}
  {ids : List NodeId} {r : Record} {e : Expr} {bound : Option Expr} {es : List Expr}

/-- What is looked up under the weight of a node's record is this node. -/
theorem Consistent.lookup_of_record? (hz : z.Consistent) (hr : z.record? id = some r) :
    z.lookup (z.weigh r) = .ok (some id) := by
  have hw := hz.weighed hr
  have hindex := hz.indexed.mpr ⟨_, hw, rfl⟩
  simp [lookup, hindex, hw, Weight.same]

theorem boundOf_of_record? (hr : z.record? id = some r) : z.boundOf id = r.bound? := by
  rw [boundOf, hr, Option.bind_some]

theorem Consistent.findRecord?_eq_some_iff (hz : z.Consistent) :
    z.findRecord? r = some id ↔ z.record? id = some r := by
  unfold findRecord?
  constructor
  · intro h
    split at h
    · rename_i existing hlookup
      split at h
      · rename_i hbound
        obtain rfl := Option.some.inj h
        obtain ⟨s, hs, houtline⟩ := Option.map_eq_some_iff.mp (hz.outline?_of_lookup hlookup)
        rw [boundOf_of_record? hs] at hbound
        rw [hs, Record.eq_of_outline houtline hbound]
      · cases h
    · cases h
  · intro hr
    rw [hz.lookup_of_record? hr]
    exact if_pos (boundOf_of_record? hr)

theorem findBound_eq_some_iff
    (h : ∀ e ∈ bound, ∀ id, z.findIn scope e = some id ↔ z.Represents scope id e) :
    z.findBound scope bound = some i ↔ z.RepresentsBound scope i bound := by
  cases bound with
  | none => simp [findBound, RepresentsBound, eq_comm]
  | some e => simp [findBound, RepresentsBound, h e rfl, and_comm, eq_comm]

theorem findList_eq_some_iff
    (h : ∀ e ∈ es, ∀ id, z.findIn scope e = some id ↔ z.Represents scope id e) :
    z.findList scope es = some ids ↔ z.RepresentsAll scope ids es := by
  induction es generalizing ids with
  | nil => simp [findList, RepresentsAll, eq_comm]
  | cons e es ih =>
    have hes (ids : List NodeId) := @ih ids fun f hf => h f (by simp [hf])
    simp only [findList, RepresentsAll, Option.bind_eq_bind, Option.bind_eq_some_iff, h e (by simp),
      hes, Option.pure_def, Option.some.injEq]
    grind

/-- A zone finds the node that stands for an expression, and no other one. -/
theorem Consistent.findIn_eq_some_iff (hz : z.Consistent) :
    z.findIn scope e = some id ↔ z.Represents scope id e := by
  induction e generalizing scope id with
  | number x => exact hz.findRecord?_eq_some_iff
  | symbol kind name bound ih =>
    have hbound (i : Option NodeId) : z.findBound (name :: scope) bound = some i ↔ _ :=
      findBound_eq_some_iff fun e he _ => ih e he
    simp only [findIn, Represents, Option.bind_eq_bind, Option.bind_eq_some_iff, hbound,
      hz.findRecord?_eq_some_iff, and_comm]
  | term c a x ihc iha ihx =>
    simp only [findIn, Represents, Option.bind_eq_bind, Option.bind_eq_some_iff, ihc, iha, ihx,
      hz.findRecord?_eq_some_iff]
    grind
  | unary op e ih =>
    simp only [findIn, Represents, Option.bind_eq_bind, Option.bind_eq_some_iff, ih,
      hz.findRecord?_eq_some_iff, and_comm]
  | binary op l r ihl ihr =>
    simp only [findIn, Represents, Option.bind_eq_bind, Option.bind_eq_some_iff, ihl, ihr,
      hz.findRecord?_eq_some_iff]
    grind
  | nary op es ih | call name es ih =>
    have hes (ids : List NodeId) : z.findList scope es = some ids ↔ _ :=
      findList_eq_some_iff fun e he _ => ih e he
    simp only [findIn, Represents, Option.bind_eq_bind, Option.bind_eq_some_iff, hes,
      hz.findRecord?_eq_some_iff, and_comm]

end Find

section Insert

variable {z z' : Zone} {scope : List String} {id : NodeId} {i : Option NodeId}
  {ids : List NodeId} {r : Record} {e : Expr} {bound : Option Expr} {es : List Expr}

/-- The record of a node is interned as this node. -/
theorem Consistent.run_internWith_of_record? (hz : z.Consistent) (hr : z.record? id = some r) :
    (internWith false r).run z = .ok id z := by
  have hmissing : z.missing? r = none := by
    refine List.find?_eq_none.mpr fun c hc => ?_
    simpa using hz.references_lt hr c hc
  rw [run_internWith, hmissing, hz.lookup_of_record? hr]
  exact if_pos (.inl (boundOf_of_record? hr))

theorem run_insertBound_of_represents
    (h : ∀ e ∈ bound, ∀ id, z.Represents scope id e →
      (insertIn false scope e).run z = .ok id z)
    (hi : z.RepresentsBound scope i bound) :
    (insertBound false scope bound).run z = .ok i z := by
  cases bound with
  | none =>
    obtain rfl := hi
    rfl
  | some e =>
    obtain ⟨j, rfl, he⟩ := hi
    exact run_bind_eq_ok.mpr ⟨j, z, h e rfl j he, rfl⟩

theorem run_insertList_of_represents
    (h : ∀ e ∈ es, ∀ id, z.Represents scope id e → (insertIn false scope e).run z = .ok id z)
    (hids : z.RepresentsAll scope ids es) : (insertList false scope es).run z = .ok ids z := by
  induction es generalizing ids with
  | nil =>
    obtain rfl := hids
    rfl
  | cons e es ih =>
    obtain ⟨i, is, rfl, he, hes⟩ := hids
    refine run_bind_eq_ok.mpr ⟨i, z, h e (by simp) i he, ?_⟩
    exact run_bind_eq_ok.mpr ⟨is, z, ih (fun f hf => h f (by simp [hf])) hes, rfl⟩

/-- An expression that a node stands for already is inserted as this node, and nothing is added. -/
theorem Represents.run_insertIn (h : z.Represents scope id e) (hz : z.Consistent) :
    (insertIn false scope e).run z = .ok id z := by
  induction e generalizing scope id with
  | number x => exact hz.run_internWith_of_record? h
  | symbol kind name bound ih =>
    obtain ⟨i, hr, hi⟩ := h
    have hbound := run_insertBound_of_represents (fun e he _ => ih e he) hi
    exact run_bind_eq_ok.mpr ⟨i, z, hbound, hz.run_internWith_of_record? hr⟩
  | term c a x ihc iha ihx =>
    obtain ⟨i, j, k, hr, hc, ha, hx⟩ := h
    refine run_bind_eq_ok.mpr ⟨i, z, ihc hc, ?_⟩
    refine run_bind_eq_ok.mpr ⟨j, z, iha ha, ?_⟩
    exact run_bind_eq_ok.mpr ⟨k, z, ihx hx, hz.run_internWith_of_record? hr⟩
  | unary op e ih =>
    obtain ⟨i, hr, he⟩ := h
    exact run_bind_eq_ok.mpr ⟨i, z, ih he, hz.run_internWith_of_record? hr⟩
  | binary op l r ihl ihr =>
    obtain ⟨i, j, hr, hl, hright⟩ := h
    refine run_bind_eq_ok.mpr ⟨i, z, ihl hl, ?_⟩
    exact run_bind_eq_ok.mpr ⟨j, z, ihr hright, hz.run_internWith_of_record? hr⟩
  | nary op es ih | call name es ih =>
    obtain ⟨ids, hr, hes⟩ := h
    have hids := run_insertList_of_represents (fun e he _ => ih e he) hes
    exact run_bind_eq_ok.mpr ⟨ids, z, hids, hz.run_internWith_of_record? hr⟩

/-- Finding an expression and inserting it without effect are the same. -/
theorem Consistent.find?_eq_some_iff (hz : z.Consistent) :
    z.find? e = some id ↔ (insert e).run z = .ok id z := by
  rw [find?, hz.findIn_eq_some_iff]
  exact ⟨fun h => h.run_insertIn hz, represents_insertIn hz⟩

theorem size_of_adds (h : z.Adds z') : z'.size = z.size + 1 := by
  cases h with
  | push => simp [size, push]

/-- A zone that nodes were added to is the same one, or has more nodes. -/
theorem eq_or_size_lt_of_accretes (h : z.Accretes z') : z' = z ∨ z.size < z'.size := by
  induction h with
  | refl => exact .inl rfl
  | tail _ hadds ih =>
    have hsize := size_of_adds hadds
    rcases ih with rfl | hlt <;> omega

end Insert

section History

/-- Whatever has been done to a zone, an expression is found at a node exactly if an insertion would
answer this node and leave the zone as it is. It is not found if an insertion would add nodes or
fail. What has been inserted is found from then on, as long as nothing is bound or unbound, and to
insert it again gives the same node and adds nothing. -/
theorem find_agrees_after (hasher : Hasher) (ops : List Operation) (e : Expr) :
    let z := after hasher ops
    (∀ id, z.find? e = some id ↔ (insert e).run z = .ok id z) ∧
    (∀ id z', (insert e).run z = .ok id z' →
      (z' = z ∧ z.find? e = some id ∨ z.size < z'.size ∧ z.find? e = none) ∧
      ∀ others, (∀ op ∈ others, op.isInsertion = true) →
        (z'.applyAll others).find? e = some id ∧
        (insert e).run (z'.applyAll others) = .ok id (z'.applyAll others)) ∧
    ∀ err z', (insert e).run z = .error err z' → z.find? e = none := by
  intro z
  have hz : z.Consistent := consistent_after hasher ops
  refine ⟨fun id => hz.find?_eq_some_iff, ?_, ?_⟩
  · intro id z' hrun
    constructor
    · rcases eq_or_size_lt_of_accretes ((accreting_insertIn false [] e).of_ok hrun) with rfl | hlt
      · exact .inl ⟨rfl, hz.find?_eq_some_iff.mpr hrun⟩
      · refine .inr ⟨hlt, Option.eq_none_iff_forall_ne_some.mpr fun id' hfind => ?_⟩
        cases hrun.symm.trans (hz.find?_eq_some_iff.mp hfind)
        exact Nat.lt_irrefl _ hlt
    · intro others hothers
      obtain ⟨hz', -, he⟩ := represents_of_insert hrun
      have haccretes := accretes_applyAll (z := z') hothers
      have hagain := (he.extends haccretes.extends).run_insertIn (hz'.accretes haccretes)
      exact ⟨(hz'.accretes haccretes).find?_eq_some_iff.mpr hagain, hagain⟩
  · intro err z' hrun
    refine Option.eq_none_iff_forall_ne_some.mpr fun id hfind => ?_
    cases hrun.symm.trans (hz.find?_eq_some_iff.mp hfind)

/-- Where `a` has a value, the plain `a` is not found, for it conflicts. A symbol that stands in its
own value is not found before it has been inserted, and is found then. -/
theorem find_agrees_after_conflict :
    let a : Option Expr → Expr := .symbol .coefficient "a"
    let x : Option Expr → Expr := .symbol .unknown "x"
    let e := x (some (.binaryOf .addition (x none) (.number 1)))
    let z := after Hasher.structural [.insert (a (some (.number 2)))]
    (∃ err z', (insert (a none)).run z = .error err z') ∧ z.find? (a none) = none ∧
      ∃ id z', (insert e).run z = .ok id z' ∧ z.find? e = none ∧
        (z'.applyAll [.insert (x none)]).find? e = some id := by
  intro a x e z
  obtain ⟨err, z₀, hconflict⟩ : ∃ err z', (insert (a none)).run z = .error err z' := by
    dsimp only [a, z]
    exact ⟨_, _, rfl⟩
  obtain ⟨id, z', hrun⟩ : ∃ id z', (insert e).run z = .ok id z' := by
    dsimp only [a, x, e, z]
    exact ⟨_, _, rfl⟩
  obtain ⟨-, -, hfails⟩ :=
    find_agrees_after Hasher.structural [.insert (a (some (.number 2)))] (a none)
  obtain ⟨-, hinserts, -⟩ := find_agrees_after Hasher.structural [.insert (a (some (.number 2)))] e
  obtain ⟨hcases, hlater⟩ := hinserts id z' hrun
  have hnone : z.find? e = none := by
    have hgrows : z.size < (leave (insert e) z).size := by decide +kernel
    rw [leave_of_ok hrun] at hgrows
    rcases hcases with ⟨rfl, -⟩ | ⟨-, hnone⟩
    · exact absurd hgrows (Nat.lt_irrefl _)
    · exact hnone
  have hothers : ∀ op ∈ [Operation.insert (x none)], op.isInsertion = true := by
    simp [Operation.isInsertion]
  exact ⟨⟨err, z₀, hconflict⟩, hfails err z₀ hconflict, id, z', hrun, hnone, (hlater _ hothers).1⟩

end History

end Zone

end Formulary
