import Mathlib.Algebra.GroupWithZero.Nat
import Mathlib.Logic.Relation
import Formulary.Proofs.Zone.Insertion
import Formulary.Zone.Reach

/-!
The search for a name, and the nodes that a node leads to. What the search has seen when it finds
nothing is closed under references, so no symbol of the name is anywhere beyond; and each look at a
node uses up what the node counts for. The order in which references are taken up does not matter.
-/

namespace Formulary.Zone

/-- Whether a node has another one as a child or as its value. -/
def Refers (z : Zone) (x y : NodeId) : Prop := ∃ r, z.record? x = some r ∧ y ∈ r.references

/-- Whether references lead from a node to another one. -/
abbrev LeadsTo (z : Zone) : NodeId → NodeId → Prop := Relation.ReflTransGen z.Refers

/-- Whether a node is a symbol of the given name. -/
def Names (z : Zone) (x : NodeId) (name : String) : Prop :=
  ∃ r, z.record? x = some r ∧ r.name? = some name

/-- Where old nodes are as they were, and refer to old nodes only, they lead nowhere else. -/
theorem leadsTo_of_old {z z' : Zone} {x y : NodeId}
    (hold : ∀ id : NodeId, id.index < z.size → z'.record? id = z.record? id)
    (hrefers : ∀ {x y}, z.Refers x y → y.index < z.size) (hx : x.index < z.size)
    (hxy : z'.LeadsTo x y) : z.LeadsTo x y ∧ y.index < z.size := by
  induction hxy with
  | refl => exact ⟨.refl, hx⟩
  | @tail b c _ href ih =>
    obtain ⟨hlead, hb⟩ := ih
    obtain ⟨r, hr, hc⟩ := href
    have hbc : z.Refers b c := ⟨r, (hold b hb).symm.trans hr, hc⟩
    exact ⟨hlead.tail hbc, hrefers hbc⟩

/-- An order in which a search takes up what a node refers to. -/
structure Agenda where
  ahead : Record → List NodeId
  perm : ∀ r, (ahead r).Perm r.references

def Agenda.inOrder : Agenda := ⟨Record.references, fun _ => .refl _⟩

/-- A search that looks at so many nodes, one after the other, and then ends with an answer. -/
inductive Searches (z : Zone) (agenda : Agenda) (name : String) :
    Nat → List NodeId → List NodeId → Bool → Prop
  | done (seen : List NodeId) : Searches z agenda name 0 seen [] false
  | skip {count : Nat} {id : NodeId} {seen stack : List NodeId} {answer : Bool}
    (hid : id ∈ seen ∨ z.record? id = none)
    (hrest : Searches z agenda name count seen stack answer) :
    Searches z agenda name (count + 1) seen (id :: stack) answer
  | found {id : NodeId} {seen stack : List NodeId} {r : Record} (hid : id ∉ seen)
    (hr : z.record? id = some r) (hname : r.name? = some name) :
    Searches z agenda name 1 seen (id :: stack) true
  | visit {count : Nat} {id : NodeId} {seen stack : List NodeId} {r : Record} {answer : Bool}
    (hid : id ∉ seen) (hr : z.record? id = some r) (hname : r.name? ≠ some name)
    (hrest : Searches z agenda name count (id :: seen) (agenda.ahead r ++ stack) answer) :
    Searches z agenda name (count + 1) seen (id :: stack) answer

section Search

variable {z : Zone} {name : String} {seen stack : List NodeId} {id y : NodeId} {r : Record}
  {agenda : Agenda} {count : Nat} {answer : Bool}

/-- A set of nodes that no references lead out of and that has no symbol of the name in it. -/
structure Closed (z : Zone) (name : String) (s : NodeId → Prop) : Prop where
  unnamed : ∀ x r, s x → z.record? x = some r → r.name? ≠ some name
  step : ∀ x y, s x → z.Refers x y → s y

theorem Closed.unnamed_of_leadsTo {s : NodeId → Prop} (h : z.Closed name s) (hid : s id)
    (hy : z.LeadsTo id y) (hr : z.record? y = some r) : r.name? ≠ some name := by
  have hs : s y := by
    clear hr
    induction hy with
    | refl => exact hid
    | tail _ hstep ih => exact h.step _ _ ih hstep
  exact h.unnamed y r hs hr

theorem search_of_notMem (hid : id ∉ seen) :
    z.search name seen (id :: stack) =
      match z.record? id with
      | none => z.search name seen stack
      | some r => if r.name? = some name then true
        else z.search name (id :: seen) (r.references ++ stack) := by
  rw [search, dif_neg hid]
  split <;> simp_all

/-- Whether the nodes that a search has seen do not have the name, and whatever they refer to is
seen as well, or ahead, or no node of the zone. -/
def Pending (z : Zone) (name : String) (seen stack : List NodeId) : Prop :=
  ∀ x r, x ∈ seen → z.record? x = some r → r.name? ≠ some name ∧
    ∀ y ∈ r.references, y ∈ seen ∨ y ∈ stack ∨ z.record? y = none

/-- A node that is seen, or that the zone does not have, need not be looked at. -/
theorem Pending.skip (h : z.Pending name seen (id :: stack))
    (hid : id ∈ seen ∨ z.record? id = none) : z.Pending name seen stack := by
  intro x r hx hr
  obtain ⟨hname, hreferences⟩ := h x r hx hr
  refine ⟨hname, ?_⟩
  intro y hy
  rcases hreferences y hy with hy | hy | hy
  · exact .inl hy
  · rcases List.mem_cons.mp hy with rfl | hy
    · exact hid.imp_right .inr
    · exact .inr (.inl hy)
  · exact .inr (.inr hy)

/-- A node without the name is seen, and what it refers to is ahead. -/
theorem Pending.visit (h : z.Pending name seen (id :: stack)) (hr : z.record? id = some r)
    (hname : r.name? ≠ some name) : z.Pending name (id :: seen) (agenda.ahead r ++ stack) := by
  intro x r' hx hr'
  rcases List.mem_cons.mp hx with rfl | hx
  · obtain rfl : r = r' := Option.some.inj (hr.symm.trans hr')
    refine ⟨hname, fun y hy => .inr (.inl (List.mem_append_left _ ?_))⟩
    exact (agenda.perm r).mem_iff.mpr hy
  · obtain ⟨hname', hreferences⟩ := h x r' hx hr'
    refine ⟨hname', ?_⟩
    intro y hy
    rcases hreferences y hy with hy | hy | hy
    · exact .inl (List.mem_cons_of_mem _ hy)
    · rcases List.mem_cons.mp hy with rfl | hy
      · exact .inl (List.mem_cons_self ..)
      · exact .inr (.inl (List.mem_append_right _ hy))
    · exact .inr (.inr hy)

/-- A search ends. What it looks at was ahead from the start, or a node seen for the first time
refers to it. -/
theorem exists_searches (z : Zone) (agenda : Agenda) (name : String) (seen stack : List NodeId) :
    ∃ count ≤ z.unseen seen (List.range z.size) + stack.length, ∃ answer,
      z.Searches agenda name count seen stack answer := by
  induction hlooks : z.unseen seen (List.range z.size) + stack.length using Nat.strongRecOn
    generalizing seen stack with
  | ind looks ih =>
    subst hlooks
    cases stack with
    | nil => exact ⟨0, Nat.zero_le _, false, .done seen⟩
    | cons id stack =>
      rw [List.length_cons]
      by_cases hskip : id ∈ seen ∨ z.record? id = none
      · obtain ⟨count, hle, answer, h⟩ := ih _ (by simp) seen stack rfl
        exact ⟨count + 1, by omega, answer, .skip hskip h⟩
      · obtain ⟨hid, hnone⟩ := not_or.mp hskip
        obtain ⟨r, hr⟩ := Option.ne_none_iff_exists'.mp hnone
        by_cases hname : r.name? = some name
        · exact ⟨1, by omega, true, .found hid hr hname⟩
        · -- What is put ahead is paid for by the node, which does not count from now on.
          have hunseen := z.unseen_cons_add_le hr hid (List.mem_range.mpr (lt_size_of_record? hr))
          have hlength : (agenda.ahead r ++ stack).length = r.references.length + stack.length := by
            rw [List.length_append, (agenda.perm r).length_eq]
          obtain ⟨count, hle, answer, h⟩ :=
            ih _ (by rw [List.length_cons]; omega) (id :: seen) (agenda.ahead r ++ stack) rfl
          exact ⟨count + 1, by omega, answer, .visit hid hr hname h⟩

theorem Searches.search_eq (h : z.Searches .inOrder name count seen stack answer) :
    z.search name seen stack = answer := by
  induction h with
  | done => rw [search]
  | @skip _ id seen _ _ hskip hrest ih =>
    by_cases hid : id ∈ seen
    · rw [search, dif_pos hid, ih]
    · rw [search_of_notMem hid, hskip.resolve_left hid, ih]
  | found hid hr hname =>
    rw [search_of_notMem hid, hr]
    exact if_pos hname
  | visit hid hr hname hrest ih =>
    rw [search_of_notMem hid, hr]
    exact (if_neg hname).trans ih

/-- What a search without success has seen, and will see, is closed. -/
theorem Searches.closed (h : z.Searches agenda name count seen stack false)
    (hpending : z.Pending name seen stack) :
    ∃ s : NodeId → Prop, z.Closed name s ∧ (∀ x ∈ seen, s x) ∧ (∀ x ∈ stack, s x) ∧
      ∀ x, z.record? x = none → s x := by
  generalize hanswer : false = answer at h
  induction h with
  | done seen =>
    refine ⟨fun x => x ∈ seen ∨ z.record? x = none, ⟨?_, ?_⟩, fun x hx => .inl hx, by simp,
      fun x hx => .inr hx⟩
    · intro x r hx hr
      rcases hx with hx | hx
      · exact (hpending x r hx hr).1
      · simp [hr] at hx
    · intro x y hx hxy
      obtain ⟨r, hr, hy⟩ := hxy
      rcases hx with hx | hx
      · simpa using (hpending x r hx hr).2 y hy
      · simp [hr] at hx
  | @skip _ id _ _ _ hid hrest ih =>
    obtain ⟨s, hclosed, hs, hstack, hnone⟩ := ih (hpending.skip hid) hanswer
    have hsid : s id := hid.elim (hs id) (hnone id)
    exact ⟨s, hclosed, hs, List.forall_mem_cons.mpr ⟨hsid, hstack⟩, hnone⟩
  | found => cases hanswer
  | @visit _ id _ _ r _ hid hr hname hrest ih =>
    obtain ⟨s, hclosed, hs, hstack, hnone⟩ := ih (hpending.visit hr hname) hanswer
    obtain ⟨hsid, hs⟩ := List.forall_mem_cons.mp hs
    refine ⟨s, hclosed, hs, List.forall_mem_cons.mpr ⟨hsid, ?_⟩, hnone⟩
    exact fun x hx => hstack x (List.mem_append_right _ hx)

/-- A search that succeeds finds a symbol of the name behind what was ahead of it. -/
theorem Searches.exists_names (h : z.Searches agenda name count seen stack true) :
    ∃ x ∈ stack, ∃ y, z.LeadsTo x y ∧ z.Names y name := by
  generalize hanswer : true = answer at h
  induction h with
  | done => cases hanswer
  | skip hid hrest ih =>
    obtain ⟨x, hx, hfound⟩ := ih hanswer
    exact ⟨x, List.mem_cons_of_mem _ hx, hfound⟩
  | @found id _ _ r hid hr hname => exact ⟨id, List.mem_cons_self .., id, .refl, r, hr, hname⟩
  | @visit _ id _ _ r _ hid hr hname hrest ih =>
    obtain ⟨x, hx, y, hxy, hy⟩ := ih hanswer
    rcases List.mem_append.mp hx with hx | hx
    · exact ⟨id, List.mem_cons_self .., y, .head ⟨r, hr, (agenda.perm r).mem_iff.mp hx⟩ hxy, hy⟩
    · exact ⟨x, List.mem_cons_of_mem _ hx, y, hxy, hy⟩

/-- A search from one node finds the name exactly if the node leads to it. -/
theorem Searches.answer_iff (h : z.Searches agenda name count [] [id] answer) :
    answer = true ↔ ∃ y, z.LeadsTo id y ∧ z.Names y name := by
  cases answer with
  | false =>
    refine iff_of_false Bool.false_ne_true ?_
    rintro ⟨y, hy, r, hr, hname⟩
    obtain ⟨s, hclosed, -, hstack, -⟩ := h.closed (by simp [Pending])
    exact hclosed.unnamed_of_leadsTo (hstack id (by simp)) hy hr hname
  | true =>
    obtain ⟨x, hx, hfound⟩ := h.exists_names
    rw [List.mem_singleton.mp hx] at hfound
    exact iff_of_true rfl hfound

theorem reaches_iff : z.reaches id name = true ↔ ∃ y, z.LeadsTo id y ∧ z.Names y name := by
  obtain ⟨count, -, answer, h⟩ := z.exists_searches .inOrder name [] [id]
  rw [reaches, h.search_eq, h.answer_iff]

/-- A node from which the name is not reached leads to no symbol of that name. -/
theorem not_names_of_reaches (h : z.reaches id name = false) (hy : z.LeadsTo id y) :
    ¬ z.Names y name := by
  intro hname
  exact Bool.false_ne_true (h.symm.trans (reaches_iff.mpr ⟨y, hy, hname⟩))

/-- A node leads to a name if it has it, or if something that it refers to leads to it. -/
theorem exists_names_iff : (∃ y, z.LeadsTo id y ∧ z.Names y name) ↔
    ∃ r, z.record? id = some r ∧
      (r.name? = some name ∨ ∃ x ∈ r.references, ∃ y, z.LeadsTo x y ∧ z.Names y name) := by
  constructor
  · rintro ⟨y, hy, hname⟩
    rcases Relation.ReflTransGen.cases_head hy with rfl | ⟨x, ⟨r, hr, hx⟩, hxy⟩
    · obtain ⟨r, hr, hname⟩ := hname
      exact ⟨r, hr, .inl hname⟩
    · exact ⟨r, hr, .inr ⟨x, hx, y, hxy, hname⟩⟩
  · rintro ⟨r, hr, hname | ⟨x, hx, y, hxy, hname⟩⟩
    · exact ⟨id, .refl, r, hr, hname⟩
    · exact ⟨y, .head ⟨r, hr, hx⟩ hxy, hname⟩

theorem names_iff : z.Names y name ↔
    ∃ kind bound shadowed, z.record? y = some (.symbol kind name bound shadowed) := by
  constructor
  · rintro ⟨r, hr, hname⟩
    cases r with
    | symbol kind n bound shadowed =>
      obtain rfl : n = name := Option.some.inj hname
      exact ⟨kind, bound, shadowed, hr⟩
    | _ => cases hname
  · rintro ⟨kind, bound, shadowed, hr⟩
    exact ⟨_, hr, rfl⟩

theorem unseen_nil (is : List Nat) : z.unseen [] is =
    ((is.filterMap fun i => z.record? ⟨i⟩).map fun r => r.references.length + 1).sum := by
  induction is with
  | nil => rfl
  | cons i is ih =>
    rw [unseen]
    cases hr : z.record? ⟨i⟩ with
    | none => simp [hr, ih]
    | some r => simp [hr, ih]

theorem record?_eq_getElem? (z : Zone) (id : NodeId) : z.record? id = z.records[id.index]? := by
  simp [record?, node?, records]

theorem size_eq_length (z : Zone) : z.size = z.records.length := by simp [size, records]

theorem filterMap_getElem?_range {α : Type} (l : List α) :
    ((List.range l.length).filterMap fun i => l[i]?) = l := by
  induction l with
  | nil => rfl
  | cons a l ih =>
    rw [List.length_cons, List.range_succ_eq_map, List.filterMap_cons_some (by rfl),
      List.filterMap_map]
    exact congrArg _ ih

/-- At first every node counts, with all its references. -/
theorem unseen_start (z : Zone) : z.unseen [] (List.range z.size) =
    (z.records.map fun r => r.references.length + 1).sum := by
  simp only [unseen_nil, record?_eq_getElem?, size_eq_length, filterMap_getElem?_range]

/-- A name is reached from a node exactly if references lead, in no step or more, to a symbol that
has it, shadowed or not. In whatever order a search takes up references, it ends with this answer,
and has looked at most once for each node of the zone, once for each reference and once for the node
that it started from. -/
theorem reaches_exact (z : Zone) (id : NodeId) (name : String) :
    (z.reaches id name = true ↔ ∃ y kind bound shadowed,
      z.LeadsTo id y ∧ z.record? y = some (.symbol kind name bound shadowed)) ∧
    ∀ agenda : Agenda, ∃ count ≤ (z.records.map fun r => r.references.length + 1).sum + 1,
      z.Searches agenda name count [] [id] (z.reaches id name) := by
  refine ⟨?_, fun agenda => ?_⟩
  · rw [reaches_iff]
    simp only [names_iff, exists_and_left]
  · obtain ⟨count, hle, answer, h⟩ := z.exists_searches agenda name [] [id]
    have hanswer : answer = z.reaches id name := by
      rw [Bool.eq_iff_iff, h.answer_iff, reaches_iff]
    rw [unseen_start] at hle
    exact ⟨count, hle, hanswer ▸ h⟩

end Search

end Formulary.Zone
