import Formulary.Zone.Basic

/-!
Which names a node of a zone leads to, by a search with a stack and the set of nodes seen.
-/

namespace Formulary.Zone

/-- How many references the nodes not yet seen have, each node counting as one more. -/
def unseen (z : Zone) (seen : List NodeId) : List Nat → Nat
  | [] => 0
  | i :: is =>
    match z.record? ⟨i⟩ with
    | some r => (if (⟨i⟩ : NodeId) ∈ seen then 0 else r.references.length + 1) + unseen z seen is
    | none => unseen z seen is

theorem unseen_cons_le (z : Zone) (id : NodeId) (seen : List NodeId) (is : List Nat) :
    z.unseen (id :: seen) is ≤ z.unseen seen is := by
  induction is with
  | nil => exact Nat.le_refl _
  | cons i is ih =>
    simp only [unseen]
    split
    · by_cases hs : (⟨i⟩ : NodeId) ∈ seen
      · simp [hs, ih]
      · by_cases hi : (⟨i⟩ : NodeId) = id
        · simp [hi]
          omega
        · simp [hs, hi, ih]
    · exact ih

/-- Seeing a node takes away what it counted for. -/
theorem unseen_cons_add_le (z : Zone) {id : NodeId} {seen : List NodeId} {r : Record}
    (hr : z.record? id = some r) (hseen : id ∉ seen) {is : List Nat} (hid : id.index ∈ is) :
    z.unseen (id :: seen) is + (r.references.length + 1) ≤ z.unseen seen is := by
  induction is with
  | nil => simp at hid
  | cons i is ih =>
    have hle := z.unseen_cons_le id seen is
    by_cases hi : i = id.index
    · subst hi
      simp only [unseen, hr, hseen]
      simp
      omega
    · have hmem : id.index ∈ is := by simpa [Ne.symm hi] using hid
      have hne : (⟨i⟩ : NodeId) ≠ id := fun h => hi (by simp [← h])
      have := ih hmem
      simp only [unseen]
      split
      · by_cases hs : (⟨i⟩ : NodeId) ∈ seen
        · simpa [hs] using this
        · simp [hs, hne]
          omega
      · exact this

/-- Whether a search that still has to look at the nodes of `stack` finds the name. -/
def search (z : Zone) (name : String) (seen : List NodeId) : List NodeId → Bool
  | [] => false
  | id :: stack =>
    if _hseen : id ∈ seen then search z name seen stack
    else
      match _hr : z.record? id with
      | none => search z name seen stack
      | some r =>
        if r.name? = some name then true
        else search z name (id :: seen) (r.references ++ stack)
termination_by stack => z.unseen seen (List.range z.size) + stack.length
decreasing_by
  · simp
  · simp
  · have hid : id.index ∈ List.range z.size := by
      simp only [record?, node?, Option.map_eq_some_iff, Array.getElem?_eq_some_iff] at _hr
      obtain ⟨_, ⟨h, _⟩, _⟩ := _hr
      exact List.mem_range.mpr h
    have := z.unseen_cons_add_le _hr _hseen hid
    simp only [List.length_append, List.length_cons]
    omega

/-- Whether a symbol of the given name is reached from a node through children and values. -/
def reaches (z : Zone) (id : NodeId) (name : String) : Bool := z.search name [] [id]

end Formulary.Zone
