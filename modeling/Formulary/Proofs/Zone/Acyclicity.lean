import Formulary.Proofs.Zone.Consistency

/-!
References never lead back. A new node has no references to it, and a new value does not lead to the
symbols that it is given to. Only the latter needs a check: values may come after their symbols, so
that the numbers of nodes say nothing about them.
-/

namespace Formulary.Zone

/-- Whether no references lead from a node to itself. -/
def Acyclic (z : Zone) : Prop := ∀ x, ¬ Relation.TransGen z.Refers x x

variable {z z' : Zone} {x y id : NodeId} {name : String} {bound : Option NodeId}

theorem acyclic_iff : z.Acyclic ↔ ∀ x y, z.Refers x y → ¬ z.LeadsTo y x := by
  constructor
  · intro h x y hxy hyx
    exact h x (.head' hxy hyx)
  · intro h x hx
    obtain ⟨y, hxy, hyx⟩ := Relation.TransGen.head'_iff.mp hx
    exact h x y hxy hyx

theorem Consistent.refers_lt_size (hz : z.Consistent) (h : z.Refers x y) : y.index < z.size := by
  obtain ⟨r, hr, hy⟩ := h
  exact hz.references_lt hr y hy

theorem Extends.record?_eq (h : z.Extends z') (hid : id.index < z.size) :
    z'.record? id = z.record? id := by
  obtain ⟨n, hn⟩ := exists_node? hid
  have hr := record?_of_node? hn
  rw [h.record? hr, hr]

/-- No references lead to a new node, so it is on no cycle. -/
theorem Acyclic.adds (hz : z.Acyclic) (hconsistent : z.Consistent) (h : z.Adds z') :
    z'.Acyclic := by
  have hextends := h.extends
  rw [acyclic_iff] at hz ⊢
  intro x y hxy hyx
  have hy : y.index < z.size := by
    cases h with
    | push hmissing =>
      obtain ⟨s, hs, hy⟩ := hxy
      rw [record?_push] at hs
      split at hs
      · cases hs
        exact lt_size_of_missing? hmissing y hy
      · exact hconsistent.references_lt hs y hy
  obtain ⟨hlead, hx⟩ := leadsTo_of_old (fun _ => hextends.record?_eq)
    hconsistent.refers_lt_size hy hyx
  obtain ⟨s, hs, hy⟩ := hxy
  exact hz x y ⟨s, (hextends.record?_eq hx).symm.trans hs, hy⟩ hlead

/-- A cycle through a new value would lead from this value to a symbol that it is given to. -/
theorem Acyclic.setAll (hz : z.Acyclic) (hbound : ∀ id ∈ bound, z.reaches id name = false) :
    (z.setAll name bound).Acyclic := by
  rw [acyclic_iff] at hz ⊢
  intro x y hxy hyx
  rcases leadsTo_of_setAll hyx with hyx | ⟨p, i, hyp, hp, hi, hix⟩
  · rcases refers_of_setAll hxy with hxy | ⟨hy, hx⟩
    · exact hz x y hxy hyx
    · exact not_names_of_reaches (hbound y hy) hyx hx
  · rcases refers_of_setAll hxy with hxy | ⟨hy, hx⟩
    · exact not_names_of_reaches (hbound i hi) ((hix.tail hxy).trans hyp) hp
    · exact not_names_of_reaches (hbound y hy) hyp hp

theorem acyclic_empty (hasher : Hasher) : (empty hasher).Acyclic := by
  rw [acyclic_iff]
  rintro x y ⟨r, hr, -⟩
  rw [record?_empty] at hr
  cases hr

theorem acyclic_after (hasher : Hasher) (ops : List Operation) : (after hasher ops).Acyclic := by
  have hempty := And.intro (consistent_empty hasher) (acyclic_empty hasher)
  refine (after_keeps (motive := fun z => z.Consistent ∧ z.Acyclic) hasher hempty ?_ ?_ ops).2
  · intro z z' hz hadds
    exact ⟨hz.1.adds hadds, hz.2.adds hz.1 hadds⟩
  · intro z name bound hz hbound
    exact ⟨hz.1.setAll fun id hid => (hbound id hid).1,
      hz.2.setAll fun id hid => (hbound id hid).2⟩

end Formulary.Zone
