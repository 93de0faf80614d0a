import Formulary.Proofs.Zone.History

/-!
How the parts of a zone fit together. References stay inside the zone, children come before their
parents, every weight is that of its record, and the index has every hash and nothing else. So there
is one node for every content, and operations of all kinds keep it so.
-/

namespace Formulary

namespace Record

/-- A payload has children in it and nothing else that is a node. -/
theorem map_payload_congr {α : Type} {f g : NodeId → α} {r : Record}
    (h : ∀ c ∈ r.children, f c = g c) : r.payload.map f = r.payload.map g := by
  cases r with
  | number x => rfl
  | symbol kind name bound shadowed => cases shadowed <;> rfl
  | call name args => exact congrArg (Payload.call name) (List.map_congr_left h)
  | _ => exact congrArg Payload.children (List.map_congr_left h)

theorem kind_eq_of_outline {r s : Record} (h : r.outline = s.outline) : r.kind = s.kind := by
  have hkind := congrArg kind h
  rwa [kind_setBound, kind_setBound] at hkind

theorem payload_eq_of_outline {r s : Record} (h : r.outline = s.outline) :
    r.payload = s.payload := by
  have hpayload := congrArg payload h
  rwa [payload_setBound, payload_setBound] at hpayload

theorem eq_of_outline {r s : Record} (h : r.outline = s.outline) (hbound : r.bound? = s.bound?) :
    r = s := by
  cases r with
  | symbol kind name bound shadowed =>
    cases s with
    | symbol kind' name' bound' shadowed' =>
      cases h
      cases hbound
      rfl
    | _ => cases h
  | _ =>
    cases s with
    | symbol => cases h
    | _ => exact h

end Record

namespace Zone

/-- Whether a zone has all nodes of another one, as they were. -/
structure Extends (z z' : Zone) : Prop where
  hasher_eq : z'.hasher = z.hasher
  node?_eq : ∀ {id n}, z.node? id = some n → z'.node? id = some n

section Extension

variable {z z₁ z₂ : Zone} {id : NodeId} {r : Record} {w : Weight}

theorem Extends.refl (z : Zone) : z.Extends z := ⟨rfl, fun h => h⟩

theorem Extends.trans (h : z.Extends z₁) (h' : z₁.Extends z₂) : z.Extends z₂ :=
  ⟨h'.hasher_eq.trans h.hasher_eq, fun hn => h'.node?_eq (h.node?_eq hn)⟩

theorem Extends.record? (h : z.Extends z₁) (hr : z.record? id = some r) :
    z₁.record? id = some r := by
  obtain ⟨n, hn, rfl⟩ := Option.map_eq_some_iff.mp hr
  exact Option.map_eq_some_iff.mpr ⟨n, h.node?_eq hn, rfl⟩

theorem Extends.weight? (h : z.Extends z₁) (hw : z.weight? id = some w) :
    z₁.weight? id = some w := by
  obtain ⟨n, hn, rfl⟩ := Option.map_eq_some_iff.mp hw
  exact Option.map_eq_some_iff.mpr ⟨n, h.node?_eq hn, rfl⟩

theorem exists_node? (h : id.index < z.size) : ∃ n, z.node? id = some n :=
  ⟨z.nodes[id.index], Array.getElem?_eq_some_iff.mpr ⟨h, rfl⟩⟩

theorem record?_of_node? {n : Node} (h : z.node? id = some n) : z.record? id = some n.record := by
  rw [Zone.record?, h, Option.map_some]

theorem weight?_of_node? {n : Node} (h : z.node? id = some n) : z.weight? id = some n.weight := by
  rw [Zone.weight?, h, Option.map_some]

theorem Extends.lt_size (h : z.Extends z₁) (hid : id.index < z.size) : id.index < z₁.size := by
  obtain ⟨n, hn⟩ := exists_node? hid
  exact lt_size_of_record? (h.record? (record?_of_node? hn))

theorem Extends.size_le (h : z.Extends z₁) : z.size ≤ z₁.size := by
  refine Nat.le_of_not_lt fun hlt => ?_
  have hsize : (⟨z₁.size⟩ : NodeId).index < z₁.size := h.lt_size hlt
  exact Nat.lt_irrefl _ hsize

theorem Extends.hashOf (h : z.Extends z₁) (hid : id.index < z.size) :
    z₁.hashOf id = z.hashOf id := by
  obtain ⟨n, hn⟩ := exists_node? hid
  rw [Zone.hashOf, Zone.hashOf, weight?_of_node? hn, h.weight? (weight?_of_node? hn)]

/-- A record weighs the same as long as its children are there. -/
theorem Extends.weigh (h : z.Extends z₁) (hr : ∀ c ∈ r.children, c.index < z.size) :
    z₁.weigh r = z.weigh r := by
  have hmap : r.payload.map z₁.hashOf = r.payload.map z.hashOf :=
    Record.map_payload_congr fun c hc => h.hashOf (hr c hc)
  rw [Zone.weigh, Zone.weigh, Weight.of, Weight.of, hmap, h.hasher_eq]

theorem extends_push (z : Zone) (r : Record) (w : Weight) : z.Extends (z.push r w) := by
  refine ⟨rfl, ?_⟩
  intro id n hn
  have hlt : id.index < z.size := lt_size_of_record? (record?_of_node? hn)
  rw [node?_push, if_neg (Nat.ne_of_lt hlt), hn]

theorem Adds.extends (h : z.Adds z₁) : z.Extends z₁ := by
  cases h with
  | push => exact extends_push z _ _

theorem Accretes.extends (h : z.Accretes z₁) : z.Extends z₁ := by
  induction h with
  | refl => exact .refl z
  | tail _ hadds ih => exact ih.trans hadds.extends

end Extension

/-- A zone whose parts agree with each other. -/
structure Consistent (z : Zone) : Prop where
  /-- All references lead to nodes of the zone. -/
  references_lt : ∀ {id r}, z.record? id = some r → ∀ c ∈ r.references, c.index < z.size
  children_lt : ∀ {id r}, z.record? id = some r → ∀ c ∈ r.children, c.index < id.index
  /-- The weight of a node is what its record weighs with the hashes that its children have. -/
  weighed : ∀ {id r}, z.record? id = some r → z.weight? id = some (z.weigh r)
  /-- The index leads from the hash of a node to this node, and from nothing else anywhere. -/
  indexed : ∀ {hash id}, z.index[hash]? = some id ↔ ∃ w, z.weight? id = some w ∧ w.hash = hash

section Identity

variable {z : Zone} {i j id : NodeId} {r s : Record} {w w' : Weight}

namespace Consistent

theorem lt_size_of_mem_children (hz : z.Consistent) (hr : z.record? id = some r) {c : NodeId}
    (hc : c ∈ r.children) : c.index < z.size :=
  hz.references_lt hr c (List.mem_append_left _ hc)

theorem eq_weigh (hz : z.Consistent) (hw : z.weight? id = some w) :
    ∃ r, z.record? id = some r ∧ w = z.weigh r := by
  obtain ⟨n, hn, rfl⟩ := Option.map_eq_some_iff.mp hw
  have hr := record?_of_node? hn
  exact ⟨n.record, hr, Option.some.inj (hw.symm.trans (hz.weighed hr))⟩

/-- Two nodes of one content would have one hash, and the index leads to one of them only. -/
theorem eq_of_same (hz : z.Consistent) (hi : z.weight? i = some w) (hj : z.weight? j = some w')
    (hsame : w.same w' = true) : i = j := by
  obtain ⟨r, -, rfl⟩ := hz.eq_weigh hi
  obtain ⟨s, -, rfl⟩ := hz.eq_weigh hj
  simp only [Weight.same, Bool.and_eq_true, beq_iff_eq] at hsame
  obtain ⟨hkind, hpayload⟩ : r.kind = s.kind ∧ r.payload = s.payload := hsame
  have hhash : (z.weigh r).hash = (z.weigh s).hash := by
    rw [weigh, weigh, Weight.of, Weight.of, hkind, hpayload]
  have hindex := hz.indexed.mpr ⟨_, hi, hhash⟩
  exact Option.some.inj (hindex.symm.trans (hz.indexed.mpr ⟨_, hj, rfl⟩))

/-- Records that differ in values at most are records of one node. -/
theorem eq_of_outline (hz : z.Consistent) (hi : z.record? i = some r) (hj : z.record? j = some s)
    (h : r.outline = s.outline) : i = j := by
  refine hz.eq_of_same (hz.weighed hi) (hz.weighed hj) ?_
  simp [weigh, Weight.of, Weight.same, Record.kind_eq_of_outline h, Record.payload_eq_of_outline h]

theorem eq_of_record? (hz : z.Consistent) (hi : z.record? i = some r)
    (hj : z.record? j = some r) : i = j :=
  hz.eq_of_outline hi hj rfl

/-- There is one node for a symbol of each kind and name, and one more for it when shadowed. -/
theorem eq_of_symbol {kind : SymbolKind} {name : String} {bound bound' : Option NodeId}
    {shadowed : Bool} (hz : z.Consistent)
    (hi : z.record? i = some (.symbol kind name bound shadowed))
    (hj : z.record? j = some (.symbol kind name bound' shadowed)) : i = j :=
  hz.eq_of_outline hi hj rfl

/-- What is found under a weight differs from the record that was weighed in its value at most. -/
theorem outline?_of_lookup (hz : z.Consistent) (h : z.lookup (z.weigh r) = .ok (some id)) :
    z.outline? id = some r.outline := by
  obtain ⟨-, w, hw, hsame⟩ := lookup_eq_some h
  obtain ⟨s, hs, rfl⟩ := hz.eq_weigh hw
  simp only [Weight.same, Bool.and_eq_true, beq_iff_eq] at hsame
  rw [outline?, hs, Option.map_some, Record.outline_eq_of_payload hsame.1 hsame.2]

theorem index_eq_none (hz : z.Consistent) (h : z.lookup w = .ok none) :
    z.index[w.hash]? = none := by
  cases hindex : z.index[w.hash]? with
  | none => rfl
  | some existing =>
    obtain ⟨w', hw', -⟩ := hz.indexed.mp hindex
    simp only [lookup, hindex, hw'] at h
    split at h <;> cases h

/-- Looking a weight up fails exactly if another content has its hash. -/
theorem lookup_eq_error_iff {err : ZoneError} (hz : z.Consistent) : z.lookup w = .error err ↔
    ∃ existing w', z.weight? existing = some w' ∧ w'.hash = w.hash ∧ w'.same w = false ∧
      err = .hashCollision w.hash existing := by
  unfold lookup
  constructor
  · intro herr
    split at herr
    · cases herr
    · rename_i existing hindex
      obtain ⟨w', hw', hhash⟩ := hz.indexed.mp hindex
      rw [hw'] at herr
      simp only at herr
      split at herr
      · cases herr
      · rename_i hsame
        exact ⟨existing, w', hw', hhash, by simpa using hsame, (Except.error.inj herr).symm⟩
  · rintro ⟨existing, w', hw', hhash, hsame, rfl⟩
    rw [hz.indexed.mpr ⟨w', hw', hhash⟩]
    simp [hw', hsame]

end Consistent

end Identity

section Changes

variable {z z' : Zone} {r : Record} {w : Weight} {id : NodeId} {name : String}
  {bound : Option NodeId}

theorem weight?_push (id : NodeId) :
    (z.push r w).weight? id = if id.index = z.size then some w else z.weight? id := by
  rw [weight?, node?_push]
  split <;> rfl

theorem index_push (hash : UInt64) :
    (z.push r w).index[hash]? = if w.hash = hash then some ⟨z.size⟩ else z.index[hash]? := by
  simp [push, Std.ExtTreeMap.getElem?_insert]

theorem Consistent.indexed_push (hz : z.Consistent) (hnone : z.index[w.hash]? = none)
    (hash : UInt64) (id : NodeId) : (z.push r w).index[hash]? = some id ↔
      ∃ w', (z.push r w).weight? id = some w' ∧ w'.hash = hash := by
  rw [index_push, weight?_push]
  by_cases hhash : w.hash = hash
  · subst hhash
    rw [if_pos rfl]
    constructor
    · rintro ⟨rfl⟩
      exact ⟨w, if_pos rfl, rfl⟩
    · rintro ⟨w', hw', hhash⟩
      split at hw'
      · rename_i hid
        rw [← hid]
      · have hindex := hz.indexed.mpr ⟨w', hw', hhash⟩
        cases hnone.symm.trans hindex
  · rw [if_neg hhash, hz.indexed]
    constructor
    · rintro ⟨w', hw', rfl⟩
      have hid : id.index ≠ z.size := Nat.ne_of_lt (lt_size_of_weight? hw')
      exact ⟨w', by rw [if_neg hid, hw'], rfl⟩
    · rintro ⟨w', hw', rfl⟩
      split at hw'
      · cases hw'
        exact absurd rfl hhash
      · exact ⟨w', hw', rfl⟩

/-- A new node refers to old ones, and no node had its hash before. -/
theorem Consistent.adds (hz : z.Consistent) (h : z.Adds z') : z'.Consistent := by
  have hextends := h.extends
  cases h with
  | @push r hmissing hlookup =>
    have hreferences := lt_size_of_missing? hmissing
    have hchildren (c) (hc : c ∈ r.children) : c.index < z.size :=
      hreferences c (List.mem_append_left _ hc)
    have hsize : z.size < (z.push r (z.weigh r)).size := by simp [size, Zone.push]
    constructor
    · intro id s hs c hc
      rw [record?_push] at hs
      split at hs
      · cases hs
        exact Nat.lt_trans (hreferences c hc) hsize
      · exact Nat.lt_trans (hz.references_lt hs c hc) hsize
    · intro id s hs c hc
      rw [record?_push] at hs
      split at hs
      · rename_i hid
        cases hs
        rw [hid]
        exact hchildren c hc
      · exact hz.children_lt hs c hc
    · intro id s hs
      rw [record?_push] at hs
      rw [weight?_push]
      split at hs
      · cases hs
        rw [if_pos ‹_›, hextends.weigh hchildren]
      · rw [if_neg ‹_›, hz.weighed hs,
          hextends.weigh fun c hc => hz.lt_size_of_mem_children hs hc]
    · intro hash id
      exact hz.indexed_push (hz.index_eq_none hlookup) hash id

theorem Consistent.accretes (hz : z.Consistent) (h : z.Accretes z') : z'.Consistent :=
  accretes_keeps (fun _ _ => Consistent.adds) hz h

/-- Steps that add nodes keep a zone consistent and extend it. -/
theorem Consistent.step {α : Type} {step : ZoneM α} {a : α} (hz : z.Consistent)
    (hstep : Accreting step) (h : step.run z = .ok a z') : z.Extends z' ∧ z'.Consistent := by
  have haccretes := hstep.of_ok h
  exact ⟨haccretes.extends, hz.accretes haccretes⟩

theorem size_setAll : (z.setAll name bound).size = z.size := by simp [size, setAll]

theorem weight?_setAll (id : NodeId) : (z.setAll name bound).weight? id = z.weight? id := by
  rw [weight?, node?_setAll, Option.map_map, weight?]
  congr 1
  funext n
  simp only [Function.comp_apply]
  split <;> rfl

/-- Values do not enter into weights. -/
theorem weigh_setAll (r : Record) : (z.setAll name bound).weigh r = z.weigh r := by
  have hhash : (z.setAll name bound).hashOf = z.hashOf := by
    funext id
    rw [hashOf, weight?_setAll, hashOf]
  rw [weigh, hhash, weigh]
  rfl

theorem weigh_setBound (r : Record) : z.weigh (r.setBound bound) = z.weigh r := by
  simp [weigh, Weight.of]

theorem Consistent.setAll (hz : z.Consistent) (hbound : ∀ id ∈ bound, id.index < z.size) :
    (z.setAll name bound).Consistent := by
  constructor
  · intro id r' hr' c hc
    rw [size_setAll]
    rcases refers_of_setAll ⟨r', hr', hc⟩ with ⟨r, hr, hc⟩ | ⟨hc, -⟩
    · exact hz.references_lt hr c hc
    · exact hbound c hc
  · intro id r' hr' c hc
    rw [record?_setAll] at hr'
    obtain ⟨r, hr, rfl⟩ := Option.map_eq_some_iff.mp hr'
    refine hz.children_lt hr c ?_
    split at hc
    · rwa [Record.children_setBound] at hc
    · exact hc
  · intro id r' hr'
    rw [record?_setAll] at hr'
    obtain ⟨r, hr, rfl⟩ := Option.map_eq_some_iff.mp hr'
    rw [weight?_setAll, weigh_setAll, hz.weighed hr]
    split
    · rw [weigh_setBound]
    · rfl
  · intro hash id
    rw [weight?_setAll]
    exact hz.indexed

theorem record?_empty (hasher : Hasher) (id : NodeId) : (empty hasher).record? id = none := by
  simp [empty, record?, node?]

theorem consistent_empty (hasher : Hasher) : (empty hasher).Consistent := by
  constructor <;> simp [empty, record?, node?, weight?]

theorem consistent_after (hasher : Hasher) (ops : List Operation) :
    (after hasher ops).Consistent :=
  after_keeps hasher (consistent_empty hasher) (fun _ _ => Consistent.adds)
    (fun _ _ _ hz hbound => hz.setAll fun id hid => (hbound id hid).1) ops

end Changes

/-- No operation changes the weight of a node. -/
theorem weight?_applyAll {z : Zone} {id : NodeId} {w : Weight} (hw : z.weight? id = some w)
    (ops : List Operation) : (z.applyAll ops).weight? id = some w := by
  induction ops generalizing z with
  | nil => exact hw
  | cons op ops ih =>
    refine ih (apply_keeps (motive := fun z => z.weight? id = some w) ?_ ?_ hw op)
    · intro z z' hw hadds
      exact hadds.extends.weight? hw
    · intro z name bound hw _
      rwa [weight?_setAll]

theorem isSome_record? (z : Zone) (id : NodeId) :
    (z.record? id).isSome = true ↔ id.index < z.size := by
  simp [record?, node?, size]

theorem isSome_weight? (z : Zone) (id : NodeId) :
    (z.weight? id).isSome = true ↔ id.index < z.size := by
  simp [weight?, node?, size]

/-- Whether the words for nodes say which nodes these are. -/
structure Worded (z : Zone) : Prop where
  node : ∀ id : NodeId, id.index < z.size → id.word.toNat = id.index
  reference : ∀ id r c, z.record? id = some r → c ∈ r.references → c.word.toNat = c.index
  index : ∀ (hash : UInt64) id, z.index[hash]? = some id → id.word.toNat = id.index
  /-- The node that is added next has a word as well, unless there is none left. -/
  next : z.size < NodeId.capacity → (⟨z.size⟩ : NodeId).word.toNat = z.size

theorem Consistent.worded {z : Zone} (hz : z.Consistent) (hsize : z.size ≤ NodeId.capacity) :
    z.Worded where
  node id hid := NodeId.toNat_word (Nat.lt_of_lt_of_le hid hsize)
  reference id r c hr hc := NodeId.toNat_word (Nat.lt_of_lt_of_le (hz.references_lt hr c hc) hsize)
  index hash id hid := by
    obtain ⟨w, hw, -⟩ := hz.indexed.mp hid
    exact NodeId.toNat_word (Nat.lt_of_lt_of_le (lt_size_of_weight? hw) hsize)
  next := NodeId.toNat_word

/-- Whatever has been done to a zone, with success or without: every node has its record and its
weight, the parts of the zone agree, no two nodes have the same content, and no two symbols of one
kind and name are shadowed both or neither. Words are enough for a zone of no more nodes than there
are words. -/
theorem consistent_unique_after (hasher : Hasher) (ops : List Operation) :
    let z := after hasher ops
    (∀ id, ((z.record? id).isSome = true ↔ id.index < z.size) ∧
      ((z.weight? id).isSome = true ↔ id.index < z.size)) ∧
    z.Consistent ∧
    (∀ i j w w', z.weight? i = some w → z.weight? j = some w' → w.same w' = true → i = j) ∧
    (∀ i j kind name bound bound' shadowed,
      z.record? i = some (.symbol kind name bound shadowed) →
      z.record? j = some (.symbol kind name bound' shadowed) → i = j) ∧
    (z.size ≤ NodeId.capacity → z.Worded) := by
  intro z
  have hz : z.Consistent := consistent_after hasher ops
  refine ⟨fun id => ⟨isSome_record? z id, isSome_weight? z id⟩, hz, ?_, ?_, hz.worded⟩
  · intro i j w w' hi hj hsame
    exact hz.eq_of_same hi hj hsame
  · intro i j kind name bound bound' shadowed hi hj
    exact hz.eq_of_symbol hi hj

end Zone

end Formulary
