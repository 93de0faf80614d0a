import Formulary.Proofs.Zone.Roster
import Formulary.Proofs.Zone.Unfolding

/-!
Hashes are an index and nothing more. As long as no two nodes are found to have one hash, a zone
answers every operation as a list of its records does that is searched from the start; and where two
nodes have one hash, the second one is refused and the first one stays as it is.
-/

namespace Formulary.Zone

/-- Whether a zone has the records of a list, in order. -/
structure Tracks (z : Zone) (c : Roster) : Prop extends z.Consistent where
  acyclic : z.Acyclic
  records_eq : z.records = c.records

section Lookup

variable {z : Zone} {c : Roster} {r s : Record} {id : NodeId}

theorem Tracks.size_eq (h : z.Tracks c) : z.size = c.size := by
  rw [Roster.size, ← h.records_eq]
  simp [size, records]

theorem Tracks.record?_eq (h : z.Tracks c) (id : NodeId) : z.record? id = c.record? id := by
  rw [Roster.record?, ← h.records_eq]
  simp [record?, node?, records]

theorem Tracks.missing?_eq (h : z.Tracks c) (r : Record) : z.missing? r = c.missing? r := by
  rw [missing?, Roster.missing?, h.size_eq]

theorem Tracks.boundOf_eq (h : z.Tracks c) (id : NodeId) : z.boundOf id = c.boundOf id := by
  rw [boundOf, Roster.boundOf, h.record?_eq]

/-- Nodes of one content have one hash. -/
theorem weigh_eq_of_payload (hkind : s.kind = r.kind) (hpayload : s.payload = r.payload) :
    z.weigh s = z.weigh r := by
  rw [weigh, weigh, Weight.of, Weight.of, hkind, hpayload]

theorem same_weigh_iff :
    (z.weigh s).same (z.weigh r) = true ↔ s.kind = r.kind ∧ s.payload = r.payload := by
  simp [Weight.same, weigh, Weight.of]

/-- What is found under a hash is what a search from the start finds. -/
theorem Tracks.scan?_eq_some (h : z.Tracks c) (hlookup : z.lookup (z.weigh r) = .ok (some id)) :
    c.scan? r = some id := by
  obtain ⟨-, w, hw, hsame⟩ := lookup_eq_some hlookup
  obtain ⟨s, hs, rfl⟩ := h.eq_weigh hw
  cases hscan : c.scan? r with
  | none =>
    rw [h.record?_eq] at hs
    exact absurd (same_weigh_iff.mp hsame) (Roster.scan?_eq_none_iff.mp hscan id s hs)
  | some id' =>
    obtain ⟨s', hs', hkind, hpayload⟩ := Roster.record?_of_scan? hscan
    rw [← h.record?_eq] at hs'
    have hsame' : (z.weigh s').same (z.weigh s) = true := by
      obtain ⟨hkind', hpayload'⟩ := same_weigh_iff.mp hsame
      exact same_weigh_iff.mpr ⟨hkind.trans hkind'.symm, hpayload.trans hpayload'.symm⟩
    rw [h.eq_of_same (h.weighed hs') (h.weighed hs) hsame']

theorem Tracks.scan?_eq_none (h : z.Tracks c) (hlookup : z.lookup (z.weigh r) = .ok none) :
    c.scan? r = none := by
  refine Roster.scan?_eq_none_iff.mpr ?_
  rintro id s hs ⟨hkind, hpayload⟩
  rw [← h.record?_eq] at hs
  have hindex := h.indexed.mpr ⟨_, h.weighed hs, rfl⟩
  rw [weigh_eq_of_payload hkind hpayload, h.index_eq_none hlookup] at hindex
  cases hindex

end Lookup

section Steps

variable {α β : Type}

/-- Whether a step on a zone and one on a list do the same, unless the former fails for two nodes
that have one hash. -/
def Follows (step : ZoneM α) (step' : RosterM α) : Prop :=
  ∀ z c, z.Tracks c →
    (∃ hash existing z', step.run z = .error (.hashCollision hash existing) z') ∨
    (∃ err z' c', step.run z = .error err z' ∧ step'.run c = .error err c' ∧ z'.Tracks c') ∨
    ∃ a z' c', step.run z = .ok a z' ∧ step'.run c = .ok a c' ∧ z'.Tracks c'

theorem Follows.pure (a : α) : Follows (pure a) (pure a) :=
  fun z c h => .inr (.inr ⟨a, z, c, rfl, rfl, h⟩)

theorem Follows.bind {step : ZoneM α} {step' : RosterM α} {next : α → ZoneM β}
    {next' : α → RosterM β} (h : Follows step step') (hnext : ∀ a, Follows (next a) (next' a)) :
    Follows (step >>= next) (step' >>= next') := by
  intro z c hz
  rw [EStateM.run_bind, EStateM.run_bind]
  rcases h z c hz with ⟨hash, existing, z', hrun⟩ | ⟨err, z', c', hrun, hrun', hz'⟩ |
    ⟨a, z', c', hrun, hrun', hz'⟩
  · rw [hrun]
    exact .inl ⟨hash, existing, z', rfl⟩
  · rw [hrun, hrun']
    exact .inr (.inl ⟨err, z', c', rfl, rfl, hz'⟩)
  · rw [hrun, hrun']
    exact hnext a z' c' hz'

theorem Tracks.push {z : Zone} {c : Roster} {r : Record} (h : z.Tracks c)
    (hmissing : z.missing? r = none) (hlookup : z.lookup (z.weigh r) = .ok none) :
    (z.push r (z.weigh r)).Tracks (c.push r) where
  toConsistent := h.toConsistent.adds (.push hmissing hlookup)
  acyclic := h.acyclic.adds h.toConsistent (.push hmissing hlookup)
  records_eq := by
    rw [Roster.push, ← h.records_eq]
    simp [records, Zone.push]

theorem run_internWith_roster (adopt : Bool) (r : Record) (c : Roster) :
    (Roster.internWith adopt r).run c =
      match c.missing? r with
      | some id => .error (.unknownNode id) c
      | none =>
        match c.scan? r with
        | some existing =>
          if c.boundOf existing = r.bound? ∨ (adopt ∧ r.bound? = none) then .ok existing c
          else .error (.conflictingBinding (r.name?.getD "")) c
        | none => .ok ⟨c.size⟩ (c.push r) :=
  rfl

theorem follows_internWith (adopt : Bool) (r : Record) :
    Follows (internWith adopt r) (Roster.internWith adopt r) := by
  intro z c h
  rw [run_internWith, run_internWith_roster, ← h.missing?_eq]
  cases hmissing : z.missing? r with
  | some id => exact .inr (.inl ⟨_, z, c, rfl, rfl, h⟩)
  | none =>
    cases hlookup : z.lookup (z.weigh r) with
    | error err =>
      obtain ⟨existing, w, -, -, -, rfl⟩ := h.lookup_eq_error_iff.mp hlookup
      exact .inl ⟨_, existing, z, rfl⟩
    | ok found =>
      cases found with
      | none =>
        rw [h.scan?_eq_none hlookup, ← h.size_eq]
        exact .inr (.inr ⟨_, _, _, rfl, rfl, h.push hmissing hlookup⟩)
      | some id =>
        rw [h.scan?_eq_some hlookup]
        simp only [← h.boundOf_eq]
        by_cases hbound : z.boundOf id = r.bound? ∨ (adopt ∧ r.bound? = none)
        · exact .inr (.inr ⟨id, z, c, if_pos hbound, if_pos hbound, h⟩)
        · exact .inr (.inl ⟨_, z, c, if_neg hbound, if_neg hbound, h⟩)

theorem follows_insertIn (adopt : Bool) (binding : List String) (e : Expr) :
    Follows (insertIn adopt binding e) (insertWith (Roster.internWith adopt) binding e) := by
  rw [insertIn_eq_insertWith]
  exact insertWith_related (R := Follows) Follows.pure Follows.bind (follows_internWith adopt)
    binding e

theorem Tracks.reachesWithin_iff {z : Zone} {c : Roster} {name : String} {depth : Nat} {id : NodeId}
    (h : z.Tracks c) (hdepth : z.rank id ≤ depth) :
    c.reachesWithin name depth id = true ↔ ∃ y, z.LeadsTo id y ∧ z.Names y name := by
  rw [exists_names_iff, h.record?_eq]
  induction depth generalizing id with
  | zero =>
    have hnone : c.record? id = none := by
      rw [← h.record?_eq]
      cases hr : z.record? id with
      | none => rfl
      | some r => exact absurd hdepth (Nat.not_le_of_lt (rank_pos (lt_size_of_record? hr)))
    simp [Roster.reachesWithin, hnone]
  | succ depth ih =>
    rw [Roster.reachesWithin]
    cases hr : c.record? id with
    | none => simp
    | some r =>
      have hrest (x) (hx : x ∈ r.references) :
          c.reachesWithin name depth x = true ↔ ∃ y, z.LeadsTo x y ∧ z.Names y name := by
        have hrefers : z.Refers id x := ⟨r, by rw [h.record?_eq, hr], hx⟩
        have hlt := rank_lt hrefers (acyclic_iff.mp h.acyclic _ _ hrefers)
        rw [exists_names_iff, h.record?_eq]
        exact ih (Nat.le_of_lt_succ (Nat.lt_of_lt_of_le hlt hdepth))
      simp only [Bool.or_eq_true, beq_iff_eq, List.any_eq_true, Option.some.injEq, exists_eq_left']
      refine or_congr_right (exists_congr fun x => and_congr_right (hrest x))

/-- Where nothing leads back, as many steps as there are nodes are enough to find a name. -/
theorem Tracks.reaches_eq {z : Zone} {c : Roster} (h : z.Tracks c) (name : String) (id : NodeId) :
    c.reachesWithin name c.size id = z.reaches id name := by
  rw [Bool.eq_iff_iff, reaches_iff]
  refine h.reachesWithin_iff ?_
  rw [← h.size_eq]
  exact z.rank_le_size id

theorem Tracks.setAll {z : Zone} {c : Roster} {name : String} {bound : Option NodeId}
    (h : z.Tracks c)
    (hbound : ∀ id ∈ bound, id.index < z.size ∧ z.reaches id name = false) :
    (z.setAll name bound).Tracks (c.setAll name bound) where
  toConsistent := h.toConsistent.setAll fun id hid => (hbound id hid).1
  acyclic := h.acyclic.setAll fun id hid => (hbound id hid).2
  records_eq := by
    rw [Roster.setAll, ← h.records_eq]
    simp only [records, Zone.setAll, Array.toList_map, List.map_map]
    congr 1
    funext n
    simp only [Function.comp_apply]
    split <;> rfl

theorem Tracks.places_eq {z : Zone} {c : Roster} (h : z.Tracks c) (name : String) :
    z.places name = c.places name := by
  rw [Roster.places, ← h.records_eq]
  simp [places, records, List.countP_map, Function.comp_def, ← Array.countP_toList]

theorem run_bindValue_roster (name : String) (v : Expr) (c : Roster) :
    (Roster.bindValue name v).run c =
      match (insertWith (Roster.internWith true) [] v).run c with
      | .ok id c' =>
        if c'.reachesWithin name c'.size id then .error (.cyclicBinding name) c'
        else .ok (c'.places name) (c'.setAll name (some id))
      | .error err c' => .error err c' := by
  let next (id : NodeId) : RosterM Nat := fun c =>
    if c.reachesWithin name c.size id then .error (.cyclicBinding name) c
    else .ok (c.places name) (c.setAll name (some id))
  have hbind : (Roster.bindValue name v).run c =
    (insertWith (Roster.internWith true) [] v >>= next).run c := rfl
  rw [hbind, EStateM.run_bind]
  cases (insertWith (Roster.internWith true) [] v).run c <;> rfl

theorem follows_bindValue (name : String) (v : Expr) :
    Follows (bindValue name v) (Roster.bindValue name v) := by
  intro z c h
  rw [run_bindValue, run_bindValue_roster]
  rcases follows_insertIn true [] v z c h with ⟨hash, existing, z', hrun⟩ |
    ⟨err, z', c', hrun, hrun', hz'⟩ | ⟨id, z', c', hrun, hrun', hz'⟩
  · rw [hrun]
    exact .inl ⟨hash, existing, z', rfl⟩
  · rw [hrun, hrun']
    exact .inr (.inl ⟨err, z', c', rfl, rfl, hz'⟩)
  · rw [hrun, hrun']
    simp only [hz'.reaches_eq, ← hz'.places_eq]
    cases hreaches : z'.reaches id name with
    | true => exact .inr (.inl ⟨_, z', c', rfl, rfl, hz'⟩)
    | false =>
      refine .inr (.inr ⟨_, _, _, rfl, rfl, hz'.setAll ?_⟩)
      intro i hi
      obtain rfl : id = i := Option.some.inj hi
      exact ⟨lt_size_of_insertIn hrun, hreaches⟩

end Steps

section Operations

variable {α : Type} {z : Zone} {c : Roster}

theorem outcome_snd (answer : α → Answer) (step : ZoneM α) (z : Zone) :
    (outcome answer (step.run z)).2 = leave step z := by
  unfold outcome leave
  cases step.run z <;> rfl

theorem perform_assign_some (z : Zone) (name : String) (v : Expr) :
    z.perform (.assign name (some v)) = outcome .count ((bindValue name v).run z) := by
  rw [perform, assign]
  cases (bindValue name v).run z <;> rfl

theorem perform_snd (z : Zone) (op : Operation) : (z.perform op).2 = z.apply op := by
  cases op with
  | intern r => exact outcome_snd .node (intern r) z
  | insert e => exact outcome_snd .node (insert e) z
  | assign name value =>
    rw [perform, apply]
    split
    · rename_i hassign
      rw [hassign]
    · rename_i hassign
      rw [hassign]

theorem performAll_snd (z : Zone) (ops : List Operation) :
    (z.performAll ops).2 = z.applyAll ops := by
  induction ops generalizing z with
  | nil => rfl
  | cons op ops ih =>
    rw [performAll, ih, perform_snd]
    rfl

theorem Follows.outcome {step : ZoneM α} {step' : RosterM α} (hstep : Follows step step')
    (answer : α → Answer) (h : z.Tracks c) :
    (outcome answer (step.run z)).1.isCollision = true ∨
      (outcome answer (step.run z)).1 = (outcome answer (step'.run c)).1 ∧
        (outcome answer (step.run z)).2.Tracks (outcome answer (step'.run c)).2 := by
  rcases hstep z c h with ⟨hash, existing, z', hrun⟩ | ⟨err, z', c', hrun, hrun', hz'⟩ |
    ⟨a, z', c', hrun, hrun', hz'⟩
  · rw [hrun]
    exact .inl rfl
  · rw [hrun, hrun']
    exact .inr ⟨rfl, hz'⟩
  · rw [hrun, hrun']
    exact .inr ⟨rfl, hz'⟩

/-- One operation is answered alike, and leaves the same records, unless it finds a collision. -/
theorem Tracks.perform (h : z.Tracks c) (op : Operation) :
    (z.perform op).1.isCollision = true ∨
      (z.perform op).1 = (c.perform op).1 ∧ (z.perform op).2.Tracks (c.perform op).2 := by
  cases op with
  | intern r => exact (follows_internWith false r).outcome .node h
  | insert e => exact (follows_insertIn false [] e).outcome .node h
  | assign name value =>
    cases value with
    | none => exact .inr ⟨congrArg Answer.count (h.places_eq name), h.setAll (by simp)⟩
    | some v =>
      rw [perform_assign_some]
      exact (follows_bindValue name v).outcome .count h

/-- So are many, one after the other. -/
theorem Tracks.performAll (h : z.Tracks c) {ops : List Operation}
    (hops : ∀ a ∈ (z.performAll ops).1, a.isCollision = false) :
    (z.performAll ops).1 = (c.performAll ops).1 ∧
      (z.performAll ops).2.Tracks (c.performAll ops).2 := by
  induction ops generalizing z c with
  | nil => exact ⟨rfl, h⟩
  | cons op ops ih =>
    simp only [Zone.performAll, Roster.performAll, List.forall_mem_cons] at hops ⊢
    rcases h.perform op with hcollision | ⟨hanswer, hz'⟩
    · simp [hops.1] at hcollision
    · obtain ⟨hanswers, hz''⟩ := ih hz' hops.2
      rw [hanswer, hanswers]
      exact ⟨rfl, hz''⟩

theorem tracks_empty (hasher : Hasher) : (empty hasher).Tracks .empty where
  toConsistent := consistent_empty hasher
  acyclic := acyclic_empty hasher
  records_eq := rfl

end Operations

section Trees

variable {z z' : Zone}

theorem build?_eq_of_record? (h : ∀ id, z'.record? id = z.record? id) (depth : Nat) :
    z'.build? depth = z.build? depth := by
  induction depth with
  | zero => rfl
  | succ depth ih =>
    funext id
    rw [build?, build?, h, ih]

/-- Trees are made of records alone. -/
theorem toExpr_eq_of_records (h : z'.records = z.records) (id : NodeId) :
    z'.toExpr id = z.toExpr id := by
  have hbuild (depth : Nat) : z'.build? depth = z.build? depth :=
    build?_eq_of_record? (fun id => by rw [record?_eq_getElem?, record?_eq_getElem?, h]) depth
  simp only [toExpr, ofNode, hbuild, size_eq_length, h]

end Trees

section Collisions

variable {α β : Type} {adopt : Bool} {z z' : Zone} {r : Record} {hash : UInt64} {existing : NodeId}

/-- Whether a record has the hash of a node of another kind or payload. -/
def Collides (z : Zone) (r : Record) (existing : NodeId) : Prop :=
  ∃ s, z.record? existing = some s ∧ z.hashOf existing = (z.weigh r).hash ∧
    ¬ (s.kind = r.kind ∧ s.payload = r.payload)

theorem Consistent.hashOf_of_record? {s : Record} (hz : z.Consistent)
    (hs : z.record? existing = some s) : z.hashOf existing = (z.weigh s).hash := by
  rw [hashOf, hz.weighed hs]

/-- No node has the content of a record that collides with one, for the hash leads to the latter. -/
theorem Collides.ne_of_record? (h : z.Collides r existing) (hz : z.Consistent) {id : NodeId}
    {s : Record} (hs : z.record? id = some s) : ¬ (s.kind = r.kind ∧ s.payload = r.payload) := by
  rintro ⟨hkind, hpayload⟩
  obtain ⟨s', hs', hhash, hdiffers⟩ := h
  rw [hz.hashOf_of_record? hs', ← weigh_eq_of_payload hkind hpayload] at hhash
  have hindex := hz.indexed.mpr ⟨_, hz.weighed hs', hhash⟩
  obtain rfl := Option.some.inj (hindex.symm.trans (hz.indexed.mpr ⟨_, hz.weighed hs, rfl⟩))
  obtain rfl := Option.some.inj (hs.symm.trans hs')
  exact hdiffers ⟨hkind, hpayload⟩

theorem Consistent.lookup_eq_collision_iff (hz : z.Consistent) :
    z.lookup (z.weigh r) = .error (.hashCollision hash existing) ↔
      hash = (z.weigh r).hash ∧ z.Collides r existing := by
  rw [hz.lookup_eq_error_iff]
  constructor
  · rintro ⟨existing', w, hw, hhash, hsame, herr⟩
    obtain ⟨rfl, rfl⟩ := ZoneError.hashCollision.inj herr
    obtain ⟨s, hs, rfl⟩ := hz.eq_weigh hw
    refine ⟨rfl, s, hs, (hz.hashOf_of_record? hs).trans hhash, fun h => ?_⟩
    simp [same_weigh_iff.mpr h] at hsame
  · rintro ⟨rfl, s, hs, hhash, hdiffers⟩
    rw [hz.hashOf_of_record? hs] at hhash
    refine ⟨existing, z.weigh s, hz.weighed hs, hhash, ?_, rfl⟩
    rwa [← Bool.not_eq_true, same_weigh_iff]

/-- Interning a record whose references are there fails for a collision exactly if there is one, and
then does nothing. -/
theorem Consistent.run_internWith_eq_collision_iff (hz : z.Consistent) :
    (internWith adopt r).run z = .error (.hashCollision hash existing) z' ↔
      z' = z ∧ z.missing? r = none ∧ hash = (z.weigh r).hash ∧ z.Collides r existing := by
  rw [run_internWith, ← hz.lookup_eq_collision_iff]
  cases z.missing? r with
  | some id => simp
  | none =>
    cases z.lookup (z.weigh r) with
    | error err => simp [and_comm, eq_comm]
    | ok found =>
      cases found with
      | none => simp
      | some id =>
        simp only [reduceCtorEq, and_false, iff_false]
        split <;> simp

/-- Whether a step fails only where the interning of a record does. -/
def FailsByInterning (adopt : Bool) (step : ZoneM α) : Prop :=
  ∀ z err z', step.run z = .error err z' → ∃ r, (internWith adopt r).run z' = .error err z'

theorem FailsByInterning.bind {step : ZoneM α} {next : α → ZoneM β}
    (h : FailsByInterning adopt step) (hnext : ∀ a, FailsByInterning adopt (next a)) :
    FailsByInterning adopt (step >>= next) := by
  intro z err z' hrun
  rw [EStateM.run_bind] at hrun
  cases hstep : step.run z with
  | error err₁ z₁ =>
    rw [hstep] at hrun
    cases hrun
    exact h z err z' hstep
  | ok a z₁ =>
    rw [hstep] at hrun
    exact hnext a z₁ err z' hrun

theorem failsByInterning_internWith (adopt : Bool) (r : Record) :
    FailsByInterning adopt (internWith adopt r) := by
  intro z err z' hrun
  have hz : z' = z := by
    rcases internWith_cases adopt r z with ⟨err', h⟩ | ⟨id, -, -, h⟩ | ⟨-, -, h⟩
    all_goals cases h.symm.trans hrun
    rfl
  subst hz
  exact ⟨r, hrun⟩

theorem failsByInterning_insertIn (adopt : Bool) (binding : List String) (e : Expr) :
    FailsByInterning adopt (insertIn adopt binding e) := by
  rw [insertIn_eq_insertWith]
  have hpure {α : Type} (a : α) : FailsByInterning adopt (pure a) := by
    intro z err z' hrun
    cases hrun
  exact @insertWith_related ZoneM ZoneM _ _ (internWith adopt) (internWith adopt)
    (fun step _ => FailsByInterning adopt step) hpure FailsByInterning.bind
    (failsByInterning_internWith adopt) binding e

theorem collides_of_run {step : ZoneM α} (hz : z.Consistent) (haccretes : Accreting step)
    (hfails : FailsByInterning adopt step)
    (hrun : step.run z = .error (.hashCollision hash existing) z') :
    z.Extends z' ∧ z'.Consistent ∧ ∃ r, hash = (z'.weigh r).hash ∧ z'.Collides r existing := by
  have haccretes := haccretes z
  rw [leave_of_error hrun] at haccretes
  have hz' := hz.accretes haccretes
  obtain ⟨r, hr⟩ := hfails z _ z' hrun
  obtain ⟨-, -, hcollides⟩ := hz'.run_internWith_eq_collision_iff.mp hr
  exact ⟨haccretes.extends, hz', r, hcollides⟩

theorem run_of_outcome {step : ZoneM α} {answer : α → Answer} {err : ZoneError}
    (hanswer : ∀ a, answer a ≠ .refused err) (h : (outcome answer (step.run z)).1 = .refused err) :
    step.run z = .error err (leave step z) := by
  unfold leave
  cases hrun : step.run z with
  | ok a z' =>
    rw [hrun] at h
    exact absurd h (hanswer a)
  | error err' z' =>
    rw [hrun] at h
    rw [Answer.refused.inj h]

/-- An operation that fails for a collision has found one in the zone that it leaves, where all
nodes are that were there before. -/
theorem collides_of_perform {op : Operation} (hz : z.Consistent)
    (h : (z.perform op).1 = .refused (.hashCollision hash existing)) :
    z.Extends (z.apply op) ∧ (z.apply op).Consistent ∧
      ∃ r, hash = ((z.apply op).weigh r).hash ∧ (z.apply op).Collides r existing := by
  cases op with
  | intern r =>
    exact collides_of_run hz (accreting_internWith false r) (failsByInterning_internWith false r)
      (run_of_outcome (by simp) h)
  | insert e =>
    exact collides_of_run hz (accreting_insertIn false [] e) (failsByInterning_insertIn false [] e)
      (run_of_outcome (by simp) h)
  | assign name value =>
    cases value with
    | none => cases h
    | some v =>
      rw [perform] at h
      rw [apply]
      rcases assign_cases name v z () with ⟨err, z', hrun, hassign⟩ |
        ⟨id, z', -, ⟨-, hassign⟩ | ⟨-, hassign⟩⟩
      · rw [hassign] at h ⊢
        rw [Answer.refused.inj h] at hrun
        exact collides_of_run hz (accreting_insertIn true [] v)
          (failsByInterning_insertIn true [] v) hrun
      · rw [hassign] at h
        cases h
      · rw [hassign] at h
        cases h

/-- Whether no operation of a run fails for a collision. -/
def CollisionFree (hasher : Hasher) (ops : List Operation) : Prop :=
  ∀ a ∈ ((empty hasher).performAll ops).1, a.isCollision = false

/-- Whether a run gives what the list of its records gives that is searched from the start. -/
structure RunsAsRoster (hasher : Hasher) (ops : List Operation) : Prop where
  answers : ((empty hasher).performAll ops).1 = (Roster.empty.performAll ops).1
  records : (after hasher ops).records = (Roster.empty.performAll ops).2.records

/-- Whether it makes no difference to a run which of two hashers is taken. -/
structure RunsAlike (hasher hasher' : Hasher) (ops : List Operation) : Prop where
  answers : ((empty hasher').performAll ops).1 = ((empty hasher).performAll ops).1
  records : (after hasher' ops).records = (after hasher ops).records
  trees : ∀ id, (after hasher' ops).toExpr id = (after hasher ops).toExpr id

/-- What an operation has made of `z` that failed because a record has the hash of a node. -/
structure Collided (z z' : Zone) (hash : UInt64) (existing : NodeId) (r : Record) : Prop where
  /-- All nodes are as they were. -/
  keeps : z.Extends z'
  hash_eq : hash = (z'.weigh r).hash
  collides : z'.Collides r existing
  /-- There is no node for the record. -/
  absent : ∀ id s, z'.record? id = some s → ¬ (s.kind = r.kind ∧ s.payload = r.payload)

/-- What collisions are, and what they change. -/
structure RefusesCollisions (z : Zone) : Prop where
  /-- A record is refused exactly if a node of another kind or payload has its hash. -/
  refused_iff : ∀ adopt r hash existing z',
    (internWith adopt r).run z = .error (.hashCollision hash existing) z' ↔
      z' = z ∧ z'.missing? r = none ∧ hash = (z'.weigh r).hash ∧ z'.Collides r existing
  collided : ∀ op hash existing, (z.perform op).1 = .refused (.hashCollision hash existing) →
    ∃ r, Collided z (z.apply op) hash existing r

theorem Consistent.refusesCollisions (hz : z.Consistent) : z.RefusesCollisions where
  refused_iff adopt r hash existing z' := by
    rw [hz.run_internWith_eq_collision_iff]
    refine and_congr_right fun h => ?_
    rw [h]
  collided op hash existing hop := by
    obtain ⟨hextends, hz', r, hhash, hcollides⟩ := collides_of_perform hz hop
    exact ⟨r, hextends, hhash, hcollides, fun id s => hcollides.ne_of_record? hz'⟩

theorem CollisionFree.runsAsRoster {hasher : Hasher} {ops : List Operation}
    (h : CollisionFree hasher ops) : RunsAsRoster hasher ops := by
  obtain ⟨hanswers, htracks⟩ := (tracks_empty hasher).performAll h
  rw [performAll_snd] at htracks
  exact ⟨hanswers, htracks.records_eq⟩

theorem RunsAsRoster.alike {hasher hasher' : Hasher} {ops : List Operation}
    (h : RunsAsRoster hasher ops) (h' : RunsAsRoster hasher' ops) : RunsAlike hasher hasher' ops :=
  have hrecords := h'.records.trans h.records.symm
  ⟨h'.answers.trans h.answers.symm, hrecords, toExpr_eq_of_records hrecords⟩

/-- Hashes are an index. As long as no operation fails for a collision, a zone gives the answers of
the list of its records that is searched from the start, whatever the hasher is. A record collides
exactly if there is a node with its hash and another kind or payload; then no node is added for it,
and all nodes stay as they were. -/
theorem performAll_eq_roster (hasher : Hasher) (ops : List Operation) :
    (CollisionFree hasher ops → RunsAsRoster hasher ops ∧
      ∀ hasher', CollisionFree hasher' ops → RunsAlike hasher hasher' ops) ∧
    (after hasher ops).RefusesCollisions :=
  ⟨fun h => ⟨h.runsAsRoster, fun _ h' => h.runsAsRoster.alike h'.runsAsRoster⟩,
    (consistent_after hasher ops).refusesCollisions⟩

/-- A binding, a reference to nothing and a conflict, under two hashers; and under a hasher that
tells nothing apart, a collision. -/
theorem performAll_eq_roster_conflict :
    let x : Option Expr → Expr := .symbol .unknown "x"
    let e : Expr := .binaryOf .addition (.number 1) (x none)
    let ops : List Operation :=
      [.insert e, .assign "x" (some (.number 2)), .intern (.unary .paren ⟨9⟩), .insert (x none)]
    ((empty Hasher.structural).performAll ops).1 = [.node ⟨2⟩, .count 1,
        .refused (.unknownNode ⟨9⟩), .refused (.conflictingBinding "x")] ∧
      RunsAsRoster Hasher.structural ops ∧ RunsAlike Hasher.structural Hasher.polynomial ops ∧
      ∃ r, Collided (empty (Hasher.constant 0)) ((empty (Hasher.constant 0)).apply (.insert e))
        0 ⟨0⟩ r := by
  intro x e ops
  obtain ⟨hrun, -⟩ := performAll_eq_roster Hasher.structural ops
  have hfree : CollisionFree Hasher.structural ops := by
    unfold CollisionFree
    decide +kernel
  have hfree' : CollisionFree Hasher.polynomial ops := by
    unfold CollisionFree
    decide +kernel
  obtain ⟨hroster, hothers⟩ := hrun hfree
  obtain ⟨-, hcollision⟩ := performAll_eq_roster (Hasher.constant 0) []
  exact ⟨by decide +kernel, hroster, hothers Hasher.polynomial hfree',
    hcollision.collided (.insert e) 0 ⟨0⟩ (by decide +kernel)⟩

end Collisions

end Formulary.Zone
