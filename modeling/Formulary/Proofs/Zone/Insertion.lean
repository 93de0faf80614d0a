import Formulary.Proofs.Zone.Spelling

/-!
Insertion of expressions into a zone. Every step only adds nodes, whether it succeeds or not, and
the node that an expression without values is given spells this expression.
-/

namespace Formulary.Zone

/-- The shape of a zone to which no values have been given but whole nodes: weights tell the
records, children come before their parents, and no symbol is shadowed. -/
structure Regular (z : Zone) : Prop where
  weighed : ∀ id n, z.node? id = some n →
    n.weight.kind = n.record.kind ∧ n.weight.payload = n.record.payload
  children_lt : ∀ id r, z.record? id = some r → ∀ c ∈ r.children, c.index < id.index
  unshadowed : ∀ id r, z.record? id = some r → r.isShadowed = false

/-- A zone that has all nodes of another one as they were, and new ones without values. -/
structure Grows (z z' : Zone) : Prop where
  size_le : z.size ≤ z'.size
  old : ∀ id : NodeId, id.index < z.size → z'.record? id = z.record? id
  fresh : ∀ id r, z.size ≤ id.index → z'.record? id = some r → r.bound? = none

section Growth

variable {z z₁ z₂ : Zone} {id : NodeId} {r : Record}

theorem record?_eq_some_iff :
    z.record? id = some r ↔ ∃ n, z.node? id = some n ∧ n.record = r := by
  simp [record?]

theorem lt_size_of_record? (h : z.record? id = some r) : id.index < z.size := by
  obtain ⟨n, hn, -⟩ := record?_eq_some_iff.mp h
  obtain ⟨hlt, -⟩ := Array.getElem?_eq_some_iff.mp hn
  exact hlt

theorem Grows.refl (z : Zone) : z.Grows z := by
  refine ⟨Nat.le_refl _, fun _ _ => rfl, ?_⟩
  intro id r hle hr
  exact absurd (lt_size_of_record? hr) (Nat.not_lt_of_le hle)

theorem Grows.trans (h : z.Grows z₁) (h' : z₁.Grows z₂) : z.Grows z₂ := by
  refine ⟨Nat.le_trans h.size_le h'.size_le, ?_, ?_⟩
  · intro id hid
    rw [h'.old id (Nat.lt_of_lt_of_le hid h.size_le), h.old id hid]
  · intro id r hle hr
    by_cases hid : id.index < z₁.size
    · rw [h'.old id hid] at hr
      exact h.fresh id r hle hr
    · exact h'.fresh id r (Nat.le_of_not_lt hid) hr

theorem Grows.record? (h : z.Grows z₁) (hr : z.record? id = some r) : z₁.record? id = some r := by
  rw [h.old id (lt_size_of_record? hr), hr]

theorem Grows.outline? (h : z.Grows z₁) (hr : z.outline? id = some r) :
    z₁.outline? id = some r := by
  obtain ⟨r', hr', rfl⟩ := Option.map_eq_some_iff.mp hr
  exact Option.map_eq_some_iff.mpr ⟨r', h.record? hr', rfl⟩

end Growth

/-- Whatever a step does to a zone, the zone keeps its nodes; and if the step succeeds, its result
is as said, from then on. -/
def InsertsAt {α : Type} (z : Zone) (step : ZoneM α) (post : Zone → α → Prop) : Prop :=
  match step.run z with
  | .ok a z' => z.Grows z' ∧ z'.Regular ∧ ∀ z'', z'.Grows z'' → post z'' a
  | .error _ z' => z.Grows z' ∧ z'.Regular

namespace InsertsAt

variable {α β : Type} {z : Zone} {step : ZoneM α} {next : α → ZoneM β} {post : Zone → α → Prop}
  {post' : Zone → β → Prop}

theorem pure {a : α} (hz : z.Regular) (h : ∀ z', z.Grows z' → post z' a) :
    InsertsAt z (pure a) post :=
  ⟨.refl z, hz, h⟩

theorem bind (h : InsertsAt z step post)
    (hnext : ∀ a z', z.Grows z' → z'.Regular → (∀ z'', z'.Grows z'' → post z'' a) →
      InsertsAt z' (next a) post') :
    InsertsAt z (step >>= next) post' := by
  unfold InsertsAt at h ⊢
  rw [EStateM.run_bind]
  cases hrun : step.run z with
  | error err z' =>
    rw [hrun] at h
    exact h
  | ok a z' =>
    rw [hrun] at h
    obtain ⟨hgrows, hregular, hpost⟩ := h
    have hafter := hnext a z' hgrows hregular hpost
    unfold InsertsAt at hafter
    simp only
    split
    · rename_i b z'' hb
      rw [hb] at hafter
      exact ⟨hgrows.trans hafter.1, hafter.2⟩
    · rename_i err z'' hb
      rw [hb] at hafter
      exact ⟨hgrows.trans hafter.1, hafter.2⟩

/-- What holds of a result may draw on what holds of all zones that this one grows into. -/
theorem after {post' : Zone → α → Prop} (h : InsertsAt z step post)
    (himp : ∀ z' a, z.Grows z' → post z' a → post' z' a) : InsertsAt z step post' := by
  unfold InsertsAt at h ⊢
  split
  · rename_i a z' hrun
    rw [hrun] at h
    obtain ⟨hgrows, hregular, hpost⟩ := h
    exact ⟨hgrows, hregular, fun z'' h'' => himp z'' a (hgrows.trans h'') (hpost z'' h'')⟩
  · rename_i err z' hrun
    rw [hrun] at h
    exact h

end InsertsAt

section Insert

variable {z : Zone} {id : NodeId} {r : Record} {w : Weight}

theorem node?_push (id : NodeId) :
    (z.push r w).node? id = if id.index = z.size then some ⟨r, w⟩ else z.node? id := by
  rw [node?, push, Array.getElem?_push]
  rfl

theorem record?_push (id : NodeId) :
    (z.push r w).record? id = if id.index = z.size then some r else z.record? id := by
  rw [record?, node?_push]
  split <;> rfl

theorem lt_size_of_missing? (h : z.missing? r = none) : ∀ id ∈ r.references, id.index < z.size := by
  intro id hid
  simpa using List.find?_eq_none.mp h id hid

theorem grows_push (hr : r.bound? = none) : z.Grows (z.push r w) := by
  refine ⟨by simp [size, push], ?_, ?_⟩
  · intro id hid
    rw [record?_push, if_neg (Nat.ne_of_lt hid)]
  · intro id s hle hs
    rw [record?_push] at hs
    split at hs
    · cases hs
      exact hr
    · exact absurd (lt_size_of_record? hs) (Nat.not_lt_of_le hle)

theorem Regular.push (h : z.Regular) (hmissing : z.missing? r = none)
    (hr : r.isShadowed = false) : (z.push r (z.weigh r)).Regular := by
  constructor
  · intro id n hn
    rw [node?_push] at hn
    split at hn
    · cases hn
      exact ⟨rfl, rfl⟩
    · exact h.weighed id n hn
  · intro id s hs
    rw [record?_push] at hs
    split at hs
    · rename_i hid
      cases hs
      intro c hc
      rw [hid]
      exact lt_size_of_missing? hmissing c (List.mem_append_left _ hc)
    · exact h.children_lt id s hs
  · intro id s hs
    rw [record?_push] at hs
    split at hs
    · cases hs
      exact hr
    · exact h.unshadowed id s hs

theorem lookup_eq_some (h : z.lookup w = .ok (some id)) :
    z.index[w.hash]? = some id ∧ ∃ w', z.weight? id = some w' ∧ w'.same w = true := by
  unfold lookup at h
  split at h
  · cases h
  · rename_i existing hindex
    split at h
    · cases h
    · rename_i w' hw'
      split at h
      · rename_i hsame
        cases h
        exact ⟨hindex, w', hw', hsame⟩
      · cases h

theorem lt_size_of_weight? (h : z.weight? id = some w) : id.index < z.size := by
  obtain ⟨n, hn, -⟩ := Option.map_eq_some_iff.mp h
  obtain ⟨hlt, -⟩ := Array.getElem?_eq_some_iff.mp hn
  exact hlt

/-- What is found under a weight has the outline of the record that was weighed. -/
theorem Regular.outline?_of_lookup (h : z.Regular)
    (hlookup : z.lookup (z.weigh r) = .ok (some id)) : z.outline? id = some r.outline := by
  obtain ⟨-, w, hw, hsame⟩ := lookup_eq_some hlookup
  obtain ⟨n, hn, rfl⟩ := Option.map_eq_some_iff.mp hw
  obtain ⟨hkind, hpayload⟩ := h.weighed id n hn
  simp only [Weight.same, Bool.and_eq_true, beq_iff_eq] at hsame
  have hrecord : z.record? id = some n.record := record?_eq_some_iff.mpr ⟨n, hn, rfl⟩
  rw [outline?, hrecord, Option.map_some,
    Record.outline_eq_of_payload (hkind.symm.trans hsame.1) (hpayload.symm.trans hsame.2)]

theorem run_internWith (adopt : Bool) (r : Record) (z : Zone) : (internWith adopt r).run z =
    match z.missing? r with
    | some id => .error (.unknownNode id) z
    | none =>
      match z.lookup (z.weigh r) with
      | .error e => .error e z
      | .ok (some existing) =>
        if z.boundOf existing = r.bound? ∨ (adopt ∧ r.bound? = none) then .ok existing z
        else .error (.conflictingBinding (r.name?.getD "")) z
      | .ok none => .ok ⟨z.size⟩ (z.push r (z.weigh r)) :=
  rfl

/-- Interning fails, finds a node that is bound alike or whose value is adopted, or makes one. -/
theorem internWith_cases (adopt : Bool) (r : Record) (z : Zone) :
    (∃ err, (internWith adopt r).run z = .error err z) ∨
      (∃ id, z.lookup (z.weigh r) = .ok (some id) ∧
        (z.boundOf id = r.bound? ∨ (adopt ∧ r.bound? = none)) ∧
        (internWith adopt r).run z = .ok id z) ∨
      z.missing? r = none ∧ z.lookup (z.weigh r) = .ok none ∧
        (internWith adopt r).run z = .ok ⟨z.size⟩ (z.push r (z.weigh r)) := by
  rw [run_internWith]
  cases hmissing : z.missing? r with
  | some id => exact .inl ⟨.unknownNode id, rfl⟩
  | none =>
    cases hlookup : z.lookup (z.weigh r) with
    | error err => exact .inl ⟨err, rfl⟩
    | ok found =>
      cases found with
      | none => exact .inr (.inr ⟨rfl, rfl, rfl⟩)
      | some id =>
        by_cases hbound : z.boundOf id = r.bound? ∨ (adopt ∧ r.bound? = none)
        · exact .inr (.inl ⟨id, rfl, hbound, if_pos hbound⟩)
        · exact .inl ⟨_, if_neg hbound⟩

/-- A record without a value is given a node that has its outline. -/
theorem insertsAt_internWith (adopt : Bool) (hz : z.Regular) (hbound : r.bound? = none)
    (hr : r.isShadowed = false) :
    InsertsAt z (internWith adopt r) fun z' id => z'.outline? id = some r := by
  have houtline := Record.outline_of_bound?_eq_none hbound
  unfold InsertsAt
  rcases internWith_cases adopt r z with
    ⟨err, hrun⟩ | ⟨id, hlookup, -, hrun⟩ | ⟨hmissing, -, hrun⟩
  · rw [hrun]
    exact ⟨.refl z, hz⟩
  · rw [hrun]
    have hid := hz.outline?_of_lookup hlookup
    rw [houtline] at hid
    exact ⟨.refl z, hz, fun z'' hgrows => hgrows.outline? hid⟩
  · rw [hrun]
    refine ⟨grows_push hbound, hz.push hmissing hr, fun z'' hgrows => hgrows.outline? ?_⟩
    rw [outline?, record?_push, if_pos rfl, Option.map_some, houtline]

/-- Expressions without values are given nodes that spell them. -/
theorem insertsAt_insertList (adopt : Bool) {es : List Expr}
    (hinsert : ∀ e ∈ es, ∀ z : Zone, z.Regular →
      InsertsAt z (insertIn adopt [] e) fun z' id => z'.Spells id e) (hz : z.Regular) :
    InsertsAt z (insertList adopt [] es) fun z' ids => z'.SpellsAll ids es := by
  induction es generalizing z with
  | nil => exact .pure hz fun _ _ => rfl
  | cons e es ih =>
    refine (hinsert e (by simp) z hz).bind fun id z₁ _ hz₁ he => ?_
    refine (ih (fun f hf => hinsert f (by simp [hf])) hz₁).bind fun ids z₂ h₁₂ hz₂ hes => ?_
    exact .pure hz₂ fun z' h => ⟨id, ids, rfl, he z' (h₁₂.trans h), hes z' h⟩

theorem insertsAt_insertIn (adopt : Bool) {e : Expr} (he : e.isFree = true) (hz : z.Regular) :
    InsertsAt z (insertIn adopt [] e) fun z' id => z'.Spells id e := by
  induction e generalizing z with
  | number x => exact insertsAt_internWith adopt hz rfl rfl
  | symbol kind name bound =>
    obtain rfl := Option.isNone_iff_eq_none.mp he
    have hnone : InsertsAt z (insertBound adopt [name] none) fun _ bound => bound = none :=
      .pure hz fun _ _ => rfl
    refine hnone.bind fun bound z₁ _ hz₁ hbound => ?_
    obtain rfl := hbound z₁ (.refl z₁)
    exact (insertsAt_internWith adopt hz₁ rfl rfl).after fun z' id _ h => ⟨rfl, h⟩
  | term c a x ihc iha ihx =>
    simp only [Expr.isFree, Bool.and_eq_true] at he
    refine (ihc he.1.1 hz).bind fun i z₁ _ hz₁ hc => ?_
    refine (iha he.1.2 hz₁).bind fun j z₂ h₁₂ hz₂ ha => ?_
    refine (ihx he.2 hz₂).bind fun k z₃ h₂₃ hz₃ hx => ?_
    refine (insertsAt_internWith adopt hz₃ rfl rfl).after fun z' id h hr => ?_
    exact ⟨i, j, k, hr, hc z' ((h₁₂.trans h₂₃).trans h), ha z' (h₂₃.trans h), hx z' h⟩
  | unary op e ih =>
    refine (ih he hz).bind fun i z₁ _ hz₁ he => ?_
    exact (insertsAt_internWith adopt hz₁ rfl rfl).after fun z' id h hr => ⟨i, hr, he z' h⟩
  | binary op l r ihl ihr =>
    simp only [Expr.isFree, Bool.and_eq_true] at he
    refine (ihl he.1 hz).bind fun i z₁ _ hz₁ hl => ?_
    refine (ihr he.2 hz₁).bind fun j z₂ h₁₂ hz₂ hr => ?_
    refine (insertsAt_internWith adopt hz₂ rfl rfl).after fun z' id h hop => ?_
    exact ⟨i, j, hop, hl z' (h₁₂.trans h), hr z' h⟩
  | nary op es ih | call name es ih =>
    simp only [Expr.isFree, Expr.areFree_iff] at he
    refine (insertsAt_insertList adopt (fun e hmem z hz => ih e hmem (he e hmem) hz) hz).bind
      fun ids z₁ _ hz₁ hes => ?_
    exact (insertsAt_internWith adopt hz₁ rfl rfl).after fun z' id h hr => ⟨ids, hr, hes z' h⟩

end Insert

end Formulary.Zone
