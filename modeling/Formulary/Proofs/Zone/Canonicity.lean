import Formulary.Proofs.Zone.Digest

/-!
Which expressions have a zone. One node stands for all symbols of a kind and name that are shadowed,
and one for all that are not, so those symbols must be bound alike. Values are compared by their
nodes; that two places of one value do not lead to two nodes is due to the depth of nesting.
-/

namespace Formulary

namespace Zone

section Scopes

variable {z : Zone} {scope scope' inner : List String} {id id' : NodeId} {e c p : Expr}
  {kind : SymbolKind} {name : String}

/-- Where a value stands matters to its node only as far as its own open symbols are concerned. -/
theorem Represents.rescope {scope scope' : List String} {id : NodeId} {p : Expr}
    (h : z.Represents scope id p) (hscope : ∀ n, p.HasOpen n → (n ∈ scope ↔ n ∈ scope')) :
    z.Represents scope' id p := by
  obtain ⟨r, hr, hdepicts⟩ := represents_iff.mp h
  refine represents_iff.mpr ⟨r, hr, hdepicts.mono ?_ ?_ ?_⟩
  · rintro kind name bound rfl
    exact hscope name (Expr.hasOpen_symbol kind name bound)
  · intro c hc i hi
    exact hi.rescope fun n hn => hscope n (hn.child hc)
  · intro kind name v hp i hi
    have hlt : sizeOf v < sizeOf p := by
      rw [hp]
      exact Expr.sizeOf_value_lt kind name v
    refine hi.rescope fun n hn => ?_
    by_cases hname : n = name
    · simp [hname]
    · have hopen : p.HasOpen n := by
        rw [hp]
        exact hn.value hname
      simp [hname, hscope n hopen]
termination_by sizeOf p
decreasing_by
  · exact Expr.sizeOf_lt_of_mem_children hc
  · exact hlt

/-- Values of one tree that stand in two places of a coherent expression have one node. -/
theorem Represents.eq_of_coherent (he : e.Coherent) (hz : z.Consistent)
    (hp : Expr.Occurs scope (.symbol kind name (some p)) [] e)
    (hp' : Expr.Occurs scope' (.symbol kind name (some p)) [] e)
    (h : z.Represents (name :: scope) id p) (h' : z.Represents (name :: scope') id' p) :
    id = id' := by
  refine (h.rescope fun n hn => ?_).unique h' hz
  by_cases hname : n = name
  · simp [hname]
  · have hscope : n ∈ scope ↔ n ∈ scope' :=
      ⟨he.mem_of_mem hp hp' hn hname, he.mem_of_mem hp' hp hn hname⟩
    simp [hname, hscope]

theorem Represents.exists_of_mem_children (h : z.Represents scope id e) (hc : c ∈ e.children) :
    ∃ i, z.Represents scope i c := by
  obtain ⟨r, -, hr⟩ := represents_iff.mp h
  obtain ⟨i, -, hi⟩ := exists_mem_of_forall₂ (List.Forall₂.flip hr.forall₂_children) hc
  exact ⟨i, hi⟩

/-- A part of an expression has a node where the whole has one. -/
theorem Represents.exists_of_occurs (h : z.Represents scope id e)
    (hp : Expr.Occurs inner p scope e) :
    ∃ i, z.Represents inner i p := by
  induction hp generalizing id with
  | here => exact ⟨id, h⟩
  | child hc _ ih =>
    obtain ⟨i, hi⟩ := h.exists_of_mem_children hc
    exact ih hi
  | value _ ih =>
    obtain ⟨i, -, j, -, hv⟩ := h
    exact ih hv

end Scopes

/-- A zone in which all nodes are those of parts of an expression. -/
structure HasParts (hasher : Hasher) (e : Expr) (z : Zone) : Prop extends z.Consistent where
  hasher_eq : z.hasher = hasher
  parts : ∀ {id r}, z.record? id = some r →
    ∃ scope p, Expr.Occurs scope p [] e ∧ z.Depicts scope r p

section Parts

variable {hasher : Hasher} {z z' : Zone} {scope : List String} {e p : Expr} {r : Record}
  {id : NodeId}

theorem hasParts_empty (hasher : Hasher) (e : Expr) : (empty hasher).HasParts hasher e where
  toConsistent := consistent_empty hasher
  hasher_eq := rfl
  parts {id r} hr := by
    rw [record?_empty] at hr
    cases hr

theorem HasParts.push (hz : z.HasParts hasher e) (hp : Expr.Occurs scope p [] e)
    (hr : z.Depicts scope r p) (hlookup : z.lookup (z.weigh r) = .ok none) :
    (z.push r (z.weigh r)).HasParts hasher e where
  toConsistent := hz.toConsistent.adds (.push hr.missing?_eq_none hlookup)
  hasher_eq := hz.hasher_eq
  parts {id s} hs := by
    rw [record?_push] at hs
    split at hs
    · cases hs
      exact ⟨scope, p, hp, hr.extends (extends_push z r _)⟩
    · obtain ⟨scope', p', hp', hs⟩ := hz.parts hs
      exact ⟨scope', p', hp', hs.extends (extends_push z r _)⟩

theorem HasParts.hash_weigh (hz : z.HasParts hasher e) (hr : z.Depicts scope r p) :
    (z.weigh r).hash = p.digest hasher scope := by
  rw [Expr.digest, ← hz.hasher_eq, ← hr.content_eq hz.toConsistent]
  rfl

theorem Depicts.lt_size_of_mem_children (hr : z.Depicts scope r p) :
    ∀ c ∈ r.children, c.index < z.size :=
  fun c hc => lt_size_of_missing? hr.missing?_eq_none c (List.mem_append_left _ hc)

/-- A hasher that tells the parts of an expression apart lets none of them collide. -/
theorem HasParts.lookup_ne_error (hz : z.HasParts hasher e) (hhasher : hasher.Distinguishes e)
    (hp : Expr.Occurs scope p [] e) (hr : z.Depicts scope r p) (err : ZoneError) :
    z.lookup (z.weigh r) ≠ .error err := by
  unfold lookup
  split
  · simp
  · rename_i existing hindex
    obtain ⟨w, hw, hhash⟩ := hz.indexed.mp hindex
    obtain ⟨s, hs, rfl⟩ := hz.eq_weigh hw
    obtain ⟨scope', p', hp', hs'⟩ := hz.parts hs
    rw [hz.hash_weigh hs', hz.hash_weigh hr] at hhash
    have hcontent := hhasher _ (Expr.mem_occurrences_iff.mpr hp') _
      (Expr.mem_occurrences_iff.mpr hp) hhash
    rw [← hz.hasher_eq, ← hs'.content_eq hz.toConsistent,
      ← hr.content_eq hz.toConsistent] at hcontent
    obtain ⟨hkind, hpayload⟩ := Prod.mk.inj hcontent
    have hsame : (z.weigh s).same (z.weigh r) = true := by
      have hpayload' :=
        hz.payload_eq hs'.lt_size_of_mem_children hr.lt_size_of_mem_children hpayload
      simp [weigh, Weight.of, Weight.same, hkind, hpayload']
    simp [hw, hsame]

/-- Symbols that are given one node in a coherent expression have one value. -/
theorem HasParts.boundOf_eq (hz : z.HasParts hasher e) (he : e.Coherent)
    (hp : Expr.Occurs scope p [] e) (hr : z.Depicts scope r p)
    (hlookup : z.lookup (z.weigh r) = .ok (some id)) : z.boundOf id = r.bound? := by
  obtain ⟨s, hs, houtline⟩ := Option.map_eq_some_iff.mp (hz.outline?_of_lookup hlookup)
  rw [boundOf, hs, Option.bind_some]
  obtain ⟨scope', p', hp', hs'⟩ := hz.parts hs
  cases hr with
  | symbol kind name hi =>
    cases hs' with
    | symbol kind' name' hi' =>
      simp only [Record.outline, Record.setBound, Record.symbol.injEq] at houtline
      obtain ⟨rfl, rfl, -, hshadowed⟩ := houtline
      obtain rfl := he.bound_eq hp' hp (decide_eq_decide.mp hshadowed)
      rename_i bound
      cases bound with
      | none => exact Eq.trans hi' (Eq.symm hi)
      | some v =>
        obtain ⟨j, rfl, hv⟩ := hi
        obtain ⟨j', rfl, hv'⟩ := hi'
        exact congrArg some (hv'.eq_of_coherent he hz.toConsistent hp' hp hv)
    | _ => cases houtline
  | _ =>
    cases hs' with
    | symbol => cases houtline
    | _ => rfl

end Parts

/-- Whether a step succeeds and adds nodes of parts of an expression only, or else fails with a
conflict, which a coherent expression does not have. -/
def Settles {α : Type} (hasher : Hasher) (e : Expr) (z : Zone) (step : ZoneM α) : Prop :=
  (∃ a z', step.run z = .ok a z' ∧ z'.HasParts hasher e) ∨
    ∃ name z', step.run z = .error (.conflictingBinding name) z' ∧ ¬ e.Coherent

section Settles

variable {α β : Type} {hasher : Hasher} {z : Zone} {scope : List String} {e p : Expr} {r : Record}

theorem Settles.pure (hz : z.HasParts hasher e) (a : α) : Settles hasher e z (pure a) :=
  .inl ⟨a, z, rfl, hz⟩

theorem Settles.bind {step : ZoneM α} {next : α → ZoneM β} (h : Settles hasher e z step)
    (hnext : ∀ a z', step.run z = .ok a z' → z'.HasParts hasher e →
      Settles hasher e z' (next a)) :
    Settles hasher e z (step >>= next) := by
  unfold Settles
  rw [EStateM.run_bind]
  rcases h with ⟨a, z', hrun, hz'⟩ | ⟨name, z', hrun, he⟩
  · rw [hrun]
    exact hnext a z' hrun hz'
  · rw [hrun]
    exact .inr ⟨name, z', rfl, he⟩

theorem settles_internWith (hz : z.HasParts hasher e) (hhasher : hasher.Distinguishes e)
    (hp : Expr.Occurs scope p [] e) (hr : z.Depicts scope r p) :
    Settles hasher e z (internWith false r) := by
  have hne := hz.lookup_ne_error hhasher hp hr
  have hpush := hz.push hp hr
  unfold Settles
  rw [run_internWith, hr.missing?_eq_none]
  cases hlookup : z.lookup (z.weigh r) with
  | error err => exact absurd hlookup (hne err)
  | ok found =>
    cases found with
    | none => exact .inl ⟨_, _, rfl, hpush hlookup⟩
    | some id =>
      by_cases hsame : z.boundOf id = r.bound?
      · exact .inl ⟨id, z, by simp [hsame], hz⟩
      · exact .inr ⟨r.name?.getD "", z, by simp [hsame],
          fun he => hsame (hz.boundOf_eq he hp hr hlookup)⟩

theorem settles_insertBound {bound : Option Expr}
    (hinsert : ∀ v ∈ bound, Settles hasher e z (insertIn false scope v))
    (hz : z.HasParts hasher e) : Settles hasher e z (insertBound false scope bound) := by
  cases bound with
  | none => exact .pure hz none
  | some v => exact (hinsert v rfl).bind fun id z' _ hz' => .pure hz' (some id)

theorem settles_insertList {es : List Expr}
    (hinsert : ∀ p ∈ es, ∀ z : Zone, z.HasParts hasher e →
      Settles hasher e z (insertIn false scope p))
    (hz : z.HasParts hasher e) : Settles hasher e z (insertList false scope es) := by
  induction es generalizing z with
  | nil => exact .pure hz []
  | cons p es ih =>
    refine (hinsert p (by simp) z hz).bind fun id z₁ _ hz₁ => ?_
    refine (ih (fun f hf => hinsert f (by simp [hf])) hz₁).bind fun ids z₂ _ hz₂ => ?_
    exact .pure hz₂ (id :: ids)

theorem settles_insertIn (hhasher : hasher.Distinguishes e) (hz : z.HasParts hasher e)
    (hp : Expr.Occurs scope p [] e) : Settles hasher e z (insertIn false scope p) := by
  induction p generalizing z scope with
  | number x => exact settles_internWith hz hhasher hp (.number x)
  | symbol kind name bound ih =>
    have hbound : Settles hasher e z (insertBound false (name :: scope) bound) := by
      refine settles_insertBound (fun v hv => ih v hv hz ?_) hz
      obtain rfl := hv
      exact (Expr.Occurs.value .here).trans hp
    refine hbound.bind fun i z₁ hi hz₁ => ?_
    have hi := represents_insertBound (fun _ _ _ _ _ => represents_insertIn) hz.toConsistent hi
    exact settles_internWith hz₁ hhasher hp (.symbol kind name hi)
  | term c a x ihc iha ihx =>
    refine (ihc hz (hp.of_mem_children (by simp [Expr.children]))).bind fun i z₁ hi hz₁ => ?_
    refine (iha hz₁ (hp.of_mem_children (by simp [Expr.children]))).bind fun j z₂ hj hz₂ => ?_
    refine (ihx hz₂ (hp.of_mem_children (by simp [Expr.children]))).bind fun k z₃ hk hz₃ => ?_
    obtain ⟨h₁₂, -⟩ := hz₁.toConsistent.step (accreting_insertIn _ _ _) hj
    obtain ⟨h₂₃, -⟩ := hz₂.toConsistent.step (accreting_insertIn _ _ _) hk
    have hi := (represents_insertIn hz.toConsistent hi).extends (h₁₂.trans h₂₃)
    have hj := (represents_insertIn hz₁.toConsistent hj).extends h₂₃
    have hk := represents_insertIn hz₂.toConsistent hk
    exact settles_internWith hz₃ hhasher hp (.term hi hj hk)
  | unary op q ih =>
    refine (ih hz (hp.of_mem_children (by simp [Expr.children]))).bind fun i z₁ hi hz₁ => ?_
    have hi := represents_insertIn hz.toConsistent hi
    exact settles_internWith hz₁ hhasher hp (.unary op hi)
  | binary op l r ihl ihr =>
    refine (ihl hz (hp.of_mem_children (by simp [Expr.children]))).bind fun i z₁ hi hz₁ => ?_
    refine (ihr hz₁ (hp.of_mem_children (by simp [Expr.children]))).bind fun j z₂ hj hz₂ => ?_
    obtain ⟨h₁₂, -⟩ := hz₁.toConsistent.step (accreting_insertIn _ _ _) hj
    have hi := (represents_insertIn hz.toConsistent hi).extends h₁₂
    have hj := represents_insertIn hz₁.toConsistent hj
    exact settles_internWith hz₂ hhasher hp (.binary op hi hj)
  | nary op es ih =>
    refine (settles_insertList (fun q hq z hz => ih q hq hz (hp.of_mem_children hq)) hz).bind
      fun ids z₁ hids hz₁ => ?_
    have hids := represents_insertList (fun _ _ _ _ _ => represents_insertIn) hz.toConsistent hids
    exact settles_internWith hz₁ hhasher hp (.nary op hids)
  | call name es ih =>
    refine (settles_insertList (fun q hq z hz => ih q hq hz (hp.of_mem_children hq)) hz).bind
      fun ids z₁ hids hz₁ => ?_
    have hids := represents_insertList (fun _ _ _ _ _ => represents_insertIn) hz.toConsistent hids
    exact settles_internWith hz₁ hhasher hp (.call name hids)

end Settles

section Coherent

variable {z : Zone} {scope scope' : List String} {e : Expr} {bound bound' : Option Expr}

/-- A node stands for one value only, wherever it does. -/
theorem eq_of_representsBound {i : Option NodeId} (hz : z.Consistent) (hacyclic : z.Acyclic)
    (h : z.RepresentsBound scope i bound) (h' : z.RepresentsBound scope' i bound') :
    bound = bound' := by
  cases bound with
  | none =>
    obtain rfl := h
    cases bound' with
    | none => rfl
    | some v' =>
      obtain ⟨j, hj, -⟩ := h'
      cases hj
  | some v =>
    obtain ⟨j, rfl, hv⟩ := h
    cases bound' with
    | none => cases h'
    | some v' =>
      obtain ⟨j', hj', hv'⟩ := h'
      obtain rfl := Option.some.inj hj'
      rw [hv'.eq_of_build? (hv.build?_eq hz hacyclic).2]

/-- In an expression that has a node, one node stands for all symbols of one name and one shadow
mark. -/
theorem Represents.coherent {id : NodeId} (h : z.Represents [] id e) (hz : z.Consistent)
    (hacyclic : z.Acyclic) (hkind : e.OneKind) : e.Coherent := by
  intro u hu u' hu' hname hshadowed
  obtain ⟨scope, hscope, hsymbol⟩ := Expr.exists_occurs_of_mem_uses hu
  obtain ⟨scope', hscope', hsymbol'⟩ := Expr.exists_occurs_of_mem_uses hu'
  obtain ⟨i, b, hi, hb⟩ := h.exists_of_occurs hsymbol
  obtain ⟨i', b', hi', hb'⟩ := h.exists_of_occurs hsymbol'
  rw [← hscope] at hi
  rw [← hscope', ← hkind u hu u' hu' hname, ← hname, ← hshadowed] at hi'
  obtain rfl := hz.eq_of_symbol hi hi'
  cases hi.symm.trans hi'
  exact eq_of_representsBound hz hacyclic hb hb'

end Coherent

end Zone

/-- Which expressions a zone takes in, where each name has one kind and the hasher tells the nodes
apart: those in which all symbols of a name that stand in a value of this name are bound alike, and
all that do not. The others are refused for a conflict. -/
theorem insert_isOk_iff_coherent (hasher : Hasher) (e : Expr) (hkind : e.OneKind)
    (hhasher : hasher.Distinguishes e) :
    ((∃ id z, (Zone.insert e).run (.empty hasher) = .ok id z) ↔ e.Coherent) ∧
      (¬ e.Coherent →
        ∃ name z, (Zone.insert e).run (.empty hasher) = .error (.conflictingBinding name) z) := by
  have hsettles := Zone.settles_insertIn hhasher (Zone.hasParts_empty hasher e) .here
  have hcoherent : (∃ id z, (Zone.insert e).run (.empty hasher) = .ok id z) → e.Coherent := by
    rintro ⟨id, z, hrun⟩
    have hinsert : (Zone.insert e).run (Zone.after hasher []) = .ok id z := hrun
    obtain ⟨hz, hacyclic, he⟩ := Zone.represents_of_insert hinsert
    exact he.coherent hz hacyclic hkind
  rcases hsettles with ⟨id, z, hrun, -⟩ | ⟨name, z, hrun, hconflict⟩
  · have he := hcoherent ⟨id, z, hrun⟩
    exact ⟨iff_of_true ⟨id, z, hrun⟩ he, fun hconflict => absurd he hconflict⟩
  · exact ⟨⟨hcoherent, fun he => absurd he hconflict⟩, fun _ => ⟨name, z, hrun⟩⟩

/-- The inner `x` is the same in both places, also where it is in the value of `y`; and bound to two
numbers it has no node. -/
theorem insert_isOk_iff_coherent_nested :
    let a : Expr := .symbol .coefficient "a" none
    let x : Option Expr → Expr := .symbol .unknown "x"
    let e := x (some (.binaryOf .addition (x none) a))
    let nested := Expr.binaryOf .addition e (.symbol .unknown "y" (some e))
    let split := Expr.binaryOf .addition (x (some (.number 1))) (x (some (.number 2)))
    (∃ id z, (Zone.insert nested).run (.empty Hasher.structural) = .ok id z) ∧
      ∃ name z,
        (Zone.insert split).run (.empty Hasher.structural) =
          .error (.conflictingBinding name) z := by
  intro a x e nested split
  have hnested := insert_isOk_iff_coherent Hasher.structural nested (by decide +kernel)
    (by decide +kernel)
  have hsplit := insert_isOk_iff_coherent Hasher.structural split (by decide +kernel)
    (by decide +kernel)
  exact ⟨hnested.1.mpr (by decide +kernel), hsplit.2 (by decide +kernel)⟩

end Formulary
