import Formulary.Proofs.Binding.Bare
import Formulary.Zone.Basic

/-!
What the nodes of a zone spell. A node spells an expression in which symbols have no values, and
goes on to do so however the zone grows and whatever its symbols are bound to.
-/

namespace Formulary

namespace Record

/-- The record with no value bound. -/
abbrev outline (r : Record) : Record := r.setBound none

@[simp] theorem children_setBound (r : Record) (bound : Option NodeId) :
    (r.setBound bound).children = r.children := by
  cases r <;> rfl

@[simp] theorem name?_setBound (r : Record) (bound : Option NodeId) :
    (r.setBound bound).name? = r.name? := by
  cases r <;> rfl

@[simp] theorem outline_setBound (r : Record) (bound : Option NodeId) :
    (r.setBound bound).outline = r.outline := by
  cases r <;> rfl

@[simp] theorem isShadowed_setBound (r : Record) (bound : Option NodeId) :
    (r.setBound bound).isShadowed = r.isShadowed := by
  cases r <;> rfl

@[simp] theorem kind_setBound (r : Record) (bound : Option NodeId) :
    (r.setBound bound).kind = r.kind := by
  cases r <;> rfl

@[simp] theorem payload_setBound (r : Record) (bound : Option NodeId) :
    (r.setBound bound).payload = r.payload := by
  cases r with
  | symbol kind name bound shadowed => cases shadowed <;> rfl
  | _ => rfl

theorem bound?_setBound {r : Record} {name : String} (h : r.name? = some name)
    (bound : Option NodeId) : (r.setBound bound).bound? = bound := by
  cases r with
  | symbol => rfl
  | _ => cases h

theorem outline_of_bound?_eq_none {r : Record} (h : r.bound? = none) : r.outline = r := by
  cases r with
  | symbol kind name bound shadowed =>
    obtain rfl : bound = none := h
    rfl
  | _ => rfl

theorem toBits_injective {x y : Float} (h : x.toBits = y.toBits) : x = y := by
  obtain ⟨⟨_, _⟩⟩ := x
  obtain ⟨⟨_, _⟩⟩ := y
  cases h
  rfl

/-- Kind and payload make up the record, but for the value of a symbol. -/
theorem outline_eq_of_payload {r s : Record} (hkind : r.kind = s.kind)
    (hpayload : r.payload = s.payload) : r.outline = s.outline := by
  cases r with
  | number x =>
    cases s with
    | number y =>
      have hbits : x.toBits = y.toBits := by simpa [payload] using hpayload
      rw [toBits_injective hbits]
    | binary op => obtain ⟨_, _ | _⟩ := op <;> cases hkind
    | _ => cases hkind
  | symbol kind name bound shadowed =>
    cases s with
    | symbol kind' name' bound' shadowed' =>
      obtain rfl : kind = kind' := by simpa [Record.kind] using hkind
      cases shadowed <;> cases shadowed' <;> simp_all [payload, setBound]
    | binary op => obtain ⟨_, _ | _⟩ := op <;> cases hkind
    | _ => cases hkind
  | binary op l r =>
    obtain ⟨kind, implicit⟩ := op
    cases s with
    | binary op' l' r' =>
      obtain ⟨kind', implicit'⟩ := op'
      cases implicit <;> cases implicit' <;> simp_all [Record.kind, payload, children, setBound]
    | _ => cases implicit <;> cases hkind
  | nary op ids =>
    cases s with
    | binary op => obtain ⟨_, _ | _⟩ := op <;> cases hkind
    | _ => simp_all [Record.kind, payload, children, setBound]
  | _ => cases s <;> simp_all [Record.kind, payload, children, setBound]

end Record

namespace Zone

/-- The record of a node with no value bound. -/
def outline? (z : Zone) (id : NodeId) : Option Record := (z.record? id).map Record.outline

mutual

/-- Whether a node spells an expression, of which no symbol has a value. -/
def Spells (z : Zone) : NodeId → Expr → Prop
  | id, .number x => z.outline? id = some (.number x)
  | id, .symbol kind name bound =>
    bound = none ∧ z.outline? id = some (.symbol kind name none false)
  | id, .term c a x =>
    ∃ i j k, z.outline? id = some (.term i j k) ∧ Spells z i c ∧ Spells z j a ∧ Spells z k x
  | id, .unary op e => ∃ i, z.outline? id = some (.unary op i) ∧ Spells z i e
  | id, .binary op l r =>
    ∃ i j, z.outline? id = some (.binary op i j) ∧ Spells z i l ∧ Spells z j r
  | id, .nary op es => ∃ ids, z.outline? id = some (.nary op ids) ∧ SpellsAll z ids es
  | id, .call name es => ∃ ids, z.outline? id = some (.call name ids) ∧ SpellsAll z ids es

def SpellsAll (z : Zone) : List NodeId → List Expr → Prop
  | ids, [] => ids = []
  | ids, e :: es => ∃ i is, ids = i :: is ∧ Spells z i e ∧ SpellsAll z is es

end

section Spells

variable {z z' : Zone} {id : NodeId} {ids : List NodeId} {e : Expr} {es : List Expr}

theorem spellsAll_mono (hspells : ∀ e ∈ es, ∀ id, z.Spells id e → z'.Spells id e)
    (h : z.SpellsAll ids es) : z'.SpellsAll ids es := by
  induction es generalizing ids with
  | nil => exact h
  | cons e es ih =>
    obtain ⟨i, is, rfl, he, hes⟩ := h
    exact ⟨i, is, rfl, hspells e (by simp) i he, ih (fun f hf => hspells f (by simp [hf])) hes⟩

/-- What is spelled depends on outlines only, and on no nodes but those that are there. -/
theorem Spells.mono (h : z.Spells id e)
    (houtline : ∀ id r, z.outline? id = some r → z'.outline? id = some r) : z'.Spells id e := by
  induction e generalizing id with
  | number => exact houtline _ _ h
  | symbol => exact ⟨h.1, houtline _ _ h.2⟩
  | term c a x ihc iha ihx =>
    obtain ⟨i, j, k, hr, hc, ha, hx⟩ := h
    exact ⟨i, j, k, houtline _ _ hr, ihc hc, iha ha, ihx hx⟩
  | unary op e ih =>
    obtain ⟨i, hr, he⟩ := h
    exact ⟨i, houtline _ _ hr, ih he⟩
  | binary op l r ihl ihr =>
    obtain ⟨i, j, hr, hl, hr'⟩ := h
    exact ⟨i, j, houtline _ _ hr, ihl hl, ihr hr'⟩
  | nary op es ih | call name es ih =>
    obtain ⟨ids, hr, hes⟩ := h
    exact ⟨ids, houtline _ _ hr, spellsAll_mono (fun e he _ => ih e he) hes⟩

end Spells

end Zone

end Formulary
