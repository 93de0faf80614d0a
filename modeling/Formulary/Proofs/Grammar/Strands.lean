import Formulary.Proofs.Text.Writing

/-!
Operands with operators between them. Such a token list is a phrase whichever operators they are,
and however tightly these bind: an operator goes into the phrase before it as far as it binds more
tightly than the operators there.
-/

namespace Formulary

/-- The weakest operator that may be put after a phrase, followed by an operand. -/
def Phrase.floor : Phrase → Level
  | .plain level | .signed level => level
  | .elements => .addition

theorem Phrase.floor_right {level : Level} (h : level ≠ .atom) :
    (Phrase.right level).floor = level.next := by
  revert h
  cases level <;> decide

theorem Phrase.floor_inner (level : Level) : (Phrase.inner level).floor = level.next := by
  cases level <;> rfl

theorem Level.next_le_of_lt {level k : Level} (h : level < k) : level.next ≤ k := by
  revert h
  cases level <;> cases k <;> decide

section Strands

variable {ts us : List Token} {e r : Expr} {op : Token} {level l : Level} {kind : BinaryKind}

namespace Derives

/-- Signs may be put before whatever binds more tightly. -/
theorem weaken_signed (h : Derives (.signed l) ts e) (hle : level ≤ l) :
    Derives (.signed level) ts e := by
  generalize hp : Phrase.signed l = p at h
  induction h with
  | sign hkind hop _ ih =>
    cases hp
    exact .sign hkind hop (ih rfl)
  | unsigned h =>
    cases hp
    exact .unsigned (h.weaken hle)
  | _ => cases hp

/-- Signs before an atom stand to the right of any operator. -/
theorem right_of_signed (h : Derives (.signed .atom) us r) (level : Level) :
    Derives (.right level) us r := by
  have hplain : Derives (.plain .subtraction) us r :=
    .inner (by decide) (h.weaken_signed (by decide))
  cases level with
  | equality | sequence | addition => exact hplain.weaken (by decide)
  | _ => exact h.weaken_signed (by decide)

/-- A phrase goes on with an operator and an operand. -/
theorem extend {p : Phrase} (h : Derives p ts e) (hop : op.operator? = some kind.level)
    (hr : Derives (.signed .atom) us r) (hfloor : p.floor ≤ kind.level) :
    ∃ t, Derives p (ts ++ op :: us) t := by
  have hright : ∀ level, Derives (.right level) us r := hr.right_of_signed
  induction h with
  | @operation l _ _ _ _ _ _ hkind hop' hl hr' _ ihr =>
    -- An operator that binds no more tightly takes the whole phrase, any other its right operand.
    by_cases heq : l = kind.level
    · subst heq
      exact ⟨_, .operation kind.binary?_level hop (.operation hkind hop' hl hr') (hright _)⟩
    · have hlt : l < kind.level := Level.lt_of_le_of_ne hfloor heq
      have hne : l ≠ .atom := by
        rintro rfl
        cases hkind
      obtain ⟨t, ht⟩ := ihr (Phrase.floor_right hne ▸ Level.next_le_of_lt hlt)
      rw [List.append_assoc]
      exact ⟨_, .operation hkind hop' hl ht⟩
  | pair hcomma hl _ _ ihr =>
    obtain ⟨t, ht⟩ := ihr hfloor
    rw [List.append_assoc]
    exact ⟨_, .pair hcomma hl ht⟩
  | more hcomma hes _ _ ihr =>
    obtain ⟨t, ht⟩ := ihr hfloor
    rw [List.append_assoc]
    exact ⟨_, .more hcomma hes ht⟩
  | elements _ ih =>
    have hfloor' : Level.addition ≤ kind.level := by
      revert hfloor
      cases kind <;> decide
    obtain ⟨t, ht⟩ := ih hfloor'
    exact ⟨t, .elements ht⟩
  | @inner l _ _ hne h ih =>
    by_cases heq : l = kind.level
    · subst heq
      exact ⟨_, .operation kind.binary?_level hop (.inner hne h) (hright _)⟩
    · have hlt : l < kind.level := Level.lt_of_le_of_ne hfloor heq
      obtain ⟨t, ht⟩ := ih (Phrase.floor_inner l ▸ Level.next_le_of_lt hlt)
      exact ⟨t, .inner hne ht⟩
  | sign hsign hop' _ ih =>
    obtain ⟨t, ht⟩ := ih hfloor
    exact ⟨_, .sign hsign hop' ht⟩
  | unsigned _ ih =>
    obtain ⟨t, ht⟩ := ih hfloor
    exact ⟨t, .unsigned ht⟩
  | _ =>
    revert hfloor
    cases kind <;> exact fun hfloor => absurd hfloor (by decide)

end Derives

/-- Operands, each an atom with any signs before it, with operators between them. -/
inductive Strand : List Token → Prop
  | operand {ts : List Token} {e : Expr} : Derives (.signed .atom) ts e → Strand ts
  | operation {ts us : List Token} {op : Token} {kind : BinaryKind} :
      op.operator? = some kind.level → Strand ts → Strand us → Strand (ts ++ op :: us)

namespace Strand

/-- A phrase goes on with an operator and any number of operands. -/
theorem extend (h : Strand us) (hts : Derives (.plain .equality) ts e)
    (hop : op.operator? = some kind.level) :
    ∃ t, Derives (.plain .equality) (ts ++ op :: us) t := by
  induction h generalizing ts e op kind with
  | operand hr => exact hts.extend hop hr (Nat.zero_le _)
  | operation hop' _ _ ih ih' =>
    obtain ⟨t, ht⟩ := ih hts hop
    have hall := ih' ht hop'
    rwa [List.append_assoc] at hall

theorem derives (h : Strand ts) : ∃ t, Derives (.plain .equality) ts t := by
  induction h with
  | operand hr => exact ⟨_, (hr.right_of_signed .addition).weaken (by decide)⟩
  | operation hop _ hus ih _ =>
    obtain ⟨t, ht⟩ := ih
    exact hus.extend ht hop

end Strand

end Strands

end Formulary
