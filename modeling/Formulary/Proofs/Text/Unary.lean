import Formulary.Proofs.Grammar.Strands
import Formulary.Proofs.Text.Parentheses
import Formulary.Proofs.Text.RoundTrip

/-!
Texts of sign and inverse nodes. Such a node never gets a group, although a sign stands before its
operand, or a division. Beside an operator that binds more tightly than these, it is not read for
what it is: the operator takes the operand.
-/

namespace Formulary

/-- What the written language has for a node: a sign before the operand, or one divided by it. -/
def UnaryOp.spelled (op : UnaryOp) (e : Expr) : Expr :=
  match op with
  | .positive => .signed .addition (.unary .paren e)
  | .negative => .signed .subtraction (.unary .paren e)
  | .inverse => .binaryOf .division (.number 1) (.unary .paren e)
  | .paren | .bracket => .unary op e

namespace Expr

/-- Expressions made of names by signs, inverses, parentheses and explicit operations. -/
inductive Arithmetical : Expr → Prop
  | name {name : String} : IsName name → Arithmetical (.named name)
  | unary {op : UnaryOp} {e : Expr} : op ≠ .bracket → Arithmetical e → Arithmetical (.unary op e)
  | operation {kind : BinaryKind} {l r : Expr} :
      Arithmetical l → Arithmetical r → Arithmetical (.binaryOf kind l r)

/-- The expression with its signs and inverses as the written language has them. -/
def spelledOut : Expr → Expr
  | .unary op e => op.spelled e.spelledOut
  | .binary op l r => .binary op l.spelledOut r.spelledOut
  | e => e

/-- Whether an operator of the level takes the operand of a sign or inverse beside it. -/
def overtaken (level : Level) (side : Side) : Expr → Bool
  | .unary .positive _ | .unary .negative _ =>
    side == .left && decide (Level.subtraction < level)
  | .unary .inverse _ => decide (Level.division < level) || (level == .division && side == .right)
  | _ => false

/-- Whether some sign or inverse of the expression is overtaken by the operator beside it. -/
def misplaces : Expr → Bool
  | .unary _ e => e.misplaces
  | .binary ⟨kind, false⟩ l r =>
    (l.overtaken kind.level .left || r.overtaken kind.level .right) ||
      (l.misplaces || r.misplaces)
  | _ => false

/-- What the text of the expression is put together from, with the groups that are written. -/
def written : Expr → Expr
  | .unary op e => op.spelled e.written
  | .binary ⟨kind, false⟩ l r =>
    .binaryOf kind (inGroup (needsGroup kind.level l .left) l.written)
      (inGroup (needsGroup kind.level r .right) r.written)
  | e => e

end Expr

section Spelled

variable {e l r : Expr} {level : Level}

theorem ofNumeral_one : Expr.ofNumeral 1 = .number 1 := rfl

theorem isLiteral_one : IsLiteral 1 := ⟨by decide +kernel, by decide +kernel⟩

/-- A sign or a division needs a group where the node for it is overtaken. -/
theorem needsGroup_spelled (op : UnaryOp) (level : Level) (side : Side) :
    needsGroup level (op.spelled l) side =
      (needsGroup level (.unary op r) side || (Expr.unary op r).overtaken level side) := by
  cases op <;> cases level <;> cases side <;> rfl

theorem needsGroup_spelledOut (h : e.Arithmetical) (side : Side) :
    needsGroup level e.spelledOut side = (needsGroup level e side || e.overtaken level side) := by
  cases h with
  | name => simp [Expr.spelledOut, Expr.named, Expr.overtaken]
  | unary => exact needsGroup_spelled _ level side
  | operation => exact (Bool.or_false _).symm

/-- What is written before the group of a node. -/
def UnaryOp.mark : UnaryOp → String
  | .positive => BinaryKind.addition.tag
  | .negative => BinaryKind.subtraction.tag
  | .inverse => "1" ++ BinaryKind.division.between
  | .paren | .bracket => ""

theorem text_unary {op : UnaryOp} (h : op ≠ .bracket) :
    (Expr.unary op e).text = op.mark ++ ("(" ++ e.text ++ ")") := by
  cases op with
  | bracket => exact absurd rfl h
  | paren => rw [Expr.text, UnaryOp.mark, String.empty_append]
  | _ =>
    rw [Expr.text, ← String.append_assoc, ← String.append_assoc]
    rfl

theorem text_spelled {op : UnaryOp} (hop : op ≠ .bracket) (h : l.text = r.text) :
    (op.spelled l).text = (Expr.unary op r).text := by
  have hparen {level : Level} (hlt : level < .atom) :
      grouping (needsGroup level (.unary .paren l) .right) (Expr.unary .paren l).text =
        "(" ++ r.text ++ ")" := by
    rw [needsGroup_of_lt rfl hlt, grouping, if_neg Bool.false_ne_true, Expr.text, h]
  have hone : grouping (needsGroup .division (.number 1) .left) (Expr.number 1).text = "1" := by
    decide +kernel
  rw [text_unary hop]
  cases op with
  | positive | negative =>
    rw [UnaryOp.spelled, Expr.signed, Expr.text, hparen (by decide)]
    rfl
  | inverse =>
    rw [UnaryOp.spelled, Expr.binaryOf, Expr.text, BinaryKind.level, hone, hparen (by decide)]
    rfl
  | paren => rw [UnaryOp.spelled, Expr.text, h, UnaryOp.mark, String.empty_append]
  | bracket => exact absurd rfl hop

theorem text_spelledOut (h : e.Arithmetical) (hmis : e.misplaces = false) :
    e.spelledOut.text = e.text := by
  induction h with
  | name => rfl
  | unary hop _ ih => exact text_spelled hop (ih hmis)
  | @operation kind l r hl hr ihl ihr =>
    simp only [Expr.binaryOf, Expr.misplaces, Bool.or_eq_false_iff] at hmis
    obtain ⟨⟨hleft, hright⟩, hmisl, hmisr⟩ := hmis
    simp only [Expr.spelledOut, Expr.binaryOf, Expr.text, needsGroup_spelledOut hl,
      needsGroup_spelledOut hr, hleft, hright, ihl hmisl, ihr hmisr, Bool.or_false]

theorem renderable_spelledOut (h : e.Arithmetical) : Renderable e.spelledOut := by
  induction h with
  | name h => exact .name h
  | @unary op _ hop _ ih =>
    have hparen := Renderable.group (.inl rfl) ih
    cases op with
    | positive => exact .sign (.inl rfl) hparen
    | negative => exact .sign (.inr rfl) hparen
    | inverse => exact .operation (.number isLiteral_one) hparen
    | paren => exact hparen
    | bracket => exact absurd rfl hop
  | operation _ _ ihl ihr => exact .operation ihl ihr

theorem normal_spelledOut (h : e.Arithmetical) : e.spelledOut.normal = e.spelledOut.dropParens := by
  induction h with
  | name h => rfl
  | @unary op _ hop _ ih =>
    cases op with
    | paren => exact ih
    | bracket => exact absurd rfl hop
    | _ =>
      simp [Expr.spelledOut, UnaryOp.spelled, Expr.signed, Expr.binaryOf, Expr.normal,
        Expr.dropParens, ih, ofNumeral_zero, ofNumeral_one]
  | operation _ _ ihl ihr =>
    simp [Expr.spelledOut, Expr.binaryOf, Expr.normal, Expr.dropParens, ihl, ihr]

theorem operational_spelled {op : UnaryOp} (hop : op ≠ .bracket) (h : e.Operational) :
    (op.spelled e).Operational := by
  cases op with
  | positive | negative => exact .signed (.paren h)
  | inverse => exact .operation (.number 1) (.paren h)
  | paren => exact .paren h
  | bracket => exact absurd rfl hop

theorem operational_written (h : e.Arithmetical) : e.written.Operational := by
  induction h with
  | name => exact .symbol _ _ _
  | unary hop _ ih => exact operational_spelled hop ih
  | operation _ _ ihl ihr => exact .operation (ihl.inGroup _) (ihr.inGroup _)

theorem dropParens_spelled (op : UnaryOp) (h : l.dropParens = r.dropParens) :
    (op.spelled l).dropParens = (op.spelled r).dropParens := by
  cases op <;> simp [UnaryOp.spelled, Expr.signed, Expr.binaryOf, Expr.dropParens, h]

theorem dropParens_written (h : e.Arithmetical) :
    e.written.dropParens = e.spelledOut.dropParens := by
  induction h with
  | name => rfl
  | @unary op _ _ _ ih => exact dropParens_spelled op ih
  | operation _ _ ihl ihr =>
    simp [Expr.written, Expr.spelledOut, Expr.binaryOf, Expr.dropParens, ihl, ihr]

end Spelled

/-- A text of operands with operators between them, and with the parentheses of `e`. -/
def WritesStrand (text : String) (e : Expr) : Prop :=
  ∃ ts, Spells text ts ∧ Strand ts ∧ ts.map Token.turn = e.turns

/-- The same for one operand. -/
def WritesOperand (text : String) (e : Expr) : Prop :=
  ∃ ts, Spells text ts ∧ (∃ t, Derives (.signed .atom) ts t) ∧ ts.map Token.turn = e.turns

section Strands

variable {s t : String} {e l r : Expr}

theorem WritesOperand.strand (h : WritesOperand s e) : WritesStrand s e := by
  obtain ⟨ts, hs, ⟨t, ht⟩, hturns⟩ := h
  exact ⟨ts, hs, .operand ht, hturns⟩

theorem WritesOperand.sign {kind : BinaryKind} (hkind : kind = .addition ∨ kind = .subtraction)
    (h : WritesOperand s e) : WritesOperand (kind.tag ++ s) (.signed kind e) := by
  obtain ⟨ts, hs, ⟨t, ht⟩, hturns⟩ := h
  refine ⟨_, hs.sign hkind, ⟨_, .sign hkind kind.token_operator? ht⟩, ?_⟩
  simp [Expr.turns, Expr.signed, hturns, Token.turn_of_operator? kind.token_operator?]

theorem WritesStrand.operation (kind : BinaryKind) (hl : WritesStrand s l) (hr : WritesStrand t r) :
    WritesStrand (s ++ kind.between ++ t) (.binaryOf kind l r) := by
  obtain ⟨ts, hs, hstrand, hturns⟩ := hl
  obtain ⟨us, ht, hstrand', hturns'⟩ := hr
  refine ⟨_, hs.operation kind ht, .operation kind.token_operator? hstrand hstrand', ?_⟩
  simp [Expr.turns, Expr.binaryOf, hturns, hturns', Token.turn_of_operator? kind.token_operator?]

theorem WritesStrand.paren (h : WritesStrand s e) :
    WritesOperand ("(" ++ s ++ ")") (.unary .paren e) := by
  obtain ⟨ts, hs, hstrand, hturns⟩ := h
  obtain ⟨t, ht⟩ := hstrand.derives
  refine ⟨_, hs.paren, ⟨_, .unsigned (.paren rfl rfl ht)⟩, ?_⟩
  simp [Expr.turns, hturns, Token.turn, Token.of]

theorem WritesStrand.inGroup (h : WritesStrand s e) (grouped : Bool) :
    WritesStrand (grouping grouped s) (.inGroup grouped e) := by
  cases grouped with
  | false => exact h
  | true => exact h.paren.strand

theorem Writes.operand (h : Writes (.plain .atom) s e) (hdrop : e.dropParens.Operational) :
    WritesOperand s e := by
  obtain ⟨ts, hs, hd⟩ := h
  exact ⟨ts, hs, ⟨e, .unsigned hd⟩, (hd.turns hdrop).2⟩

/-- Whatever it is read for, the text of an expression is one of operands and operators, in the
groups that were written. -/
theorem writesStrand_written (h : e.Arithmetical) : WritesStrand e.text e.written := by
  induction h with
  | name h => exact (h.writes.operand (.symbol _ _ _)).strand
  | @unary op e hop _ ih =>
    rw [text_unary hop]
    cases op with
    | positive => exact (WritesOperand.sign (.inl rfl) ih.paren).strand
    | negative => exact (WritesOperand.sign (.inr rfl) ih.paren).strand
    | inverse =>
      have hone : WritesOperand "1" (.number 1) :=
        (isLiteral_one.writes (by decide +kernel)).operand (.number 1)
      exact hone.strand.operation .division ih.paren.strand
    | paren => exact ih.paren.strand
    | bracket => exact absurd rfl hop
  | operation _ _ ihl ihr => exact (ihl.inGroup _).operation _ (ihr.inGroup _)

end Strands

section Inversion

variable {p : Phrase} {ts : List Token} {e l r : Expr} {kind : BinaryKind} {level : Level}

theorem Derives.of_operation (h : Derives p ts (.binaryOf kind l r)) :
    (∃ us, Derives (.plain kind.level) us l) ∧ ∃ us, Derives (.right kind.level) us r := by
  generalize he : Expr.binaryOf kind l r = e at h
  induction h with
  | operation hkind _ hl hr =>
    cases he
    obtain rfl := Level.eq_of_binary? hkind
    exact ⟨⟨_, hl⟩, _, hr⟩
  | elements _ ih | inner _ _ ih | unsigned _ ih => exact ih he
  | _ => cases he

theorem Derives.of_sign (h : Derives p ts (.signed kind e)) : ∃ q us, Derives q us e := by
  generalize he : Expr.signed kind e = e' at h
  induction h with
  | sign _ _ h =>
    cases he
    exact ⟨_, _, h⟩
  | elements _ ih | inner _ _ ih | unsigned _ ih => exact ih he
  | _ => cases he

theorem Derives.of_paren (h : Derives p ts (.unary .paren e)) : ∃ q us, Derives q us e := by
  generalize he : Expr.unary .paren e = e' at h
  induction h with
  | paren _ _ h =>
    cases he
    exact ⟨_, _, h⟩
  | elements _ ih | inner _ _ ih | unsigned _ ih => exact ih he
  | _ => cases he

theorem Derives.of_inGroup {grouped : Bool} (h : Derives p ts (.inGroup grouped e)) :
    ∃ q us, Derives q us e := by
  cases grouped with
  | false => exact ⟨_, _, h⟩
  | true => exact h.of_paren

theorem Derives.of_spelled {op : UnaryOp} (hop : op ≠ .bracket) (h : Derives p ts (op.spelled e)) :
    ∃ q us, Derives q us e := by
  cases op with
  | positive | negative =>
    obtain ⟨q, us, h⟩ := h.of_sign
    exact h.of_paren
  | inverse =>
    obtain ⟨-, us, h⟩ := h.of_operation
    exact h.of_paren
  | paren => exact h.of_paren
  | bracket => exact absurd rfl hop

/-- What was read beside an operator for a sign or a division is not overtaken by it. -/
theorem not_overtaken_left
    (h : Derives (.plain level) ts (.inGroup (needsGroup level e .left) e.written)) :
    e.overtaken level .left = false := by
  cases e with
  | unary op e =>
    have hgroup : needsGroup level (.unary op e) .left = false := by
      cases level <;> rfl
    rw [hgroup] at h
    have hleft : needsGroup level (op.spelled e.written) .left = false := h.needsGroup_left
    rwa [needsGroup_spelled, hgroup, Bool.false_or] at hleft
  | _ => rfl

theorem not_overtaken_right
    (h : Derives (.right kind.level) ts (.inGroup (needsGroup kind.level e .right) e.written)) :
    e.overtaken kind.level .right = false := by
  cases e with
  | unary op e =>
    have hgroup : needsGroup kind.level (.unary op e) .right = false := by
      cases kind <;> rfl
    have htwice : (op.spelled e.written).isTwiceSigned = false := by
      cases op <;> rfl
    rw [hgroup] at h
    change Derives _ _ (op.spelled e.written) at h
    have hright := h.needsGroup_right kind.level_ne_atom
    rwa [htwice, Bool.and_false, needsGroup_spelled, hgroup, Bool.false_or] at hright
  | _ => rfl

theorem Derives.not_misplaces (he : e.Arithmetical) (h : Derives p ts e.written) :
    e.misplaces = false := by
  induction he generalizing p ts with
  | name => rfl
  | unary hop _ ih =>
    obtain ⟨q, us, h⟩ := h.of_spelled hop
    exact ih h
  | operation _ _ ihl ihr =>
    obtain ⟨⟨us, hl⟩, vs, hr⟩ := h.of_operation
    obtain ⟨_, _, hl'⟩ := hl.of_inGroup
    obtain ⟨_, _, hr'⟩ := hr.of_inGroup
    simp only [Expr.binaryOf, Expr.misplaces, not_overtaken_left hl, not_overtaken_right hr,
      ihl hl', ihr hr', Bool.or_false]

end Inversion

/-- The text of an expression with signs and inverses parses. Parentheses aside, it parses to the
expression spelled out, if no sign and no inverse is overtaken by the operator beside it, and only
then. -/
theorem parse_text_unary {e : Expr} (h : e.Arithmetical) :
    ∃ t, parse e.text = .ok t ∧
      (t.dropParens = e.spelledOut.dropParens ↔ e.misplaces = false) := by
  obtain ⟨ts, hspells, hstrand, hturns⟩ := writesStrand_written h
  obtain ⟨t, ht⟩ := hstrand.derives
  have hparse : parse e.text = .ok t := Writes.parse_eq ⟨ts, hspells, ht⟩
  refine ⟨t, hparse, ?_, ?_⟩
  · intro hdrop
    -- The tree has the parentheses of the text, so it is what the text was put together from.
    have hoperational := operational_written h
    have hsame : t.dropParens = e.written.dropParens := hdrop.trans (dropParens_written h).symm
    obtain ⟨ht', hturns'⟩ := ht.turns (hsame ▸ hoperational.dropParens)
    obtain rfl : t = e.written :=
      ht'.eq_of_turns hoperational (hturns'.symm.trans hturns) hsame
    exact ht.not_misplaces h
  · intro hmis
    have hspelled := renderable_spelledOut h
    have hreread := hspelled.parse_text_eq
    rw [text_spelledOut h hmis, hparse] at hreread
    obtain rfl : t = e.spelledOut.reread := Except.ok.inj hreread
    rw [hspelled.dropParens_reread, normal_spelledOut h]

/-- A power of a negative is read as the negative of a power. -/
theorem parse_text_unary_signedBase :
    let e : Expr := .binaryOf .power (.unary .negative (.named "a")) (.named "b")
    e.Arithmetical ∧ e.text = "-(a)^b" ∧
      ∃ t, parse e.text = .ok t ∧ t.dropParens ≠ e.spelledOut.dropParens := by
  have h : (Expr.binaryOf .power (.unary .negative (.named "a")) (.named "b")).Arithmetical :=
    .operation (.unary (by decide) (.name (by decide))) (.name (by decide))
  refine ⟨h, by decide +kernel, ?_⟩
  obtain ⟨t, ht, hiff⟩ := parse_text_unary h
  exact ⟨t, ht, fun hdrop => absurd (hiff.mp hdrop) (by decide)⟩

end Formulary
