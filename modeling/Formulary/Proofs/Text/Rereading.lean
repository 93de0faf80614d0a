import Formulary.Proofs.Decimal.Numerals
import Formulary.Proofs.Text.Writing

/-!
What the text of an expression reads as. Operands that are written in parentheses come back inside
them, lists as operations nested to the left, and negative numbers as subtractions. Wherever a text
is put without parentheses, what stands around it does not change how it is read.
-/

namespace Formulary

/-- The tree of a text that is in parentheses if `grouped`. -/
def Expr.inGroup (grouped : Bool) (e : Expr) : Expr := if grouped then .unary .paren e else e

/-- The tree of an operator between any number of operands, or `unit` if there are none. -/
def Expr.leftNested (kind : BinaryKind) (unit : Float) : List Expr → Expr
  | [] => .number unit
  | e :: es => es.foldl (.binaryOf kind) e

/-- The tree of the text of a number: a minus sign before a number is a sign. -/
def Expr.ofNumeral (x : Float) : Expr :=
  if x < 0 then .signed .subtraction (.number (-x)) else .number x

namespace Expr

mutual

/-- The tree that the text of an expression reads as. -/
def reread : Expr → Expr
  | .number x => ofNumeral x
  | .symbol _ name _ => .named name
  | .term c a x =>
    .binaryOf .multiplication
      (.binaryOf .multiplication (inGroup (needsGroup .multiplication c .left) c.reread)
        (inGroup (needsGroup .multiplication a .right) a.reread))
      (inGroup (needsGroup .multiplication x .right) x.reread)
  | .unary op e => .unary op e.reread
  | .binary ⟨kind, true⟩ _ r =>
    .signed kind (inGroup (needsGroup .subtraction r .right) r.reread)
  | .binary ⟨kind, false⟩ l r =>
    .binaryOf kind (inGroup (needsGroup kind.level l .left) l.reread)
      (inGroup (needsGroup kind.level r .right) r.reread)
  | .nary .sum es => leftNested .addition 0 (rereadOperands .addition es)
  | .nary .product es => leftNested .multiplication 1 (rereadOperands .multiplication es)
  | .nary .sequence es => .nary .sequence (rereadOperands .sequence es)
  | .call name es => .call name (rereadArgs es.length es)

/-- The operands of a list, read at a level. -/
def rereadOperands (level : Level) : List Expr → List Expr
  | [] => []
  | e :: es => inGroup (needsGroup level e .left) e.reread :: rereadTail level es

/-- The operands after the first. -/
def rereadTail (level : Level) : List Expr → List Expr
  | [] => []
  | e :: es => inGroup (needsGroup level e .right) e.reread :: rereadTail level es

/-- Arguments of a call, `count` in all. -/
def rereadArgs (count : Nat) : List Expr → List Expr
  | [] => []
  | e :: es => inGroup (argNeedsGroup count e) e.reread :: rereadArgs count es

end

end Expr

/-- How a text may be put in a place beside an operator. -/
def Side.phrase (level : Level) : Side → Phrase
  | .left => .plain level
  | .right => .right level

/-- Wherever the text of `e` needs no group, it stands for the tree `t`. -/
def Rereads (e t : Expr) : Prop :=
  ∀ level, level ≠ .atom → ∀ side, needsGroup level e side = false →
    Writes (side.phrase level) e.text t

section Places

variable {e t l r u : Expr} {s : String} {level : Level}

theorem Derives.of_atom {ts : List Token} (h : Derives (.plain .atom) ts e) (level : Level)
    (hne : level ≠ .atom) (side : Side) : Derives (side.phrase level) ts e := by
  cases side with
  | left =>
    apply h.weaken
    revert hne
    cases level <;> decide
  | right =>
    apply h.toRight
    revert hne
    cases level <;> decide

/-- Signs may be put wherever nothing tighter than a subtraction is asked for. -/
theorem Derives.of_signed {ts : List Token} (h : Derives (.signed .division) ts e)
    (hle : level ≤ .subtraction) (side : Side) : Derives (side.phrase level) ts e := by
  have hplain : Derives (.plain .subtraction) ts e := .inner (by decide) h
  cases side with
  | left => exact hplain.weaken hle
  | right =>
    by_cases heq : level = .subtraction
    · rw [heq]
      exact h
    · exact hplain.toRight (Level.lt_of_le_of_ne hle heq)

theorem needsGroup_of_not_signed (h : e.isSigned = false) (side : Side) :
    needsGroup level e side =
      (decide (e.level < level) || (e.level == level && side == .right)) := by
  unfold needsGroup
  split
  · simp [Expr.isSigned] at h
  · rfl

theorem needsGroup_of_signed (h : e.isSigned = true) (hle : level ≤ .subtraction) (side : Side) :
    needsGroup level e side = false := by
  unfold needsGroup
  split
  · have hnot : ¬ Level.subtraction < level := Nat.not_lt_of_le hle
    simp [hnot]
  · rename_i hplain
    cases e with
    | binary op l r =>
      obtain ⟨kind, implicit⟩ := op
      cases h
      exact absurd rfl (hplain kind l r)
    | _ => cases h

/-- What binds more tightly needs no group. -/
theorem needsGroup_of_lt (h : e.isSigned = false) (hlt : level < e.level) (side : Side) :
    needsGroup level e side = false := by
  rw [needsGroup_of_not_signed h]
  have hnot : ¬ e.level < level := Nat.not_lt_of_lt hlt
  have hne : e.level ≠ level := by
    intro heq
    rw [heq] at hlt
    exact Nat.lt_irrefl _ hlt
  simp [hnot, hne]

theorem needsGroup_equality_left (e : Expr) : needsGroup .equality e .left = false := by
  unfold needsGroup
  split
  · rfl
  · cases e.level <;> decide

namespace Rereads

/-- What is no sign stands where nothing tighter than its own level is asked for. -/
theorem of_plain (h : e.isSigned = false) (hw : Writes (.plain e.level) e.text t) :
    Rereads e t := by
  intro level _ side hgroup
  rw [needsGroup_of_not_signed h, Bool.or_eq_false_iff, decide_eq_false_iff_not] at hgroup
  have hle : level ≤ e.level := Nat.le_of_not_lt hgroup.1
  cases side with
  | left => exact hw.map fun _ hd => hd.weaken hle
  | right =>
    have hne : level ≠ e.level := by
      rintro rfl
      simp at hgroup
    exact hw.map fun _ hd => hd.toRight (Level.lt_of_le_of_ne hle hne)

theorem whole (h : Rereads e t) : Writes (.plain .equality) e.text t :=
  h .equality (by decide) .left (needsGroup_equality_left e)

/-- An operand stands in its place, in parentheses if it needs them. -/
theorem operand (h : Rereads e t) (level : Level) (hne : level ≠ .atom) (side : Side) :
    Writes (side.phrase level) (grouping (needsGroup level e side) e.text)
      (.inGroup (needsGroup level e side) t) := by
  cases hgroup : needsGroup level e side with
  | false => exact h level hne side hgroup
  | true => exact h.whole.paren.map fun _ hd => hd.of_atom level hne side

theorem operation {kind : BinaryKind} (hl : Rereads l t) (hr : Rereads r u) :
    Rereads (.binaryOf kind l r)
      (.binaryOf kind (.inGroup (needsGroup kind.level l .left) t)
        (.inGroup (needsGroup kind.level r .right) u)) := by
  apply of_plain rfl
  exact (hl.operand kind.level kind.level_ne_atom .left).operation kind
    (hr.operand kind.level kind.level_ne_atom .right)

/-- A sign takes all that binds more tightly, and stands to the right of any operator that its
operand stands to the right of. -/
theorem sign {kind : BinaryKind} (hkind : kind = .addition ∨ kind = .subtraction)
    (hr : Rereads r t) (hsigned : r.isSigned = true → r.level ≤ .subtraction) :
    Rereads (.signed kind r) (.signed kind (.inGroup (needsGroup .subtraction r .right) t)) := by
  have hsub : Writes (.signed .division) (Expr.signed kind r).text
      (.signed kind (.inGroup (needsGroup .subtraction r .right) t)) :=
    (hr.operand .subtraction (by decide) .right).sign hkind
  intro level hne side hgroup
  by_cases hle : level ≤ .subtraction
  · exact hsub.map fun _ hd => hd.of_signed hle side
  -- Past the level of `-`, the operand of the sign is one of the operator before it.
  · have htight : Level.subtraction < level := Nat.lt_of_not_le hle
    obtain ⟨rfl, hlt⟩ : side = .right ∧ level < r.level := by
      change (decide (Level.subtraction < level) &&
        (side == .left || decide (r.level ≤ level))) = false at hgroup
      cases side with
      | left => simp [htight] at hgroup
      | right =>
        have hnot : ¬ r.level ≤ level := by simpa [htight] using hgroup
        exact ⟨rfl, Nat.lt_of_not_le hnot⟩
    have hplain : r.isSigned = false := by
      rw [← Bool.not_eq_true]
      intro hs
      exact hle (Nat.le_trans (Nat.le_of_lt hlt) (hsigned hs))
    have hright : Side.right.phrase level = .signed level.next := by
      revert htight hne
      cases level <;> decide
    have hop := hr level hne .right (needsGroup_of_lt hplain hlt .right)
    rw [hright] at hop ⊢
    change Writes _ (kind.tag ++ grouping (needsGroup .subtraction r .right) r.text) _
    rw [needsGroup_of_lt hplain (Nat.lt_trans htight hlt) .right]
    exact hop.sign hkind

end Rereads

end Places

end Formulary
