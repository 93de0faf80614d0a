import Formulary.Token

/-!
Cutting a text into tokens. Every token is the longest that starts where the one before it ends,
and a character that starts no other token is a token of its own, so cutting never fails.
-/

namespace Formulary

def isBlank (c : Char) : Bool := c == ' ' || c == '\t' || c == '\n' || c == '\r'

def isNameStart (c : Char) : Bool := c.isAlpha || c == '_'

def isNameChar (c : Char) : Bool := c.isAlphanum || c == '_'

section Classes

variable {c : Char}

theorem isBlank_of_isNameStart (h : isNameStart c = true) : isBlank c = false := by
  rw [← Bool.not_eq_true]
  intro hblank
  simp only [isBlank, Bool.or_eq_true, beq_iff_eq] at hblank
  rcases hblank with ((rfl | rfl) | rfl) | rfl <;> simp [isNameStart] at h

theorem isNameStart_of_isDigit (h : c.isDigit = true) : isNameStart c = false := by
  have hne : c ≠ '_' := by
    rintro rfl
    simp at h
  have hdigit : 48 ≤ c.toNat ∧ c.toNat ≤ 57 := Char.isDigit_iff_toNat.mp h
  have halpha : c.isAlpha =
      (decide (c.val ≥ 65 ∧ c.val ≤ 90) || decide (c.val ≥ 97) && decide (c.val ≤ 122)) :=
    rfl
  rw [isNameStart, halpha]
  simp [hne, UInt32.le_iff_toNat_le]
  omega

theorem isBlank_of_isDigit (h : c.isDigit = true) : isBlank c = false := by
  rw [← Bool.not_eq_true]
  intro hblank
  simp only [isBlank, Bool.or_eq_true, beq_iff_eq] at hblank
  rcases hblank with ((rfl | rfl) | rfl) | rfl <;> simp at h

theorem isDigit_of_isNameChar (h : isNameChar c = false) : c.isDigit = false := by
  simp only [isNameChar, Char.isAlphanum, Bool.or_eq_false_iff] at h
  exact h.1.2

end Classes

/-- The kind of a token that is one character long whatever follows it. -/
def TokenKind.ofMark : Char → TokenKind
  | '=' => .equals
  | ',' => .comma
  | '+' => .plus
  | '-' => .minus
  | '/' => .slash
  | '*' => .star
  | '^' => .caret
  | '(' => .openParen
  | ')' => .closeParen
  | '[' => .openBracket
  | ']' => .closeBracket
  | _ => .other

namespace Lexer

/-- The kind of the token that starts with `c`, and the characters of `rest` that belong to it. -/
def munch (c : Char) (rest : List Char) : TokenKind × List Char :=
  if isBlank c then (.whitespace, rest.takeWhile isBlank)
  else if isNameStart c then (.name, rest.takeWhile isNameChar)
  else if c.isDigit then
    match rest.dropWhile Char.isDigit with
    | '.' :: tail =>
      (.decimal, rest.takeWhile Char.isDigit ++ '.' :: tail.takeWhile Char.isDigit)
    | _ => (.int, rest.takeWhile Char.isDigit)
  else (.ofMark c, [])

section Munch

variable {c : Char} {rest tail : List Char}

theorem munch_of_isBlank (h : isBlank c = true) (rest : List Char) :
    munch c rest = (.whitespace, rest.takeWhile isBlank) := by
  rw [munch, if_pos h]

theorem munch_of_isNameStart (h : isNameStart c = true) (rest : List Char) :
    munch c rest = (.name, rest.takeWhile isNameChar) := by
  rw [munch, if_neg (by simp [isBlank_of_isNameStart h]), if_pos h]

theorem munch_of_isDigit_of_dot (h : c.isDigit = true)
    (hdrop : rest.dropWhile Char.isDigit = '.' :: tail) :
    munch c rest =
      (.decimal, rest.takeWhile Char.isDigit ++ '.' :: tail.takeWhile Char.isDigit) := by
  rw [munch, if_neg (by simp [isBlank_of_isDigit h]), if_neg (by simp [isNameStart_of_isDigit h]),
    if_pos h, hdrop]
  rfl

theorem munch_of_isDigit (h : c.isDigit = true)
    (hdrop : ∀ tail, rest.dropWhile Char.isDigit ≠ '.' :: tail) :
    munch c rest = (.int, rest.takeWhile Char.isDigit) := by
  rw [munch, if_neg (by simp [isBlank_of_isDigit h]), if_neg (by simp [isNameStart_of_isDigit h]),
    if_pos h]
  split
  · exact absurd ‹_› (hdrop _)
  · rfl

theorem munch_of_mark (hblank : isBlank c = false) (hname : isNameStart c = false)
    (hdigit : c.isDigit = false) (rest : List Char) : munch c rest = (.ofMark c, []) := by
  simp [munch, hblank, hname, hdigit]

end Munch

/-- The tokens of a text whose first byte has the number `start`. -/
def tokensFrom (start : Nat) : List Char → List Token
  | [] => []
  | c :: rest =>
    let (kind, more) := munch c rest
    let stop := start + byteLength (c :: more)
    ⟨kind, String.ofList (c :: more), ⟨start, stop⟩⟩ :: tokensFrom stop (rest.drop more.length)
termination_by cs => cs.length
decreasing_by simp only [List.length_drop, List.length_cons]; omega

end Lexer

/-- All tokens of a text, blanks included. -/
def rawTokens (source : String) : List Token := Lexer.tokensFrom 0 source.toList

/-- The tokens of a text that are not blank. -/
def tokens (source : String) : List Token :=
  (rawTokens source).filter (·.kind != .whitespace)

end Formulary
