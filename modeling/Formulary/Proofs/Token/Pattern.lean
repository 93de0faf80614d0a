import Mathlib.Computability.Language
import Formulary.Proofs.Token.Tiling

/-!
What a token may look like. Each kind has a pattern, a language over the characters, and the next
token of a text is the longest piece at its front that matches a pattern; if the piece matches
several, their priorities decide. What is said here about cutting is said once for the step `munch`
and then holds of every token.
-/

namespace Formulary

open Computability

/-- The texts of one character of a class. -/
def oneOf (p : Char → Bool) : Language Char := {cs | ∃ c, p c = true ∧ cs = [c]}

section OneOf

variable {p : Char → Bool} {l : Language Char} {c : Char} {cs : List Char}

@[simp] theorem nil_mem_oneOf : [] ∈ oneOf p ↔ False := by
  refine ⟨?_, False.elim⟩
  rintro ⟨c, -, h⟩
  cases h

@[simp] theorem cons_mem_oneOf : c :: cs ∈ oneOf p ↔ p c = true ∧ cs = [] := by
  constructor
  · rintro ⟨d, hd, h⟩
    obtain ⟨rfl, rfl⟩ := List.cons.inj h
    exact ⟨hd, rfl⟩
  · rintro ⟨hc, rfl⟩
    exact ⟨c, hc, rfl⟩

@[simp] theorem nil_mem_oneOf_mul : [] ∈ oneOf p * l ↔ False := by
  refine ⟨?_, False.elim⟩
  rintro ⟨as, ha, bs, -, h⟩
  obtain ⟨rfl, -⟩ := List.append_eq_nil_iff.mp h
  exact nil_mem_oneOf.mp ha

@[simp] theorem cons_mem_oneOf_mul : c :: cs ∈ oneOf p * l ↔ p c = true ∧ cs ∈ l := by
  constructor
  · rintro ⟨_, ⟨d, hd, rfl⟩, bs, hbs, h⟩
    obtain ⟨rfl, rfl⟩ := List.cons.inj h
    exact ⟨hd, hbs⟩
  · rintro ⟨hc, hcs⟩
    exact ⟨[c], ⟨c, hc, rfl⟩, cs, hcs, rfl⟩

theorem cons_mem_kstar_oneOf : c :: cs ∈ (oneOf p)∗ ↔ p c = true ∧ cs ∈ (oneOf p)∗ := by
  have hunfold : c :: cs ∈ (oneOf p)∗ ↔ c :: cs ∈ 1 + oneOf p * (oneOf p)∗ := by
    rw [Language.one_add_self_mul_kstar_eq_kstar]
  simp only [hunfold, Language.mem_add, Language.mem_one, cons_mem_oneOf_mul, reduceCtorEq,
    false_or]

@[simp] theorem mem_kstar_oneOf : cs ∈ (oneOf p)∗ ↔ ∀ c ∈ cs, p c = true := by
  induction cs with
  | nil => simp [Language.nil_mem_kstar]
  | cons c cs ih => rw [cons_mem_kstar_oneOf, ih, List.forall_mem_cons]

theorem cons_takeWhile_mem {q : Char → Bool} (hc : p c = true) (cs : List Char) :
    c :: cs.takeWhile q ∈ oneOf p * (oneOf q)∗ :=
  cons_mem_oneOf_mul.mpr ⟨hc, mem_kstar_oneOf.mpr fun _ => List.mem_takeWhile_imp⟩

theorem mem_kstar_oneOf_mul : cs ∈ (oneOf p)∗ * l ↔
    ∃ as bs, cs = as ++ bs ∧ (∀ c ∈ as, p c = true) ∧ bs ∈ l := by
  constructor
  · rintro ⟨as, ha, bs, hb, rfl⟩
    exact ⟨as, bs, rfl, mem_kstar_oneOf.mp ha, hb⟩
  · rintro ⟨as, bs, rfl, ha, hb⟩
    exact ⟨as, mem_kstar_oneOf.mpr ha, bs, hb, rfl⟩

end OneOf

/-- The texts that a token of a kind may have. -/
def TokenKind.pattern : TokenKind → Language Char
  | .whitespace => oneOf isBlank * (oneOf isBlank)∗
  | .equals => oneOf (· == '=')
  | .comma => oneOf (· == ',')
  | .plus => oneOf (· == '+')
  | .minus => oneOf (· == '-')
  | .slash => oneOf (· == '/')
  | .star => oneOf (· == '*')
  | .caret => oneOf (· == '^')
  | .name => oneOf isNameStart * (oneOf isNameChar)∗
  | .openParen => oneOf (· == '(')
  | .closeParen => oneOf (· == ')')
  | .openBracket => oneOf (· == '[')
  | .closeBracket => oneOf (· == ']')
  | .int => oneOf Char.isDigit * (oneOf Char.isDigit)∗
  | .decimal =>
    oneOf Char.isDigit * ((oneOf Char.isDigit)∗ * (oneOf (· == '.') * (oneOf Char.isDigit)∗))
  | .other => oneOf (· != '\n')

/-- Which pattern a piece is taken for if it matches several. Only the pattern of any character
shares a piece with another one, so the others need no order among themselves. -/
def TokenKind.priority : TokenKind → Nat
  | .other => 0
  | _ => 1

theorem TokenKind.priority_other_lt {kind : TokenKind} (h : kind ≠ .other) :
    TokenKind.other.priority < kind.priority := by
  cases kind with
  | other => exact absurd rfl h
  | _ => exact Nat.zero_lt_one

namespace Lexer

/-- The piece at the front of a text that its next token takes: no pattern matches a longer one,
and another pattern that matches this one gives way. -/
structure Longest (cs : List Char) (kind : TokenKind) (piece : List Char) : Prop where
  front : piece <+: cs
  mem : piece ∈ kind.pattern
  length_le : ∀ (kind' : TokenKind) (piece' : List Char), piece' <+: cs →
    piece' ∈ kind'.pattern → piece'.length ≤ piece.length
  priority_lt : ∀ kind' : TokenKind, piece ∈ kind'.pattern → kind' ≠ kind →
    kind'.priority < kind.priority

section Patterns

variable {c : Char} {more rest piece : List Char} {kind : TokenKind}

theorem ne_nil_of_mem_pattern (h : piece ∈ kind.pattern) : piece ≠ [] := by
  rintro rfl
  cases kind <;> simp [TokenKind.pattern] at h

theorem length_of_mem_pattern_other : piece ∈ TokenKind.other.pattern → piece.length = 1 := by
  rintro ⟨c, -, rfl⟩
  rfl

theorem singleton_mem_pattern_ofMark (h : isBlank c = false) :
    [c] ∈ (TokenKind.ofMark c).pattern := by
  unfold TokenKind.ofMark
  split <;> simp [TokenKind.pattern]
  rintro rfl
  simp [isBlank] at h

/-- What is cut off matches the pattern of its kind. -/
theorem munch_mem_pattern (c : Char) (rest : List Char) :
    c :: (munch c rest).2 ∈ (munch c rest).1.pattern := by
  by_cases hblank : isBlank c = true
  · rw [munch_of_isBlank hblank]
    exact cons_takeWhile_mem hblank rest
  by_cases hname : isNameStart c = true
  · rw [munch_of_isNameStart hname]
    exact cons_takeWhile_mem hname rest
  by_cases hdigit : c.isDigit = true
  · by_cases hdot : ∃ tail, rest.dropWhile Char.isDigit = '.' :: tail
    · obtain ⟨tail, hdrop⟩ := hdot
      rw [munch_of_isDigit_of_dot hdigit hdrop]
      refine cons_mem_oneOf_mul.mpr ⟨hdigit, mem_kstar_oneOf_mul.mpr ⟨_, _, rfl, ?_, ?_⟩⟩
      · exact fun _ => List.mem_takeWhile_imp
      · exact cons_takeWhile_mem rfl tail
    · rw [munch_of_isDigit hdigit (not_exists.mp hdot)]
      exact cons_takeWhile_mem hdigit rest
  rw [Bool.not_eq_true] at hblank hname hdigit
  rw [munch_of_mark hblank hname hdigit]
  exact singleton_mem_pattern_ofMark hblank

/-- A piece of one class is shorter than the longest one, or it is the longest one. -/
theorem takeWhile_eq_or_length_lt {p : Char → Bool} (hpre : more <+: rest)
    (hmore : more ∈ (oneOf p)∗) :
    rest.takeWhile p = more ∨ more.length < (rest.takeWhile p).length := by
  obtain ⟨after, rfl⟩ := hpre
  rw [List.takeWhile_append_of_pos (mem_kstar_oneOf.mp hmore)]
  rcases after.takeWhile p with _ | ⟨d, ds⟩
  · exact .inl (List.append_nil _)
  · exact .inr (by simp)

/-- A piece at the front that matches a pattern is what is cut off, or shorter. -/
theorem munch_of_mem_pattern (hmem : c :: more ∈ kind.pattern) (hkind : kind ≠ .other)
    (hpre : more <+: rest) :
    munch c rest = (kind, more) ∨ more.length < (munch c rest).2.length := by
  cases kind with
  | whitespace =>
    obtain ⟨hc, hmore⟩ := cons_mem_oneOf_mul.mp hmem
    rw [munch_of_isBlank hc]
    exact (takeWhile_eq_or_length_lt hpre hmore).imp_left (congrArg _)
  | name =>
    obtain ⟨hc, hmore⟩ := cons_mem_oneOf_mul.mp hmem
    rw [munch_of_isNameStart hc]
    exact (takeWhile_eq_or_length_lt hpre hmore).imp_left (congrArg _)
  | int =>
    obtain ⟨hc, hmore⟩ := cons_mem_oneOf_mul.mp hmem
    have hlength := takeWhile_eq_or_length_lt hpre hmore
    by_cases hdot : ∃ tail, rest.dropWhile Char.isDigit = '.' :: tail
    · -- The dot makes the digits part of a longer piece.
      obtain ⟨tail, hdrop⟩ := hdot
      have hle : more.length ≤ (rest.takeWhile Char.isDigit).length := by
        rcases hlength with h | h
        · exact (congrArg List.length h).ge
        · exact h.le
      rw [munch_of_isDigit_of_dot hc hdrop, List.length_append, List.length_cons]
      exact .inr (by omega)
    · rw [munch_of_isDigit hc (not_exists.mp hdot)]
      exact hlength.imp_left (congrArg _)
  | decimal =>
    -- The digits before the dot end there, so the digits after it are all that can differ.
    obtain ⟨hc, hmore⟩ := cons_mem_oneOf_mul.mp hmem
    obtain ⟨as, _ | ⟨d, bs⟩, rfl, ha, hb⟩ := mem_kstar_oneOf_mul.mp hmore
    · exact (nil_mem_oneOf_mul.mp hb).elim
    obtain ⟨hd, hbs⟩ := cons_mem_oneOf_mul.mp hb
    obtain rfl : d = '.' := eq_of_beq hd
    obtain ⟨after, rfl⟩ := hpre
    have hdrop : (as ++ '.' :: bs ++ after).dropWhile Char.isDigit = '.' :: (bs ++ after) := by
      simp [List.dropWhile_append_of_pos ha]
    have htake : (as ++ '.' :: bs ++ after).takeWhile Char.isDigit = as := by
      simp [List.takeWhile_append_of_pos ha]
    rw [munch_of_isDigit_of_dot hc hdrop, htake]
    rcases takeWhile_eq_or_length_lt ⟨after, rfl⟩ hbs with h | h
    · rw [h]
      exact .inl rfl
    · exact .inr (by simpa using h)
  | other => exact absurd rfl hkind
  | equals | comma | plus | minus | slash | star | caret | openParen | closeParen | openBracket
  | closeBracket =>
    obtain ⟨hc, rfl⟩ := cons_mem_oneOf.mp hmem
    obtain rfl := eq_of_beq hc
    exact .inl rfl

theorem munch_longest (c : Char) (rest : List Char) :
    Longest (c :: rest) (munch c rest).1 (c :: (munch c rest).2) where
  front := List.cons_prefix_cons.mpr ⟨rfl, munch_prefix c rest⟩
  mem := munch_mem_pattern c rest
  length_le := by
    rintro kind (_ | ⟨d, more⟩) hpre hmem
    · exact Nat.zero_le _
    obtain ⟨rfl, hmore⟩ := List.cons_prefix_cons.mp hpre
    by_cases hkind : kind = .other
    · subst hkind
      rw [length_of_mem_pattern_other hmem]
      exact Nat.succ_le_succ (Nat.zero_le _)
    · rcases munch_of_mem_pattern hmem hkind hmore with h | h
      · rw [h]
      · exact Nat.succ_le_succ (Nat.le_of_lt h)
  priority_lt := by
    intro kind hmem hne
    by_cases hkind : kind = .other
    · subst hkind
      exact TokenKind.priority_other_lt hne.symm
    · rcases munch_of_mem_pattern hmem hkind ( munch_prefix c rest) with h | h
      · exact absurd (congrArg Prod.fst h).symm hne
      · exact absurd h (Nat.lt_irrefl _)

end Patterns

namespace Longest

variable {cs piece piece' : List Char} {kind kind' : TokenKind}

theorem eq_of_length_le (h : Longest cs kind piece) (hpre : piece' <+: cs)
    (hmem : piece' ∈ kind'.pattern) (hle : piece.length ≤ piece'.length) : piece' = piece := by
  have hlength : piece'.length = piece.length := Nat.le_antisymm (h.length_le _ _ hpre hmem) hle
  exact (List.prefix_of_prefix_length_le hpre h.front hlength.le).eq_of_length hlength

theorem unique (h : Longest cs kind piece) (h' : Longest cs kind' piece') :
    kind' = kind ∧ piece' = piece := by
  obtain rfl : piece' = piece :=
    h.eq_of_length_le h'.front h'.mem (h'.length_le _ _ h.front h.mem)
  refine ⟨?_, rfl⟩
  by_contra hne
  have hlt := h.priority_lt kind' h'.mem hne
  have hlt' := h'.priority_lt kind h.mem (Ne.symm hne)
  exact Nat.lt_asymm hlt hlt'

/-- A whole number is not followed by a dot; the dot would belong to it. -/
theorem not_dot (h : Longest cs .int piece) : ¬ piece ++ ['.'] <+: cs := by
  intro hdot
  have hmem : piece ++ ['.'] ∈ TokenKind.decimal.pattern := by
    have hpiece := h.mem
    rcases piece with _ | ⟨c, more⟩
    · exact absurd rfl (ne_nil_of_mem_pattern hpiece)
    obtain ⟨hc, hmore⟩ := cons_mem_oneOf_mul.mp hpiece
    refine cons_mem_oneOf_mul.mpr ⟨hc, mem_kstar_oneOf_mul.mpr ⟨more, ['.'], rfl, ?_, ?_⟩⟩
    · exact mem_kstar_oneOf.mp hmore
    · exact cons_mem_oneOf_mul.mpr ⟨rfl, Language.nil_mem_kstar _⟩
  have hle := h.length_le _ _ hdot hmem
  rw [List.length_append] at hle
  exact Nat.not_succ_le_self _ hle

/-- A character that no token is known for stands only where no other pattern matches anything. -/
theorem eq_other (h : Longest cs .other piece) (hpre : piece' <+: cs)
    (hmem : piece' ∈ kind'.pattern) : kind' = .other := by
  have hle : piece.length ≤ piece'.length := by
    rw [length_of_mem_pattern_other h.mem]
    exact List.length_pos_iff.mpr (ne_nil_of_mem_pattern hmem)
  obtain rfl : piece' = piece := h.eq_of_length_le hpre hmem hle
  by_contra hne
  exact absurd (h.priority_lt _ hmem hne) (Nat.not_lt_zero _)

end Longest

/-- Every text but the empty one has a next token, and only one. -/
theorem existsUnique_longest {cs : List Char} (h : cs ≠ []) :
    ∃! m : TokenKind × List Char, Longest cs m.1 m.2 := by
  rcases cs with _ | ⟨c, rest⟩
  · exact absurd rfl h
  refine ⟨((munch c rest).1, c :: (munch c rest).2), munch_longest c rest, ?_⟩
  rintro ⟨kind, piece⟩ h'
  obtain ⟨rfl, rfl⟩ := (munch_longest c rest).unique h'
  rfl

/-- Every token is the longest piece at the place where it stands. -/
theorem exists_longest_of_mem_tokensFrom {start : Nat} {cs : List Char} {t : Token}
    (ht : t ∈ tokensFrom start cs) :
    ∃ before piece after, cs = before ++ piece ++ after ∧ Longest (piece ++ after) t.kind piece ∧
      t.lexeme = String.ofList piece ∧
      t.span = ⟨start + byteLength before, start + (byteLength before + byteLength piece)⟩ := by
  induction start, cs using tokensFrom.induct with
  | case1 start => simp [tokensFrom] at ht
  | case2 start c rest kind more hmunch stop ih =>
    have hlongest := munch_longest c rest
    obtain ⟨after, hafter⟩ := munch_prefix c rest
    rw [hmunch] at hafter hlongest
    simp only at hafter hlongest
    subst hafter
    rw [tokensFrom, hmunch] at ht
    simp only [List.drop_left, List.mem_cons] at ht ih
    rcases ht with rfl | ht
    · exact ⟨[], c :: more, after, rfl, hlongest, rfl, by simp [byteLength]⟩
    · obtain ⟨before, piece, after', rfl, hlongest', hlexeme, hspan⟩ := ih ht
      refine ⟨c :: more ++ before, piece, after', by simp, hlongest', hlexeme, ?_⟩
      simp only [hspan, stop, byteLength_append, Nat.add_assoc]

end Lexer

/-- The tokens of a text make it up without a gap, each of them is the longest that can stand in
its place, and there is always one that can. -/
theorem rawTokens_longest (source : String) :
    0 :: (rawTokens source).map (·.span.stop) =
      (rawTokens source).map (·.span.start) ++ [source.utf8ByteSize] ∧
    (∀ t ∈ rawTokens source,
      t.span.start < t.span.stop ∧ t.span.text source = t.lexeme ∧
      t.lexeme.toList ∈ t.kind.pattern ∧
      ∃ rest, dropBytes t.span.start source.toList = some rest ∧
        Lexer.Longest rest t.kind t.lexeme.toList ∧
        (t.kind = .int → ¬ t.lexeme.toList ++ ['.'] <+: rest) ∧
        (t.kind = .other → ∀ (kind : TokenKind) (piece : List Char),
          piece <+: rest → piece ∈ kind.pattern → kind = .other)) ∧
    ∀ rest, rest <:+ source.toList → rest ≠ [] →
      ∃! m : TokenKind × List Char, Lexer.Longest rest m.1 m.2 := by
  refine ⟨?_, fun t ht => ?_, fun rest _ => Lexer.existsUnique_longest⟩
  · rw [← byteLength_toList]
    simpa using (tiles_rawTokens source).start_cons_stops
  · obtain ⟨before, piece, after, hsource, hlongest, hlexeme, hspan⟩ :=
      Lexer.exists_longest_of_mem_tokensFrom ht
    have hpos := byteLength_pos (Lexer.ne_nil_of_mem_pattern hlongest.mem)
    have htoList : t.lexeme.toList = piece := by rw [hlexeme, String.toList_ofList]
    simp only [Nat.zero_add] at hspan
    rw [hspan, htoList, hlexeme]
    refine ⟨Nat.lt_add_of_pos_right hpos, Span.text_of_append hsource, hlongest.mem,
      piece ++ after, ?_, hlongest, ?_, ?_⟩
    · rw [hsource, List.append_assoc, dropBytes_append]
    · intro hkind
      exact (hkind ▸ hlongest).not_dot
    · intro hkind kind piece'
      exact (hkind ▸ hlongest).eq_other

example : (rawTokens "2.5 é").map (fun t => (t.kind, t.span)) =
    [(.decimal, ⟨0, 3⟩), (.whitespace, ⟨3, 4⟩), (.other, ⟨4, 6⟩)] := by cbv

end Formulary
