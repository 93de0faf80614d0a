import Formulary.Proofs.Grammar.Parsing
import Formulary.Proofs.Token.Pattern
import Formulary.Render.Text

/-!
Texts of phrases. What a text says depends on the kinds and the lexemes of its tokens only, and not
on where they stand, so texts can be put side by side if the first ends where the second cannot go
on with its last token.
-/

namespace Formulary

/-- A token of a given kind, wherever it stands. -/
def Token.of (kind : TokenKind) (lexeme : String) : Token := ⟨kind, lexeme, ⟨0, 0⟩⟩

/-- The token without its place. -/
def Token.bare (t : Token) : Token := .of t.kind t.lexeme

/-- The tokens of a text that are not blank, without their places. -/
def lex (cs : List Char) : List Token :=
  ((Lexer.tokensFrom 0 cs).map Token.bare).filter (·.kind != .whitespace)

theorem map_bare_tokens (source : String) :
    (tokens source).map Token.bare = lex source.toList := by
  rw [lex, List.filter_map]
  rfl

section Places

/-- Derivations do not depend on places. -/
theorem Derives.of_bare {p : Phrase} {ts : List Token} {e : Expr}
    (h : Derives p (ts.map Token.bare) e) : Derives p ts e := by
  generalize hus : ts.map Token.bare = us at h
  induction h generalizing ts with
  | operation hkind hop _ _ ihl ihr =>
    obtain ⟨as, _, rfl, hl, hrest⟩ := List.map_eq_append_iff.mp hus
    obtain ⟨t, bs, rfl, rfl, hr⟩ := List.map_eq_cons_iff.mp hrest
    exact .operation hkind hop (ihl hl) (ihr hr)
  | pair hop _ _ ihl ihr =>
    obtain ⟨as, _, rfl, hl, hrest⟩ := List.map_eq_append_iff.mp hus
    obtain ⟨t, bs, rfl, rfl, hr⟩ := List.map_eq_cons_iff.mp hrest
    exact .pair hop (ihl hl) (ihr hr)
  | more hop _ _ ihl ihr =>
    obtain ⟨as, _, rfl, hl, hrest⟩ := List.map_eq_append_iff.mp hus
    obtain ⟨t, bs, rfl, rfl, hr⟩ := List.map_eq_cons_iff.mp hrest
    exact .more hop (ihl hl) (ihr hr)
  | elements _ ih => exact .elements (ih hus)
  | inner hne _ ih => exact .inner hne (ih hus)
  | unsigned _ ih => exact .unsigned (ih hus)
  | sign hsign hop _ ih =>
    obtain ⟨t, bs, rfl, rfl, hr⟩ := List.map_eq_cons_iff.mp hus
    exact .sign hsign hop (ih hr)
  | int ht =>
    obtain ⟨t, rfl, rfl⟩ := List.map_eq_singleton_iff.mp hus
    exact .int ht
  | name ht =>
    obtain ⟨t, rfl, rfl⟩ := List.map_eq_singleton_iff.mp hus
    exact .name ht
  | paren ho hc _ ih =>
    obtain ⟨o, _, rfl, rfl, hrest⟩ := List.map_eq_cons_iff.mp hus
    obtain ⟨as, _, rfl, hin, hlast⟩ := List.map_eq_append_iff.mp hrest
    obtain ⟨c, rfl, rfl⟩ := List.map_eq_singleton_iff.mp hlast
    exact .paren ho hc (ih hin)
  | bracket ho hc _ ih =>
    obtain ⟨o, _, rfl, rfl, hrest⟩ := List.map_eq_cons_iff.mp hus
    obtain ⟨as, _, rfl, hin, hlast⟩ := List.map_eq_append_iff.mp hrest
    obtain ⟨c, rfl, rfl⟩ := List.map_eq_singleton_iff.mp hlast
    exact .bracket ho hc (ih hin)
  | thunk hf ho hc =>
    obtain ⟨f, _, rfl, rfl, hrest⟩ := List.map_eq_cons_iff.mp hus
    obtain ⟨o, _, rfl, rfl, hlast⟩ := List.map_eq_cons_iff.mp hrest
    obtain ⟨c, rfl, rfl⟩ := List.map_eq_singleton_iff.mp hlast
    exact .thunk hf ho hc
  | call hf ho hc _ ih =>
    obtain ⟨f, _, rfl, rfl, hrest⟩ := List.map_eq_cons_iff.mp hus
    obtain ⟨o, _, rfl, rfl, htail⟩ := List.map_eq_cons_iff.mp hrest
    obtain ⟨as, _, rfl, hin, hlast⟩ := List.map_eq_append_iff.mp htail
    obtain ⟨c, rfl, rfl⟩ := List.map_eq_singleton_iff.mp hlast
    exact .call hf ho hc (ih hin)

theorem map_bare_tokensFrom (start start' : Nat) (cs : List Char) :
    (Lexer.tokensFrom start cs).map Token.bare = (Lexer.tokensFrom start' cs).map Token.bare := by
  rcases cs with _ | ⟨c, rest⟩
  · simp [Lexer.tokensFrom]
  · rw [Lexer.tokensFrom, Lexer.tokensFrom, List.map_cons, List.map_cons]
    exact congrArg _ (map_bare_tokensFrom _ _ _)
termination_by cs.length
decreasing_by simp only [List.length_drop, List.length_cons]; omega

end Places

theorem munch_of_name {c : Char} {rest : List Char} (h : (Lexer.munch c rest).1 = .name) :
    isNameStart c = true ∧ (Lexer.munch c rest).2 = rest.takeWhile isNameChar := by
  have hmem := Lexer.munch_mem_pattern c rest
  rw [h] at hmem
  obtain ⟨hc, -⟩ := cons_mem_oneOf_mul.mp hmem
  exact ⟨hc, by rw [Lexer.munch_of_isNameStart hc]⟩

/-- What does not go on with a name or a number. -/
def Breaks (cs : List Char) : Prop := ∀ c ∈ cs.head?, isNameChar c = false ∧ c ≠ '.'

section Lex

variable {c : Char} {cs rest : List Char}

theorem lex_cons (c : Char) (rest : List Char) :
    lex (c :: rest) =
      if (Lexer.munch c rest).1 = .whitespace then lex (rest.drop (Lexer.munch c rest).2.length)
      else .of (Lexer.munch c rest).1 (String.ofList (c :: (Lexer.munch c rest).2)) ::
        lex (rest.drop (Lexer.munch c rest).2.length) := by
  unfold lex
  rw [Lexer.tokensFrom, List.map_cons, map_bare_tokensFrom _ 0, List.filter_cons]
  by_cases hk : (Lexer.munch c rest).1 = .whitespace
  · simp [hk, Token.bare, Token.of]
  · simp [hk, Token.bare, Token.of]

theorem drop_length_takeWhile (p : Char → Bool) (cs : List Char) :
    cs.drop (cs.takeWhile p).length = cs.dropWhile p := by
  induction cs with
  | nil => rfl
  | cons c cs ih =>
    rw [List.takeWhile_cons, List.dropWhile_cons]
    split
    · simpa using ih
    · rfl

theorem lex_of_isBlank (h : isBlank c = true) (rest : List Char) :
    lex (c :: rest) = lex (rest.dropWhile isBlank) := by
  rw [lex_cons, Lexer.munch_of_isBlank h, if_pos rfl, drop_length_takeWhile]

theorem lex_blank (rest : List Char) : lex (' ' :: rest) = lex rest := by
  rw [lex_of_isBlank (by decide)]
  rcases rest with _ | ⟨c, rest⟩
  · rfl
  · rw [List.dropWhile_cons]
    split
    · rename_i h
      exact (lex_of_isBlank h rest).symm
    · rfl

/-- A mark is a token, whatever follows. -/
theorem lex_mark {kind : TokenKind} (h : Lexer.munch c rest = (kind, []))
    (hk : kind ≠ .whitespace) :
    lex (c :: rest) = .of kind (String.singleton c) :: lex rest := by
  rw [lex_cons, h, if_neg hk]
  rfl

theorem takeWhile_of_breaks {p : Char → Bool} (hcs : ∀ c ∈ cs, p c = true)
    (hrest : ∀ c ∈ rest.head?, p c = false) :
    (cs ++ rest).takeWhile p = cs ∧ (cs ++ rest).dropWhile p = rest := by
  rw [List.takeWhile_append_of_pos hcs, List.dropWhile_append_of_pos hcs]
  rcases rest with _ | ⟨c, rest⟩
  · simp
  · have := hrest c rfl
    simp [this]

theorem lex_name (hc : isNameStart c = true) (hcs : ∀ c ∈ cs, isNameChar c = true)
    (hrest : Breaks rest) :
    lex (c :: cs ++ rest) = .of .name (String.ofList (c :: cs)) :: lex rest := by
  obtain ⟨htake, -⟩ := takeWhile_of_breaks hcs fun c hc => (hrest c hc).1
  rw [List.cons_append, lex_cons, Lexer.munch_of_isNameStart hc, htake, if_neg nofun,
    List.drop_left]

theorem lex_digits (hc : c.isDigit = true) (hcs : ∀ c ∈ cs, c.isDigit = true)
    (hrest : Breaks rest) :
    lex (c :: cs ++ rest) = .of .int (String.ofList (c :: cs)) :: lex rest := by
  obtain ⟨htake, hdrop⟩ := takeWhile_of_breaks hcs fun c hc => isDigit_of_isNameChar (hrest c hc).1
  have hdot : ∀ tail, (cs ++ rest).dropWhile Char.isDigit ≠ '.' :: tail := by
    rintro tail hdot
    rw [hdrop] at hdot
    subst hdot
    exact (hrest '.' rfl).2 rfl
  rw [List.cons_append, lex_cons, Lexer.munch_of_isDigit hc hdot, htake, if_neg nofun,
    List.drop_left]

end Lex

end Formulary
