import Mathlib.Data.List.DropRight
import Formulary.Proofs.Text.Lexing
import Formulary.Session.Command

/-!
Texts that name a value. A text that reads as a symbol is a name and blanks around it, so what is
left of it without the white space at both ends is the name alone.
-/

namespace Formulary

/-- A phrase whose tree is a symbol is one word. -/
theorem Derives.exists_word {p : Phrase} {ts : List Token} {e : Expr} {name : String}
    (h : Derives p ts e) (he : e.symbolName? = some name) : ∃ t, ts = [t] ∧ t.isWord := by
  induction h with
  | elements _ ih | inner _ _ ih | unsigned _ ih => exact ih he
  | name ht => exact ⟨_, rfl, ht⟩
  | _ => cases he

section Blanks

variable {c : Char} {cs rest : List Char}

theorem isWhiteSpace_of_isBlank (h : isBlank c = true) : isWhiteSpace c = true := by
  simp only [isBlank, Bool.or_eq_true, beq_iff_eq] at h
  rcases h with ((rfl | rfl) | rfl) | rfl <;> decide

theorem munch_of_whitespace (h : (Lexer.munch c rest).1 = .whitespace) :
    isBlank c = true ∧ (Lexer.munch c rest).2 = rest.takeWhile isBlank := by
  unfold Lexer.munch at h ⊢
  by_cases hblank : isBlank c = true
  · simp [hblank]
  · rw [if_neg hblank] at h
    by_cases hname : isNameStart c = true
    · simp [hname] at h
    · rw [if_neg hname] at h
      by_cases hdigit : c.isDigit = true
      · rw [if_pos hdigit] at h
        split at h <;> cases h
      · rw [if_neg hdigit] at h
        change TokenKind.ofMark c = .whitespace at h
        unfold TokenKind.ofMark at h
        split at h <;> cases h

theorem isBlank_of_tokensFrom (start : Nat) (cs : List Char)
    (h : ∀ t ∈ Lexer.tokensFrom start cs, t.kind = .whitespace) : ∀ c ∈ cs, isBlank c = true := by
  induction start, cs using Lexer.tokensFrom.induct with
  | case1 start => simp
  | case2 start c rest kind more hmunch stop ih =>
    rw [Lexer.tokensFrom, hmunch, List.forall_mem_cons] at h
    obtain ⟨hkind, h⟩ := h
    have hfirst : (Lexer.munch c rest).1 = .whitespace := by
      rw [hmunch]
      exact hkind
    obtain ⟨hc, hmore⟩ := munch_of_whitespace hfirst
    rw [hmunch] at hmore
    obtain rfl : more = rest.takeWhile isBlank := hmore
    have hrest := ih h
    rw [drop_length_takeWhile] at hrest
    refine List.forall_mem_cons.mpr ⟨hc, fun d hd => ?_⟩
    rw [← List.takeWhile_append_dropWhile (p := isBlank) (l := rest)] at hd
    rcases List.mem_append.mp hd with hd | hd
    · exact List.mem_takeWhile_imp hd
    · exact hrest d hd

/-- Whether a text neither starts nor ends with white space. -/
structure Trimmed (cs : List Char) : Prop where
  head : ∀ c ∈ cs.head?, isWhiteSpace c = false
  last : ∀ c ∈ cs.getLast?, isWhiteSpace c = false

theorem eq_false_of_mem_head? {p : Char → Bool} (hc : c ∈ (cs.dropWhile p).head?) :
    p c = false := by
  have h := List.head?_dropWhile_not p cs
  rwa [Option.mem_def.mp hc] at h

theorem trimmed_trim (cs : List Char) : Trimmed (Line.trim cs) := by
  constructor
  · intro c hc
    obtain ⟨rest, hrest⟩ := List.rdropWhile_prefix isWhiteSpace (Line.trimLeft cs)
    have hc : ((Line.trimLeft cs).rdropWhile isWhiteSpace).head? = some c := hc
    have hhead : (Line.trimLeft cs).head? = some c := by
      rw [← hrest, List.head?_append, hc, Option.some_or]
    exact eq_false_of_mem_head? hhead
  · intro c hc
    rw [Line.trim, List.getLast?_reverse] at hc
    exact eq_false_of_mem_head? hc

/-- A text that ends in no white space does not end in blanks. -/
theorem Trimmed.eq_nil_of_isBlank {before : List Char} (h : Trimmed (before ++ rest))
    (hrest : ∀ c ∈ rest, isBlank c = true) : rest = [] := by
  cases hlast : rest.getLast? with
  | none => exact List.getLast?_eq_none_iff.mp hlast
  | some d =>
    have hd := h.last d (by simp [List.getLast?_append, hlast])
    rw [isWhiteSpace_of_isBlank (hrest d (List.mem_of_getLast? hlast))] at hd
    cases hd

/-- A trimmed text of one word has one token, blanks included. -/
theorem rawTokens_of_word {source : String} {t : Token} (htrim : Trimmed source.toList)
    (h : tokens source = [t]) (ht : t.isWord) :
    rawTokens source = [⟨.name, source, ⟨0, byteLength source.toList⟩⟩] ∧ source ≠ rootName := by
  unfold Token.isWord at ht
  simp only [Bool.and_eq_true, beq_iff_eq, bne_iff_ne] at ht
  unfold tokens rawTokens at h
  unfold rawTokens
  cases hsource : source.toList with
  | nil => simp [hsource, Lexer.tokensFrom] at h
  | cons c rest =>
    rw [hsource] at htrim h
    rw [Lexer.tokensFrom] at h ⊢
    have hfirst : (Lexer.munch c rest).1 ≠ .whitespace := by
      intro hkind
      have hblank := isWhiteSpace_of_isBlank (munch_of_whitespace hkind).1
      rw [htrim.head c rfl] at hblank
      cases hblank
    simp only [List.filter_cons] at h
    rw [if_pos (by simpa using hfirst), List.cons.injEq] at h
    obtain ⟨rfl, hrest⟩ := h
    obtain ⟨-, hmore⟩ := munch_of_name ht.1
    have hblank := isBlank_of_tokensFrom _ _ (by simpa [List.filter_eq_nil_iff] using hrest)
    rw [hmore, drop_length_takeWhile] at hblank
    have hsplit : c :: rest = (c :: rest.takeWhile isNameChar) ++ rest.dropWhile isNameChar := by
      rw [List.cons_append, List.takeWhile_append_dropWhile]
    rw [hsplit] at htrim
    have hnil := htrim.eq_nil_of_isBlank hblank
    rw [hnil, List.append_nil] at hsplit
    simp only [hmore, ← hsplit] at ht ⊢
    rw [drop_length_takeWhile, hnil, ht.1]
    have hlexeme : String.ofList (c :: rest) = source := by rw [← hsource, String.ofList_toList]
    rw [hlexeme] at ht ⊢
    exact ⟨by simp [Lexer.tokensFrom], ht.2⟩

end Blanks

end Formulary
