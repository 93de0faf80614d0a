import Mathlib.Data.List.TakeWhile
import Formulary.Token.Lexer

/-!
Where tokens stand. The tokens of a text follow each other without a gap, and each of them is the
piece of the text that its region covers. Regions count bytes, so what is said of them is said of
pieces of the text first.
-/

namespace Formulary

section Bytes

variable {as bs cs : List Char}

@[simp] theorem byteLength_append (as bs : List Char) :
    byteLength (as ++ bs) = byteLength as + byteLength bs := by
  induction as with
  | nil => simp [byteLength]
  | cons c as ih => simp only [List.cons_append, byteLength, ih, Nat.add_assoc]

theorem byteLength_toList (source : String) : byteLength source.toList = source.utf8ByteSize := by
  have hofList : ∀ cs, (String.ofList cs).utf8ByteSize = byteLength cs := by
    intro cs
    induction cs with
    | nil => rfl
    | cons c cs ih =>
      rw [String.ofList_cons, String.utf8ByteSize_append, String.utf8ByteSize_singleton, ih,
        byteLength]
  rw [← hofList, String.ofList_toList]

theorem byteLength_pos (h : cs ≠ []) : 0 < byteLength cs := by
  cases cs with
  | nil => exact absurd rfl h
  | cons c cs => exact Nat.add_pos_left c.utf8Size_pos _

theorem dropBytes_append (as bs : List Char) : dropBytes (byteLength as) (as ++ bs) = some bs := by
  induction as with
  | nil => cases bs <;> rfl
  | cons c as ih =>
    obtain ⟨n, hn⟩ : ∃ n, byteLength (c :: as) = n + 1 :=
      Nat.exists_eq_add_one.mpr (byteLength_pos nofun)
    have hsize : byteLength (c :: as) = c.utf8Size + byteLength as := rfl
    rw [hn, List.cons_append, dropBytes, if_pos (by omega),
      show n + 1 - c.utf8Size = byteLength as by omega, ih]

theorem takeBytes_append (as bs : List Char) : takeBytes (byteLength as) (as ++ bs) = some as := by
  induction as with
  | nil => cases bs <;> rfl
  | cons c as ih =>
    obtain ⟨n, hn⟩ : ∃ n, byteLength (c :: as) = n + 1 :=
      Nat.exists_eq_add_one.mpr (byteLength_pos nofun)
    have hsize : byteLength (c :: as) = c.utf8Size + byteLength as := rfl
    rw [hn, List.cons_append, takeBytes, if_pos (by omega),
      show n + 1 - c.utf8Size = byteLength as by omega, ih]
    rfl

/-- The text of a region that starts and stops between characters. -/
theorem Span.text_of_append {source : String} (h : source.toList = as ++ bs ++ cs) :
    Span.text source ⟨byteLength as, byteLength as + byteLength bs⟩ = String.ofList bs := by
  simp [text, h, dropBytes_append, takeBytes_append]

end Bytes

/-- A place between two characters of a text, or at one of its ends. -/
def Boundary (source : String) (place : Nat) : Prop :=
  ∃ before after, source.toList = before ++ after ∧ byteLength before = place

theorem Boundary.le {source : String} {place : Nat} (h : Boundary source place) :
    place ≤ byteLength source.toList := by
  obtain ⟨before, after, hsource, rfl⟩ := h
  rw [hsource, byteLength_append]
  exact Nat.le_add_right _ _

/-- A region of whole characters, and not of none. -/
structure Span.Solid (source : String) (span : Span) : Prop where
  start_lt_stop : span.start < span.stop
  start : Boundary source span.start
  stop : Boundary source span.stop

theorem Span.Solid.upTo {source : String} {first last : Span} (h : first.Solid source)
    (h' : last.Solid source) (hle : first.stop ≤ last.start) : (first.upTo last).Solid source :=
  ⟨Nat.lt_trans (Nat.lt_of_lt_of_le h.start_lt_stop hle) h'.start_lt_stop, h.start, h'.stop⟩

/-- Tokens that make up a text without a gap; its first byte has the number `start`. -/
inductive Tiles : Nat → List Char → List Token → Prop
  | nil {start : Nat} : Tiles start [] []
  | cons {start : Nat} {kind : TokenKind} {piece rest : List Char} {ts : List Token} :
      piece ≠ [] → Tiles (start + byteLength piece) rest ts →
      Tiles start (piece ++ rest)
        (⟨kind, String.ofList piece, ⟨start, start + byteLength piece⟩⟩ :: ts)

namespace Tiles

variable {start : Nat} {cs : List Char} {t : Token} {ts : List Token}

/-- Every token is a piece of the text, and its region covers the piece. -/
theorem exists_piece (h : Tiles start cs ts) (ht : t ∈ ts) :
    ∃ before piece after, cs = before ++ piece ++ after ∧ piece ≠ [] ∧
      t.lexeme = String.ofList piece ∧
      t.span = ⟨start + byteLength before, start + (byteLength before + byteLength piece)⟩ := by
  induction h with
  | nil => simp at ht
  | @cons start kind piece rest ts hne _ ih =>
    rcases List.mem_cons.mp ht with rfl | ht
    · exact ⟨[], piece, rest, rfl, hne, rfl, by simp [byteLength]⟩
    · obtain ⟨before, piece', after, rfl, hne', hlexeme, hspan⟩ := ih ht
      refine ⟨piece ++ before, piece', after, by simp, hne', hlexeme, ?_⟩
      simp [hspan, Nat.add_assoc]

/-- Every token starts where the one before it stops, and the last one stops with the text. -/
theorem start_cons_stops (h : Tiles start cs ts) :
    start :: ts.map (·.span.stop) = ts.map (·.span.start) ++ [start + byteLength cs] := by
  induction h with
  | nil => rfl
  | cons _ _ ih =>
    rw [List.map_cons, List.map_cons, ih, byteLength_append, ← Nat.add_assoc, List.cons_append]

theorem pairwise (h : Tiles start cs ts) :
    ts.Pairwise fun t u => t.span.stop ≤ u.span.start := by
  induction h with
  | nil => exact .nil
  | cons _ h ih =>
    refine .cons (fun u hu => ?_) ih
    obtain ⟨before, piece, after, -, -, -, hspan⟩ := h.exists_piece hu
    rw [hspan]
    exact Nat.le_add_right _ _

end Tiles

namespace Lexer

theorem munch_prefix (c : Char) (rest : List Char) : (munch c rest).2 <+: rest := by
  unfold munch
  split
  · exact List.takeWhile_prefix _
  split
  · exact List.takeWhile_prefix _
  split
  · split
    · rename_i tail hdrop
      have hrest : rest.takeWhile Char.isDigit ++ '.' :: tail = rest := by
        rw [← hdrop, List.takeWhile_append_dropWhile]
      have hprefix : rest.takeWhile Char.isDigit ++ '.' :: tail.takeWhile Char.isDigit <+:
          rest.takeWhile Char.isDigit ++ '.' :: tail := by
        rw [List.prefix_append_right_inj, List.cons_prefix_cons]
        exact ⟨rfl, List.takeWhile_prefix _⟩
      rwa [hrest] at hprefix
    · exact List.takeWhile_prefix _
  · exact List.nil_prefix

theorem tiles_tokensFrom (start : Nat) (cs : List Char) : Tiles start cs (tokensFrom start cs) := by
  induction start, cs using tokensFrom.induct with
  | case1 start =>
    rw [tokensFrom]
    exact .nil
  | case2 start c rest kind more hmunch stop ih =>
    obtain ⟨after, hafter⟩ := munch_prefix c rest
    rw [hmunch] at hafter
    simp only at hafter
    subst hafter
    rw [List.drop_left] at ih
    rw [tokensFrom, hmunch]
    simp only [List.drop_left]
    exact .cons (show c :: more ≠ [] from nofun) ih

end Lexer

section Tokens

variable {source : String} {t : Token}

theorem tiles_rawTokens (source : String) : Tiles 0 source.toList (rawTokens source) :=
  Lexer.tiles_tokensFrom 0 source.toList

/-- The tokens of a text stand in it in their order, apart from each other. -/
theorem pairwise_tokens (source : String) :
    (tokens source).Pairwise fun t u => t.span.stop ≤ u.span.start :=
  (tiles_rawTokens source).pairwise.filter _

/-- A token covers whole characters of the text, and says what they say. -/
theorem solid_and_text_of_mem_tokens (ht : t ∈ tokens source) :
    t.span.Solid source ∧ t.span.text source = t.lexeme := by
  obtain ⟨before, piece, after, hsource, hne, hlexeme, hspan⟩ :=
    (tiles_rawTokens source).exists_piece (List.mem_filter.mp ht).1
  have hpos := byteLength_pos hne
  simp only [Nat.zero_add] at hspan
  rw [hspan, hlexeme]
  refine ⟨⟨?_, ?_, ?_⟩, Span.text_of_append hsource⟩
  · simpa using hpos
  · exact ⟨before, piece ++ after, by simpa using hsource, rfl⟩
  · exact ⟨before ++ piece, after, hsource, by simp⟩

end Tokens

end Formulary
