import Formulary.Proofs.Text.Lexing

/-!
Texts of phrases put together. Each rule of the grammar has its text, and an operand is written in
its place as it is where the place asks for no group, and in parentheses elsewhere.
-/

namespace Formulary

namespace Derives

variable {ts : List Token} {e : Expr} {level l : Level}

theorem of_next (h : Derives (.plain level.next) ts e) : Derives (.plain level) ts e := by
  cases level with
  | subtraction => exact .inner (by decide) (.unsigned h)
  | atom => exact h
  | _ => exact .inner (by decide) h

/-- What binds more tightly stands wherever something weaker may. -/
theorem weaken (h : Derives (.plain l) ts e) (hle : level ≤ l) : Derives (.plain level) ts e := by
  induction hn : l.rank - level.rank generalizing level with
  | zero =>
    have heq : level = l := by
      revert hle hn
      cases level <;> cases l <;> decide
    exact heq ▸ h
  | succ n ih =>
    have hne : level ≠ .atom := by
      rintro rfl
      revert hn
      cases l <;> simp [Level.rank]
    have hnext := Level.rank_next hne
    have hle' : level.next ≤ l := by
      change level.next.rank ≤ l.rank
      omega
    exact of_next (ih hle' (by omega))

theorem toRight (h : Derives (.plain l) ts e) (hlt : level < l) : Derives (.right level) ts e := by
  have hle : level.next ≤ l := by
    revert hlt
    cases level <;> cases l <;> decide
  have hnext := h.weaken hle
  cases level with
  | equality | sequence | addition => exact hnext
  | _ => exact .unsigned hnext

end Derives

/-- The text is one of a phrase, whatever breaks off its last token. -/
def Writes (p : Phrase) (text : String) (e : Expr) : Prop :=
  ∃ ts, (∀ rest, Breaks rest → lex (text.toList ++ rest) = ts ++ lex rest) ∧ Derives p ts e

/-- The token of an operator, as it is written between its operands. -/
def BinaryKind.token : BinaryKind → Token
  | .addition => .of .plus "+"
  | .subtraction => .of .minus "-"
  | .multiplication => .of .star "*"
  | .division => .of .slash "/"
  | .power => .of .caret "^"
  | .root => .of .name "v"
  | .equality => .of .equals "="

theorem BinaryKind.token_operator? (kind : BinaryKind) :
    kind.token.operator? = some kind.level := by
  cases kind <;> rfl

theorem BinaryKind.binary?_level (kind : BinaryKind) : kind.level.binary? = some kind := by
  cases kind <;> rfl

theorem BinaryKind.level_ne_atom (kind : BinaryKind) : kind.level ≠ .atom := by
  cases kind <;> decide

theorem lex_between (kind : BinaryKind) (rest : List Char) :
    lex (kind.between.toList ++ rest) = kind.token :: lex rest := by
  cases kind with
  | root =>
    change lex (' ' :: 'v' :: ' ' :: rest) = _
    rw [lex_blank]
    have hbreaks : Breaks (' ' :: rest) := by simp [Breaks, isNameChar]
    have hname : lex (['v'] ++ ' ' :: rest) = _ := lex_name rfl (by simp) hbreaks
    exact hname.trans (congrArg _ (lex_blank rest))
  | _ => exact lex_mark rfl (by simp)

theorem breaks_between (kind : BinaryKind) (rest : List Char) :
    Breaks (kind.between.toList ++ rest) := by
  cases kind <;> simp [BinaryKind.between, BinaryKind.tag, Breaks, isNameChar]

/-- Whatever breaks off its last token, the text has the given tokens. -/
def Spells (text : String) (ts : List Token) : Prop :=
  ∀ rest, Breaks rest → lex (text.toList ++ rest) = ts ++ lex rest

namespace Spells

variable {s t : String} {ts us : List Token}

/-- Texts side by side, with what stands between them. -/
theorem append {b : String} {op : Token} (hs : Spells s ts) (ht : Spells t us)
    (hb : ∀ rest, lex (b.toList ++ rest) = op :: lex rest)
    (hbreaks : ∀ rest, Breaks (b.toList ++ rest)) : Spells (s ++ b ++ t) (ts ++ op :: us) := by
  intro rest hrest
  rw [String.toList_append, String.toList_append, List.append_assoc, List.append_assoc,
    hs _ (hbreaks _), hb, ht _ hrest]
  simp

theorem operation (kind : BinaryKind) (hs : Spells s ts) (ht : Spells t us) :
    Spells (s ++ kind.between ++ t) (ts ++ kind.token :: us) :=
  hs.append ht (lex_between kind) (breaks_between kind)

theorem sign {kind : BinaryKind} (hkind : kind = .addition ∨ kind = .subtraction)
    (hs : Spells s ts) : Spells (kind.tag ++ s) (kind.token :: ts) := by
  intro rest hrest
  have hbetween : kind.tag = kind.between := by
    rcases hkind with rfl | rfl <;> rfl
  rw [String.toList_append, List.append_assoc, hbetween, lex_between, hs rest hrest,
    List.cons_append]

/-- A text in delimiters, the first of which may follow a name. -/
theorem enclosed {x y : String} {c : Token} (os : List Token) (hs : Spells s ts)
    (hx : ∀ rest, lex (x.toList ++ rest) = os ++ lex rest)
    (hy : ∀ rest, lex (y.toList ++ rest) = c :: lex rest)
    (hbreaks : ∀ rest, Breaks (y.toList ++ rest)) : Spells (x ++ s ++ y) (os ++ (ts ++ [c])) := by
  intro rest _
  rw [String.toList_append, String.toList_append, List.append_assoc, List.append_assoc, hx,
    hs _ (hbreaks rest), hy]
  simp

theorem paren (hs : Spells s ts) :
    Spells ("(" ++ s ++ ")") ([.of .openParen "("] ++ (ts ++ [.of .closeParen ")"])) :=
  hs.enclosed [.of .openParen "("] (fun _ => lex_mark rfl (by simp))
    (fun _ => lex_mark rfl (by decide)) fun _ => by simp [Breaks, isNameChar]

end Spells

namespace Writes

variable {p : Phrase} {s t : String} {e l r : Expr} {level : Level}

theorem parse_eq (h : Writes (.plain .equality) s e) : parse s = .ok e := by
  obtain ⟨ts, hlex, hd⟩ := h
  rw [parse_iff_derives]
  apply Derives.of_bare
  have hall := hlex [] (by simp [Breaks])
  rw [List.append_nil] at hall
  rw [map_bare_tokens, hall]
  simpa [lex, Lexer.tokensFrom] using hd

/-- Texts side by side, with what stands between them. -/
theorem append {q u : Phrase} {b : String} {op : Token} (hl : Writes p s l) (hr : Writes q t r)
    (hb : ∀ rest, lex (b.toList ++ rest) = op :: lex rest)
    (hbreaks : ∀ rest, Breaks (b.toList ++ rest))
    (f : ∀ ts us, Derives p ts l → Derives q us r → Derives u (ts ++ op :: us) e) :
    Writes u (s ++ b ++ t) e := by
  obtain ⟨ts, hts, hdl⟩ := hl
  obtain ⟨us, hus, hdr⟩ := hr
  exact ⟨ts ++ op :: us, Spells.append hts hus hb hbreaks, f ts us hdl hdr⟩

theorem operation (kind : BinaryKind) (hl : Writes (.plain kind.level) s l)
    (hr : Writes (.right kind.level) t r) :
    Writes (.plain kind.level) (s ++ kind.between ++ t) (.binaryOf kind l r) :=
  hl.append hr (lex_between kind) (breaks_between kind) fun _ _ =>
    .operation kind.binary?_level kind.token_operator?

theorem sign {kind : BinaryKind} (hkind : kind = .addition ∨ kind = .subtraction)
    (h : Writes (.signed level) s e) : Writes (.signed level) (kind.tag ++ s) (.signed kind e) := by
  obtain ⟨ts, hlex, hd⟩ := h
  exact ⟨kind.token :: ts, Spells.sign hkind hlex, .sign hkind kind.token_operator? hd⟩

theorem comma {q u : Phrase} (hl : Writes p s l) (hr : Writes q t r)
    (f : ∀ ts us, Derives p ts l → Derives q us r →
      Derives u (ts ++ .of .comma "," :: us) e) : Writes u (s ++ "," ++ t) e :=
  hl.append hr (fun _ => lex_mark rfl (by decide)) (fun _ => by simp [Breaks, isNameChar]) f

theorem pair (hl : Writes (.plain .addition) s l) (hr : Writes (.plain .addition) t r) :
    Writes .elements (s ++ "," ++ t) (.nary .sequence [l, r]) :=
  hl.comma hr fun _ _ => .pair rfl

theorem more {es : List Expr} (hl : Writes .elements s (.nary .sequence es))
    (hr : Writes (.plain .addition) t r) :
    Writes .elements (s ++ "," ++ t) (.nary .sequence (es ++ [r])) :=
  hl.comma hr fun _ _ => .more rfl

/-- A text in delimiters, the first of which may follow a name. -/
theorem enclosed {q : Phrase} {x y : String} {c : Token} (os : List Token) (h : Writes p s e)
    (hx : ∀ rest, lex (x.toList ++ rest) = os ++ lex rest)
    (hy : ∀ rest, lex (y.toList ++ rest) = c :: lex rest)
    (hbreaks : ∀ rest, Breaks (y.toList ++ rest))
    (f : ∀ ts, Derives p ts e → Derives q (os ++ (ts ++ [c])) r) : Writes q (x ++ s ++ y) r := by
  obtain ⟨ts, hlex, hd⟩ := h
  exact ⟨os ++ (ts ++ [c]), Spells.enclosed os hlex hx hy hbreaks, f ts hd⟩

theorem paren (h : Writes (.plain .equality) s e) :
    Writes (.plain .atom) ("(" ++ s ++ ")") (.unary .paren e) := by
  obtain ⟨ts, hlex, hd⟩ := h
  exact ⟨_, Spells.paren hlex, .paren rfl rfl hd⟩

theorem bracket (h : Writes (.plain .equality) s e) :
    Writes (.plain .atom) ("[" ++ s ++ "]") (.unary .bracket e) :=
  h.enclosed [.of .openBracket "["] (fun _ => lex_mark rfl (by simp))
    (fun _ => lex_mark rfl (by decide)) (fun _ => by simp [Breaks, isNameChar])
    fun _ => .bracket rfl rfl

theorem map {q : Phrase} (h : Writes p s e) (f : ∀ ts, Derives p ts e → Derives q ts r) :
    Writes q s r := by
  obtain ⟨ts, hlex, hd⟩ := h
  exact ⟨ts, hlex, f ts hd⟩

end Writes

/-- Whether a text is a single name to the lexer. -/
def isIdentifier (name : String) : Bool :=
  match name.toList with
  | [] => false
  | c :: cs => isNameStart c && cs.all isNameChar

/-- Names of symbols and functions: every identifier but that of the root operator. -/
def IsName (name : String) : Prop := isIdentifier name = true ∧ name ≠ rootName

instance (name : String) : Decidable (IsName name) := inferInstanceAs (Decidable (_ ∧ _))

section Names

variable {name s : String} {e : Expr}

theorem IsName.lex_append (h : IsName name) {rest : List Char} (hrest : Breaks rest) :
    lex (name.toList ++ rest) = .of .name name :: lex rest := by
  have hid := h.1
  unfold isIdentifier at hid
  rcases hname : name.toList with _ | ⟨c, cs⟩
  · simp [hname] at hid
  · simp only [hname, Bool.and_eq_true, List.all_eq_true] at hid
    rw [lex_name hid.1 hid.2 hrest, ← hname, String.ofList_toList]

theorem IsName.isWord (h : IsName name) : (Token.of .name name).isWord := by
  simp [Token.isWord, Token.of, h.2]

theorem IsName.writes (h : IsName name) : Writes (.plain .atom) name (.named name) :=
  ⟨[.of .name name], fun _ hrest => h.lex_append hrest, .name h.isWord⟩

theorem IsName.writes_thunk (h : IsName name) :
    Writes (.plain .atom) (name ++ "()") (.call name []) := by
  refine ⟨[.of .name name, .of .openParen "(", .of .closeParen ")"], ?_,
    .thunk h.isWord rfl rfl⟩
  intro rest _
  have hname : lex (name.toList ++ '(' :: ')' :: rest) = _ :=
    h.lex_append (by simp [Breaks, isNameChar])
  have hopen : lex ('(' :: ')' :: rest) = .of .openParen "(" :: _ := lex_mark rfl (by simp)
  have hclose : lex (')' :: rest) = .of .closeParen ")" :: _ := lex_mark rfl (by simp)
  simpa [hopen, hclose] using hname

theorem IsName.writes_call (h : IsName name) (hs : Writes (.plain .equality) s e) :
    Writes (.plain .atom) (name ++ "(" ++ s ++ ")") (.call name e.arguments) := by
  refine hs.enclosed [.of .name name, .of .openParen "("] ?_
    (fun _ => lex_mark rfl (by decide)) (fun _ => by simp [Breaks, isNameChar])
    fun _ => .call h.isWord rfl rfl
  intro rest
  have hopen : lex ('(' :: rest) = .of .openParen "(" :: lex rest := lex_mark rfl (by simp)
  rw [String.toList_append, List.append_assoc]
  exact (h.lex_append (by simp [Breaks, isNameChar])).trans (congrArg _ hopen)

end Names

end Formulary
