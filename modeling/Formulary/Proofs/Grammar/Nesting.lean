import Formulary.Proofs.Grammar.Phrase

/-!
Nesting of delimiters. A stack of the open delimiters follows a token list; the list is nested if
the stack is empty at its end and every closing delimiter met its own opening one. All phrases of
the grammar are nested.
-/

namespace Formulary

/-- The delimiters open after a token, the innermost first, if it closes no other one than that. -/
def nestStep? (opened : List Delimiter) (t : Token) : Option (List Delimiter) :=
  match t.kind, opened with
  | .openParen, _ => some (.paren :: opened)
  | .openBracket, _ => some (.bracket :: opened)
  | .closeParen, .paren :: rest => some rest
  | .closeBracket, .bracket :: rest => some rest
  | .closeParen, _ | .closeBracket, _ => none
  | _, _ => some opened

/-- The delimiters open after tokens that follow `opened`. -/
def nest? (opened : List Delimiter) (ts : List Token) : Option (List Delimiter) :=
  ts.foldlM nestStep? opened

/-- The delimiters of a token list pair off, and no two pairs cross. -/
def Nested (ts : List Token) : Prop := nest? [] ts = some []

instance (ts : List Token) : Decidable (Nested ts) := inferInstanceAs (Decidable (_ = _))

/-- Whether a token opens or closes a group. -/
def Token.isDelimiter (t : Token) : Bool :=
  match t.kind with
  | .openParen | .closeParen | .openBracket | .closeBracket => true
  | _ => false

theorem Token.isDelimiter_of_isWord {t : Token} (h : t.isWord) : t.isDelimiter = false := by
  simp only [isWord, Bool.and_eq_true, beq_iff_eq] at h
  simp [isDelimiter, h.1]

theorem Token.operator?_of_isWord {t : Token} (h : t.isWord) : t.operator? = none := by
  simp only [isWord, Bool.and_eq_true, beq_iff_eq, bne_iff_ne] at h
  simp [operator?, isRoot, h.1, h.2]

theorem Token.isDelimiter_of_operator? {t : Token} {level : Level} (h : t.operator? = some level) :
    t.isDelimiter = false := by
  unfold operator? at h
  unfold isDelimiter
  cases hk : t.kind <;> simp_all

theorem Token.isDelimiter_of_opening {t : Token} {d : Delimiter} (h : t.kind = d.opening) :
    t.isDelimiter = true := by
  cases d <;> simp_all [isDelimiter, Delimiter.opening]

theorem Token.isDelimiter_of_closing {t : Token} {d : Delimiter} (h : t.kind = d.closing) :
    t.isDelimiter = true := by
  cases d <;> simp_all [isDelimiter, Delimiter.closing]

section Steps

variable {t : Token} {d : Delimiter} {opened : List Delimiter}

theorem nestStep?_opening (h : t.kind = d.opening) : nestStep? opened t = some (d :: opened) := by
  cases d <;> simp_all [nestStep?, Delimiter.opening]

theorem nestStep?_closing (h : t.kind = d.closing) : nestStep? (d :: opened) t = some opened := by
  cases d <;> simp_all [nestStep?, Delimiter.closing]

/-- A closing delimiter fits on nothing but its own opening one. -/
theorem exists_of_nestStep?_closing {rest : List Delimiter} (h : t.kind = d.closing)
    (hs : nestStep? opened t = some rest) : opened = d :: rest := by
  rcases opened with _ | ⟨d', opened⟩
  · cases d <;> simp_all [nestStep?, Delimiter.closing]
  · cases d <;> cases d' <;> simp_all [nestStep?, Delimiter.closing]

theorem nestStep?_other (h : t.isDelimiter = false) : nestStep? opened t = some opened := by
  unfold Token.isDelimiter at h
  unfold nestStep?
  cases hk : t.kind <;> simp_all

/-- What is open further out plays no part. -/
theorem nestStep?_append {rest outer : List Delimiter} (h : nestStep? opened t = some rest) :
    nestStep? (opened ++ outer) t = some (rest ++ outer) := by
  by_cases ht : t.isDelimiter
  · unfold Token.isDelimiter at ht
    unfold nestStep? at h ⊢
    rcases opened with _ | ⟨d, opened⟩
    · cases hk : t.kind <;> simp_all
      all_goals subst h; rfl
    · cases d <;> cases hk : t.kind <;> simp_all
      all_goals subst h; rfl
  · rw [nestStep?_other (by simpa using ht)] at h ⊢
    simp_all

end Steps

theorem nest?_cons (opened : List Delimiter) (t : Token) (ts : List Token) :
    nest? opened (t :: ts) = (nestStep? opened t).bind (nest? · ts) := rfl

theorem nest?_append (opened : List Delimiter) (ts us : List Token) :
    nest? opened (ts ++ us) = (nest? opened ts).bind (nest? · us) := List.foldlM_append

theorem nest?_outer {opened rest : List Delimiter} (outer : List Delimiter) {ts : List Token}
    (h : nest? opened ts = some rest) : nest? (opened ++ outer) ts = some (rest ++ outer) := by
  induction ts generalizing opened with
  | nil =>
    cases h
    rfl
  | cons t ts ih =>
    rw [nest?_cons, Option.bind_eq_some_iff] at h ⊢
    obtain ⟨next, hstep, hrest⟩ := h
    exact ⟨next ++ outer, nestStep?_append hstep, ih hrest⟩

/-- Nested tokens leave what is open as it was. -/
theorem Nested.nest?_eq {ts : List Token} (h : Nested ts) (opened : List Delimiter) :
    nest? opened ts = some opened := nest?_outer opened h

theorem Nested.append {ts us : List Token} (hts : Nested ts) (hus : Nested us) :
    Nested (ts ++ us) := by
  rw [Nested, nest?_append, hts.nest?_eq]
  exact hus

theorem nested_cons {t : Token} {ts : List Token} (h : t.isDelimiter = false) :
    Nested (t :: ts) ↔ Nested ts := by
  rw [Nested, nest?_cons, nestStep?_other h]
  rfl

theorem Nested.group {d : Delimiter} {opening closing : Token} {ts : List Token}
    (ho : opening.kind = d.opening) (hc : closing.kind = d.closing) (h : Nested ts) :
    Nested (opening :: (ts ++ [closing])) := by
  rw [Nested, nest?_cons, nestStep?_opening ho, Option.bind_some, nest?_append, h.nest?_eq,
    Option.bind_some, nest?_cons, nestStep?_closing hc]
  rfl

theorem Nested.call {d : Delimiter} {opening closing : Token} {ts : List Token}
    (callee : Option Token) (hcallee : ∀ t ∈ callee, t.isWord) (ho : opening.kind = d.opening)
    (hc : closing.kind = d.closing) (h : Nested ts) :
    Nested (callee.toList ++ opening :: (ts ++ [closing])) := by
  cases callee with
  | none => exact h.group ho hc
  | some t =>
    exact (nested_cons (Token.isDelimiter_of_isWord (hcallee t rfl))).mpr (h.group ho hc)

/-- Within a group the innermost delimiters are those opened after it. -/
theorem not_nested_of_inside {d : Delimiter} {opening : Token} {ts us : List Token}
    (ho : opening.kind = d.opening) (h : Nested (ts ++ us)) : ¬ Nested (opening :: ts) := by
  intro hn
  rw [Nested, nest?_append, Option.bind_eq_some_iff] at h
  obtain ⟨inner, hts, -⟩ := h
  rw [Nested, nest?_cons, nestStep?_opening ho, Option.bind_some] at hn
  have hd := nest?_outer [d] hts
  rw [List.nil_append, hn] at hd
  simp at hd

/-- A group ends at the first delimiter that leaves its contents nested. -/
theorem Nested.eq_of_closing {d : Delimiter} {c c' : Token} {ts us vs ws : List Token}
    (hc : c.kind = d.closing) (hc' : c'.kind = d.closing) (hts : Nested ts) (hus : Nested us)
    (h : ts ++ c :: vs = us ++ c' :: ws) : ts = us ∧ c = c' ∧ vs = ws := by
  have tail {ts us : List Token} {c : Token} (hc : c.kind = d.closing) (hts : Nested ts)
      {x : Token} {xs : List Token} (hus : Nested us) (h : us = ts ++ x :: xs) (hx : x = c) :
      False := by
    subst hx h
    rw [Nested, nest?_append, hts.nest?_eq, Option.bind_some, nest?_cons,
      Option.bind_eq_some_iff] at hus
    obtain ⟨rest, hstep, -⟩ := hus
    exact absurd (exists_of_nestStep?_closing hc hstep) (by simp)
  rcases List.append_eq_append_iff.mp h with ⟨xs, hus', hvs⟩ | ⟨xs, hts', hws⟩
  · rcases xs with _ | ⟨x, xs⟩
    · simp_all
    · simp only [List.cons_append, List.cons.injEq] at hvs
      exact (tail hc hts hus hus' hvs.1.symm).elim
  · rcases xs with _ | ⟨x, xs⟩
    · simp_all
    · simp only [List.cons_append, List.cons.injEq] at hws
      exact (tail hc' hus hts hts' hws.1.symm).elim

theorem Derives.nested {p : Phrase} {ts : List Token} {e : Expr} (h : Derives p ts e) :
    Nested ts := by
  induction h with
  | operation _ hop _ _ ihl ihr | pair hop _ _ ihl ihr | more hop _ _ ihl ihr =>
    exact ihl.append ((nested_cons (Token.isDelimiter_of_operator? hop)).mpr ihr)
  | elements _ ih | inner _ _ ih | unsigned _ ih => exact ih
  | sign _ hop _ ih => exact (nested_cons (Token.isDelimiter_of_operator? hop)).mpr ih
  | int ht => exact (nested_cons (by simp [Token.isDelimiter, ht])).mpr rfl
  | name ht => exact (nested_cons (Token.isDelimiter_of_isWord ht)).mpr rfl
  | paren ho hc _ ih => exact ih.group (d := .paren) ho hc
  | bracket ho hc _ ih => exact ih.group (d := .bracket) ho hc
  | @thunk callee _ _ hf ho hc =>
    have hnil : Nested [] := rfl
    exact hnil.call (some callee) (d := .paren) (by simpa using hf) ho hc
  | @call callee _ _ _ _ hf ho hc _ ih =>
    exact ih.call (some callee) (d := .paren) (by simpa using hf) ho hc

end Formulary
