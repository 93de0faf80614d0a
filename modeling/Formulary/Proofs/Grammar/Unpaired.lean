import Formulary.Proofs.Grammar.Extraction

/-!
How taking groups out fails. What is reported are tokens of the list itself, although groups were
taken out of it before: a delimiter that has no partner, or a pair of delimiters with a third one
between them.
-/

namespace Formulary

/-- The tokens that are items themselves, and not in a group. -/
def tokensAmong (items : List Item) : List Token :=
  items.filterMap fun
    | .token t => some t
    | .group .. => none

section TokensAmong

variable {t : Token} {items is js : List Item}

@[simp] theorem tokensAmong_nil : tokensAmong [] = [] := rfl

@[simp] theorem tokensAmong_token : tokensAmong (.token t :: items) = t :: tokensAmong items := rfl

@[simp] theorem tokensAmong_group (index : Nat) (span : Span) :
    tokensAmong (.group index span :: items) = tokensAmong items := rfl

@[simp] theorem tokensAmong_append : tokensAmong (is ++ js) = tokensAmong is ++ tokensAmong js :=
  List.filterMap_append

theorem mem_tokensAmong : t ∈ tokensAmong items ↔ .token t ∈ items := by
  induction items with
  | nil => simp
  | cons i items ih => cases i <;> simp [ih]

theorem sublist_tokensAmong_of_cons (item : Item) :
    (tokensAmong items).Sublist (tokensAmong (item :: items)) := by
  cases item with
  | token t => exact List.sublist_cons_self t _
  | group => exact .refl _

theorem tokensAmong_map (ts : List Token) : tokensAmong (ts.map .token) = ts := by
  induction ts with
  | nil => rfl
  | cons t ts ih => simp [ih]

end TokensAmong

namespace Group

/-- What is wrong with tokens whose delimiters do not pair off. -/
inductive Unpaired (ts : List Token) : ParseError → Prop
  | unclosed {d : Delimiter} {t : Token} :
      t ∈ ts → t.kind = d.opening → Unpaired ts ⟨.unclosedGroup true d, [t.span]⟩
  | stray {d : Delimiter} {t : Token} :
      t ∈ ts → t.kind = d.closing → Unpaired ts ⟨.unclosedGroup false d, [t.span]⟩
  | crossed {opening between closing : Token} :
      [opening, between, closing].Sublist ts →
      Unpaired ts ⟨.mismatchedGroup, [opening.span.upTo closing.span, between.span]⟩

section Unpaired

variable {d : Delimiter} {callee : Option Token} {opening : Token} {item : Item}
  {items items' : List Item} {ts us : List Token} {err : ParseError} {S S' : Store}

theorem Unpaired.mono (h : Unpaired ts err) (hsub : ts.Sublist us) : Unpaired us err := by
  cases h with
  | unclosed ht hkind => exact .unclosed (hsub.subset ht) hkind
  | stray ht hkind => exact .stray (hsub.subset ht) hkind
  | crossed hts => exact .crossed (hts.trans hsub)

theorem exists_token_of_strayBracket? {opened : List Span} {span : Span}
    (h : strayBracket? opened items = some span) :
    span ∈ opened ∨ ∃ t ∈ tokensAmong items, span = t.span := by
  induction items generalizing opened with
  | nil => exact .inl (List.mem_of_head? h)
  | cons i items ih =>
    have hlater {t : Token} (ht : t ∈ tokensAmong items) : t ∈ tokensAmong (i :: items) := by
      rw [mem_tokensAmong] at ht ⊢
      exact List.mem_cons_of_mem i ht
    unfold strayBracket? at h
    split at h
    · rename_i hopen
      obtain ⟨t, rfl, -⟩ := Item.exists_token_of_isA hopen
      rcases ih h with hspan | ⟨t', ht', rfl⟩
      · rcases List.mem_cons.mp hspan with rfl | hspan
        · exact .inr ⟨t, by simp, rfl⟩
        · exact .inl hspan
      · exact .inr ⟨t', hlater ht', rfl⟩
    · split at h
      · rename_i hclose
        obtain ⟨t, rfl, -⟩ := Item.exists_token_of_isA hclose
        cases opened with
        | nil =>
          cases h
          exact .inr ⟨t, by simp, rfl⟩
        | cons first opened =>
          rcases ih h with hspan | ⟨t', ht', rfl⟩
          · exact .inl (List.mem_cons_of_mem first hspan)
          · exact .inr ⟨t', hlater ht', rfl⟩
      · rcases ih h with hspan | ⟨t', ht', rfl⟩
        · exact .inl hspan
        · exact .inr ⟨t', hlater ht', rfl⟩

theorem close_unpaired (hkind : opening.kind = d.opening)
    (h : (close d callee opening items).run S = .error err S') :
    Unpaired (opening :: tokensAmong items) err := by
  unfold close at h
  rw [List.span_eq_takeWhile_dropWhile] at h
  cases hdrop : items.dropWhile (!·.isA d.closing) with
  | nil =>
    rw [hdrop] at h
    obtain ⟨rfl, -⟩ := run_throw_eq_error.mp h
    exact .unclosed (by simp) hkind
  | cons c after =>
    rw [hdrop] at h
    simp only at h
    split at h
    · rename_i stray hstray
      obtain ⟨rfl, -⟩ := run_throw_eq_error.mp h
      have hclosing : c.isA d.closing = true := by
        have := List.head?_dropWhile_not (!·.isA d.closing) items
        rw [hdrop] at this
        simpa using this
      obtain ⟨closing, rfl, -⟩ := Item.exists_token_of_isA hclosing
      cases d with
      | bracket => cases hstray
      | paren =>
        rcases exists_token_of_strayBracket? hstray with hnil | ⟨t, ht, rfl⟩
        · cases hnil
        refine .crossed (.cons_cons opening ?_)
        rw [← List.takeWhile_append_dropWhile (p := (!·.isA Delimiter.paren.closing)) (l := items),
          hdrop, tokensAmong_append]
        exact (List.singleton_sublist.mpr ht).append (List.singleton_sublist.mpr (by simp))
    · rcases run_bind_eq_error.mp h with h | ⟨_, _, -, h⟩
      · cases h
      · exact (run_pure_ne_error h).elim

theorem consider_token (d : Delimiter) (t : Token) (items : List Item) :
    consider d (.token t) items =
      if t.kind == d.opening then close d none t items else pure (.token t :: items) := rfl

theorem consider_unpaired (h : (consider d item items).run S = .error err S') :
    Unpaired (tokensAmong (item :: items)) err := by
  cases item with
  | group => exact (run_pure_ne_error h).elim
  | token t =>
    rw [consider_token] at h
    split at h
    · rename_i hkind
      exact close_unpaired (beq_iff_eq.mp hkind) h
    · exact (run_pure_ne_error h).elim

theorem tokensAmong_close (h : (close d callee opening items).run S = .ok items' S') :
    (tokensAmong items').Sublist (tokensAmong items) := by
  obtain ⟨inside, c, after, rfl, -, -, -, rfl, -⟩ := close_eq_ok.mp h
  rw [tokensAmong_group, ← List.singleton_append, ← List.append_assoc, tokensAmong_append]
  exact List.sublist_append_right _ _

theorem tokensAmong_consider (h : (consider d item items).run S = .ok items' S') :
    (tokensAmong items').Sublist (tokensAmong (item :: items)) := by
  cases item with
  | group =>
    obtain ⟨rfl, -⟩ := run_pure_eq_ok.mp h
    exact .refl _
  | token t =>
    rw [consider_token] at h
    split at h
    · exact (tokensAmong_close h).cons t
    · obtain ⟨rfl, -⟩ := run_pure_eq_ok.mp h
      exact .refl _

theorem sublist_tokensAmong_cons (item : Item)
    (h : (tokensAmong items').Sublist (tokensAmong items)) :
    (tokensAmong (item :: items')).Sublist (tokensAmong (item :: items)) := by
  cases item with
  | token t => exact h.cons_cons t
  | group => exact h

/-- A pass takes tokens away only. -/
theorem tokensAmong_pass {d : Delimiter} {items items' : List Item} {S S' : Store}
    (h : (pass d items).run S = .ok items' S') :
    (tokensAmong items').Sublist (tokensAmong items) := by
  match items with
  | [] =>
    obtain ⟨rfl, -⟩ := run_pure_eq_ok.mp h
    exact .refl _
  | [item] => exact tokensAmong_consider h
  | item :: next :: rest =>
    rw [pass] at h
    cases hcall : d.call? item next with
    | some call =>
      obtain ⟨callee, opening⟩ := call
      obtain ⟨-, rfl, rfl, -, -⟩ := Delimiter.call?_eq_some hcall
      rw [hcall] at h
      obtain ⟨left, T, hpass, hclose⟩ := run_bind_eq_ok.mp h
      exact ((tokensAmong_close hclose).trans (tokensAmong_pass hpass)).trans
        (List.sublist_append_right [callee, opening] _)
    | none =>
      rw [hcall] at h
      obtain ⟨left, T, hpass, hconsider⟩ := run_bind_eq_ok.mp h
      exact (tokensAmong_consider hconsider).trans
        (sublist_tokensAmong_cons item (tokensAmong_pass hpass))
termination_by items.length

/-- A pass fails at tokens of its list. -/
theorem pass_unpaired {d : Delimiter} {items : List Item} {err : ParseError} {S S' : Store}
    (h : (pass d items).run S = .error err S') : Unpaired (tokensAmong items) err := by
  match items with
  | [] => exact (run_pure_ne_error h).elim
  | [item] => exact consider_unpaired h
  | item :: next :: rest =>
    rw [pass] at h
    cases hcall : d.call? item next with
    | some call =>
      obtain ⟨callee, opening⟩ := call
      obtain ⟨rfl, rfl, rfl, -, hkind⟩ := Delimiter.call?_eq_some hcall
      rw [hcall] at h
      rcases run_bind_eq_error.mp h with h | ⟨left, T, hpass, h⟩
      · exact (pass_unpaired h).mono (List.sublist_append_right [callee, opening] _)
      · have hleft := (tokensAmong_pass hpass).cons_cons opening
        exact (close_unpaired hkind h).mono (hleft.cons callee)
    | none =>
      rw [hcall] at h
      rcases run_bind_eq_error.mp h with h | ⟨left, T, hpass, h⟩
      · exact (pass_unpaired h).mono (sublist_tokensAmong_of_cons item)
      · exact (consider_unpaired h).mono (sublist_tokensAmong_cons item (tokensAmong_pass hpass))
termination_by items.length

theorem refuseStray_unpaired (h : (refuseStray d items).run S = .error err S') :
    Unpaired (tokensAmong items) err := by
  unfold refuseStray at h
  split at h
  · rename_i stray hfind
    obtain ⟨t, rfl, hkind⟩ := Item.exists_token_of_isA (List.find?_some hfind)
    obtain ⟨rfl, -⟩ := run_throw_eq_error.mp h
    exact .stray (mem_tokensAmong.mpr (List.mem_of_find?_eq_some hfind)) hkind
  · exact (run_pure_ne_error h).elim

/-- Extraction fails at delimiters of its list that do not pair off. -/
theorem extract_unpaired (h : (extract items).run S = .error err S') :
    Unpaired (tokensAmong items) err := by
  rcases run_bind_eq_error.mp h with h | ⟨is, T, hparens, h⟩
  · exact pass_unpaired h
  have hsub := tokensAmong_pass hparens
  rcases run_bind_eq_error.mp h with h | ⟨_, T', -, h⟩
  · exact (refuseStray_unpaired h).mono hsub
  rcases run_bind_eq_error.mp h with h | ⟨js, T'', hbrackets, h⟩
  · exact (pass_unpaired h).mono hsub
  rcases run_bind_eq_error.mp h with h | ⟨_, _, -, h⟩
  · exact (refuseStray_unpaired h).mono ((tokensAmong_pass hbrackets).trans hsub)
  · exact (run_pure_ne_error h).elim

end Unpaired

end Group

end Formulary
