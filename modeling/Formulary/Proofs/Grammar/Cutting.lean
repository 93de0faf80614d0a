import Formulary.Grammar.Parser
import Formulary.Proofs.Grammar.Pieces

/-!
Where flat pieces are cut. A phrase that such pieces stand for is one of pieces: its operators are
pieces of their own, and its groups are single ones. The rightmost operator of a level that has a
left operand is then the last one of the phrase at this level.
-/

namespace Formulary

/-- The phrases of flat pieces. -/
inductive Reads : Phrase → List Piece → Expr → Prop
  | operation {level : Level} {kind : BinaryKind} {op : Token} {ps qs : List Piece} {l r : Expr} :
      level.binary? = some kind → op.operator? = some level → Reads (.plain level) ps l →
      Reads (.right level) qs r →
      Reads (.plain level) (ps ++ .ofToken op :: qs) (.binaryOf kind l r)
  | pair {comma : Token} {ps qs : List Piece} {l r : Expr} :
      comma.operator? = some .sequence → Reads (.plain .addition) ps l →
      Reads (.plain .addition) qs r →
      Reads .elements (ps ++ .ofToken comma :: qs) (.nary .sequence [l, r])
  | more {comma : Token} {ps qs : List Piece} {es : List Expr} {r : Expr} :
      comma.operator? = some .sequence → Reads .elements ps (.nary .sequence es) →
      Reads (.plain .addition) qs r →
      Reads .elements (ps ++ .ofToken comma :: qs) (.nary .sequence (es ++ [r]))
  | elements {ps : List Piece} {e : Expr} : Reads .elements ps e → Reads (.plain .sequence) ps e
  | inner {level : Level} {ps : List Piece} {e : Expr} :
      level ≠ .atom → Reads (.inner level) ps e → Reads (.plain level) ps e
  | sign {kind : BinaryKind} {level : Level} {op : Token} {ps : List Piece} {e : Expr} :
      kind = .addition ∨ kind = .subtraction → op.operator? = some kind.level →
      Reads (.signed level) ps e → Reads (.signed level) (.ofToken op :: ps) (.signed kind e)
  | unsigned {level : Level} {ps : List Piece} {e : Expr} :
      Reads (.plain level) ps e → Reads (.signed level) ps e
  | atom {p : Piece} {e : Expr} :
      p.item.operator? = none → Derives (.plain .atom) p.tokens e → Reads (.plain .atom) [p] e

section Groups

variable {d d' : Delimiter} {callee callee' : Option Token} {o c o' c' op : Token} {level : Level}
  {ts us vs : List Token}

/-- No operator stands at the top of a group. -/
theorem group_ne_of_operator? (hcallee : ∀ t ∈ callee, t.isWord) (ho : o.kind = d.opening)
    (hc : c.kind = d.closing) (hts : Nested ts) (hus : Nested us)
    (hop : op.operator? = some level) :
    callee.toList ++ o :: (ts ++ [c]) ≠ us ++ op :: vs := by
  have bare {us : List Token} (hus : Nested us) : o :: (ts ++ [c]) ≠ us ++ op :: vs := by
    intro h
    have hdelim := Token.isDelimiter_of_operator? hop
    rcases us with _ | ⟨t, us⟩
    · simp only [List.nil_append, List.cons.injEq] at h
      simp [← h.1, Token.isDelimiter_of_opening ho] at hdelim
    simp only [List.cons_append, List.cons.injEq] at h
    obtain ⟨rfl, h⟩ := h
    rcases List.eq_nil_or_concat vs with rfl | ⟨vs, x, rfl⟩
    · have := (List.append_inj' h rfl).2
      simp only [List.cons.injEq, and_true] at this
      simp [← this, Token.isDelimiter_of_closing hc] at hdelim
    · rw [List.concat_eq_append, ← List.cons_append, ← List.append_assoc] at h
      obtain ⟨rfl, -⟩ := List.append_inj' h rfl
      exact not_nested_of_inside ho hts hus
  cases callee with
  | none => exact bare hus
  | some t =>
    have hword := hcallee t rfl
    rcases us with _ | ⟨t', us⟩
    · intro h
      simp only [Option.toList_some, List.singleton_append, List.nil_append, List.cons.injEq] at h
      simp [← h.1, Token.operator?_of_isWord hword] at hop
    · intro h
      simp only [Option.toList_some, List.cons_append, List.cons.injEq] at h
      obtain ⟨rfl, h⟩ := h
      exact bare ((nested_cons (Token.isDelimiter_of_isWord hword)).mp hus) h

/-- A group is determined by what it starts. -/
theorem eq_of_group (hcallee : ∀ t ∈ callee, t.isWord) (hcallee' : ∀ t ∈ callee', t.isWord)
    (ho : o.kind = d.opening) (hc : c.kind = d.closing) (ho' : o'.kind = d'.opening)
    (hc' : c'.kind = d'.closing) (hts : Nested ts) (hus : Nested us)
    (h : callee.toList ++ o :: (ts ++ [c]) ++ vs = callee'.toList ++ o' :: (us ++ [c'])) :
    vs = [] := by
  have hword {t t' : Token} {d : Delimiter} (ht : t.isWord) (ht' : t'.kind = d.opening) :
      t ≠ t' := by
    rintro rfl
    have := Token.isDelimiter_of_isWord ht
    simp [Token.isDelimiter_of_opening ht'] at this
  have bare (heq : o :: (ts ++ [c]) ++ vs = o' :: (us ++ [c'])) : vs = [] := by
    simp only [List.cons_append, List.append_assoc, List.nil_append, List.cons.injEq] at heq
    obtain ⟨rfl, heq⟩ := heq
    have hd : d = d' := by
      have := ho.symm.trans ho'
      cases d <;> cases d' <;> simp_all [Delimiter.opening]
    subst hd
    exact (Nested.eq_of_closing hc hc' hts hus heq).2.2
  cases callee <;> cases callee'
  · exact bare h
  · simp only [Option.toList_none, Option.toList_some, List.nil_append, List.cons_append,
      List.cons.injEq] at h
    exact absurd h.1.symm (hword (hcallee' _ rfl) ho)
  · simp only [Option.toList_none, Option.toList_some, List.nil_append, List.cons_append,
      List.cons.injEq] at h
    exact absurd h.1 (hword (hcallee _ rfl) ho')
  · simp only [Option.toList_some, List.cons_append, List.cons.injEq] at h
    exact bare h.2

end Groups

section Split

variable {S : Store} {ps : List Piece} {used : List Nat} {ts us : List Token} {op : Token}
  {level : Level}

theorem Stands.exists_split (h : Stands S ps used) (hflat : ∀ p ∈ ps, p.isDelimiter = false)
    (hts : Nested ts) (hop : op.operator? = some level) (heq : tokensOf ps = ts ++ op :: us) :
    ∃ qs rs, ps = qs ++ .ofToken op :: rs ∧ tokensOf qs = ts ∧ tokensOf rs = us := by
  induction h generalizing ts with
  | nil => simp at heq
  | @token t ps used hword h ih =>
    simp only [List.mem_cons, forall_eq_or_imp] at hflat
    rcases ts with _ | ⟨t', ts⟩
    · simp only [tokensOf_cons, Piece.ofToken, List.cons_append, List.nil_append,
        List.cons.injEq] at heq
      obtain ⟨rfl, rfl⟩ := heq
      exact ⟨[], ps, rfl, rfl, rfl⟩
    · simp only [tokensOf_cons, Piece.ofToken, List.cons_append, List.nil_append,
        List.cons.injEq] at heq
      obtain ⟨rfl, heq⟩ := heq
      obtain ⟨qs, rs, rfl, rfl, rfl⟩ := ih hflat.2 ((nested_cons hflat.1).mp hts) heq
      exact ⟨.ofToken t :: qs, rs, rfl, rfl, rfl⟩
  | group _ hcallee ho hc hn _ _ _ ih =>
    simp only [List.mem_cons, forall_eq_or_imp] at hflat
    rw [tokensOf_cons] at heq
    have hword := fun t ht => (hcallee t ht).2
    rcases List.append_eq_append_iff.mp heq with ⟨xs, rfl, hxs⟩ | ⟨xs, hgroup, hxs⟩
    · have hnested : Nested xs := by
        rwa [Nested, nest?_append, (hn.call _ hword ho hc).nest?_eq] at hts
      obtain ⟨qs, rs, rfl, rfl, rfl⟩ := ih hflat.2 hnested hxs
      exact ⟨_ :: qs, rs, rfl, rfl, rfl⟩
    · rcases xs with _ | ⟨x, xs⟩
      · obtain ⟨qs, rs, rfl, hqs, rfl⟩ := ih hflat.2 (rfl : Nested []) hxs.symm
        rw [List.append_nil] at hgroup
        exact ⟨_ :: qs, rs, rfl, by rw [tokensOf_cons, hqs, List.append_nil, hgroup], rfl⟩
      · simp only [List.cons_append, List.cons.injEq] at hxs
        obtain ⟨rfl, -⟩ := hxs
        exact (group_ne_of_operator? hword ho hc hn hts hop hgroup).elim

/-- An operator that stands at the top of the tokens is a piece of its own. -/
theorem Stands.split (h : Stands S ps used) (hflat : ∀ p ∈ ps, p.isDelimiter = false)
    (hts : Nested ts) (hop : op.operator? = some level) (heq : tokensOf ps = ts ++ op :: us) :
    ∃ qs rs left right, ps = qs ++ .ofToken op :: rs ∧ tokensOf qs = ts ∧ tokensOf rs = us ∧
      Stands S qs left ∧ Stands S rs right ∧ (∀ p ∈ qs, p.isDelimiter = false) ∧
      ∀ p ∈ rs, p.isDelimiter = false := by
  obtain ⟨qs, rs, rfl, hqs, hrs⟩ := h.exists_split hflat hts hop heq
  obtain ⟨left, _, hleft, hrest, rfl⟩ := h.of_append
  obtain ⟨_, right, -, hright, rfl⟩ := hrest.of_cons
  simp only [List.mem_append, List.mem_cons, or_imp, forall_and, forall_eq] at hflat
  exact ⟨qs, rs, left, right, rfl, hqs, hrs, hleft, hright, hflat.1, hflat.2.2⟩

/-- The tokens of a group make up one piece. -/
theorem Stands.eq_singleton_of_group {d : Delimiter} (callee : Option Token) {o c : Token}
    (h : Stands S ps used) (hflat : ∀ p ∈ ps, p.isDelimiter = false)
    (hcallee : ∀ t ∈ callee, d = .paren ∧ t.isWord) (ho : o.kind = d.opening)
    (hc : c.kind = d.closing) (hts : Nested ts)
    (heq : tokensOf ps = callee.toList ++ o :: (ts ++ [c])) :
    ∃ p, ps = [p] ∧ p.item.operator? = none := by
  have hne := h.tokens_ne_nil
  cases h with
  | nil => simp at heq
  | @token t ps _ hword h =>
    exfalso
    simp only [List.mem_cons, forall_eq_or_imp] at hflat
    have hopening := Token.isDelimiter_of_opening ho
    rw [tokensOf_cons] at heq
    cases callee with
    | none =>
      simp only [Piece.ofToken, Option.toList_none, List.nil_append, List.cons_append,
        List.cons.injEq] at heq
      obtain ⟨rfl, -⟩ := heq
      simp [Piece.isDelimiter, Piece.ofToken, hopening] at hflat
    | some t' =>
      simp only [Piece.ofToken, Option.toList_some, List.cons_append, List.nil_append,
        List.cons.injEq] at heq
      obtain ⟨rfl, heq⟩ := heq
      obtain ⟨rfl, hcalled⟩ := hcallee t rfl
      cases h with
      | nil => simp at heq
      | token =>
        simp only [tokensOf_cons, Piece.ofToken, List.cons_append, List.cons.injEq] at heq
        obtain ⟨rfl, -⟩ := heq
        simp [Piece.isDelimiter, Piece.ofToken, hopening] at hflat
      | @group _ callee' _ _ _ _ _ _ _ _ _ _ hcallee' ho' _ _ _ _ =>
        cases callee' with
        | none =>
          simp only [tokensOf_cons, Option.toList_none, List.nil_append, List.cons_append,
            List.cons.injEq] at heq
          have := hword hcalled _ rfl
          simp [Piece.isBare, heq.1, ho, Delimiter.opening] at this
        | some t' =>
          simp only [tokensOf_cons, Option.toList_some, List.nil_append, List.cons_append,
            List.cons.injEq] at heq
          have := Token.isDelimiter_of_isWord (hcallee' t' rfl).2
          simp [heq.1, hopening] at this
  | @group d' callee' o' c' index span _ contents ps _ _ _ hcallee' ho' hc' hn _ _ =>
    have hnil : tokensOf ps = [] := eq_of_group (fun t ht => (hcallee' t ht).2)
      (fun t ht => (hcallee t ht).2) ho' hc' ho hc hn hts heq
    rcases ps with _ | ⟨p, ps⟩
    · exact ⟨_, rfl, rfl⟩
    · simp [hne p (by simp)] at hnil

theorem Stands.eq_singleton_of_token {t : Token} (h : Stands S ps used)
    (heq : tokensOf ps = [t]) : ps = [.ofToken t] := by
  have hne := h.tokens_ne_nil
  cases h with
  | nil => simp at heq
  | @token t' ps _ _ _ =>
    simp only [tokensOf_cons, Piece.ofToken, List.cons_append, List.nil_append,
      List.cons.injEq] at heq
    obtain ⟨rfl, hnil⟩ := heq
    rcases ps with _ | ⟨p, ps⟩
    · rfl
    · simp [hne p (by simp)] at hnil
  | group =>
    have := congrArg List.length heq
    simp at this
    omega

/-- A phrase that flat pieces stand for is a phrase of these pieces. -/
theorem Derives.reads {p : Phrase} {e : Expr} (hd : Derives p ts e) (h : Stands S ps used)
    (hflat : ∀ p ∈ ps, p.isDelimiter = false) (heq : tokensOf ps = ts) : Reads p ps e := by
  induction hd generalizing ps used with
  | operation hkind hop hl _ ihl ihr =>
    obtain ⟨qs, rs, left, right, rfl, hqs, hrs, hleft, hright, hfl, hfr⟩ :=
      h.split hflat hl.nested hop heq
    exact .operation hkind hop (ihl hleft hfl hqs) (ihr hright hfr hrs)
  | pair hop hl _ ihl ihr =>
    obtain ⟨qs, rs, left, right, rfl, hqs, hrs, hleft, hright, hfl, hfr⟩ :=
      h.split hflat hl.nested hop heq
    exact .pair hop (ihl hleft hfl hqs) (ihr hright hfr hrs)
  | more hop hl _ ihl ihr =>
    obtain ⟨qs, rs, left, right, rfl, hqs, hrs, hleft, hright, hfl, hfr⟩ :=
      h.split hflat hl.nested hop heq
    exact .more hop (ihl hleft hfl hqs) (ihr hright hfr hrs)
  | elements _ ih => exact .elements (ih h hflat heq)
  | inner hne _ ih => exact .inner hne (ih h hflat heq)
  | unsigned _ ih => exact .unsigned (ih h hflat heq)
  | sign hsign hop _ ih =>
    obtain ⟨qs, rs, left, right, rfl, hqs, hrs, hleft, hright, -, hfr⟩ :=
      h.split hflat (rfl : Nested []) hop heq
    rcases qs with _ | ⟨q, qs⟩
    · exact .sign hsign hop (ih hright hfr hrs)
    · simp [hleft.tokens_ne_nil q (by simp)] at hqs
  | int ht =>
    obtain rfl := h.eq_singleton_of_token heq
    exact .atom (by simp [Piece.ofToken, Item.operator?, Token.operator?, ht]) (.int ht)
  | name ht =>
    obtain rfl := h.eq_singleton_of_token heq
    exact .atom (Token.operator?_of_isWord ht) (.name ht)
  | paren ho hc hd _ =>
    obtain ⟨p, rfl, hp⟩ := h.eq_singleton_of_group none (d := .paren) hflat (by simp) ho hc
      hd.nested heq
    rw [tokensOf_cons, tokensOf_nil, List.append_nil] at heq
    exact .atom hp (heq ▸ .paren ho hc hd)
  | bracket ho hc hd _ =>
    obtain ⟨p, rfl, hp⟩ := h.eq_singleton_of_group none (d := .bracket) hflat (by simp) ho hc
      hd.nested heq
    rw [tokensOf_cons, tokensOf_nil, List.append_nil] at heq
    exact .atom hp (heq ▸ .bracket ho hc hd)
  | @thunk callee _ _ hf ho hc =>
    obtain ⟨p, rfl, hp⟩ := h.eq_singleton_of_group (some callee) (d := .paren) hflat
      (by simpa using hf) ho hc (rfl : Nested []) heq
    rw [tokensOf_cons, tokensOf_nil, List.append_nil] at heq
    exact .atom hp (heq ▸ .thunk hf ho hc)
  | @call callee _ _ _ _ hf ho hc hd _ =>
    obtain ⟨p, rfl, hp⟩ := h.eq_singleton_of_group (some callee) (d := .paren) hflat
      (by simpa using hf) ho hc hd.nested heq
    rw [tokensOf_cons, tokensOf_nil, List.append_nil] at heq
    exact .atom hp (heq ▸ .call hf ho hc hd)

end Split

section Cuts

open Formulary.Parser

variable {level : Level} {op : Token} {i : Item} {is js : List Item} {prev : Option Item}

theorem hasOperand_some_operator (h : op.operator? = some level) :
    hasOperand (some (.token op)) = false := by
  simp [hasOperand, Item.operator?, h]

theorem operatorAt?_of_ne (h : i.operator? ≠ some level) : operatorAt? level prev i = none := by
  cases i <;> simp_all [operatorAt?, Item.operator?]

theorem cutLast?_append_eq_none (his : cutLast? level prev is = none)
    (hi : i.operator? ≠ some level) (hjs : cutLast? level (some i) js = none) :
    cutLast? level prev (is ++ i :: js) = none := by
  induction is generalizing prev with
  | nil => simp [cutLast?, hjs, operatorAt?_of_ne hi]
  | cons j is ih =>
    rw [cutLast?] at his
    rw [List.cons_append, cutLast?]
    cases hrest : cutLast? level (some j) is with
    | some => simp [hrest] at his
    | none =>
      rw [hrest] at his
      simpa [ih hrest] using his

theorem cutLast?_append_eq_some (hop : op.operator? = some level)
    (hprev : hasOperand (is.getLast?.or prev) = true)
    (hjs : cutLast? level (some (.token op)) js = none) :
    cutLast? level prev (is ++ .token op :: js) = some (is, op, js) := by
  induction is generalizing prev with
  | nil =>
    rw [List.getLast?_nil, Option.none_or] at hprev
    simp [cutLast?, hjs, operatorAt?, hop, hprev]
  | cons j is ih =>
    have hlast : (is.getLast?.or (some j)) = (j :: is).getLast?.or prev := by
      cases is <;> simp [List.getLast?_cons]
    rw [List.cons_append, cutLast?, ih (hlast ▸ hprev)]

theorem signCut?_append (h : is ≠ []) :
    signCut? (is ++ js) = none ↔ signCut? is = none := by
  rcases is with _ | ⟨_ | _, is⟩
  · exact absurd rfl h
  · simp only [List.cons_append, signCut?]
    split <;> simp
  · simp [signCut?]

theorem signCut?_sign {kind : BinaryKind} (hkind : kind = .addition ∨ kind = .subtraction)
    (hop : op.operator? = some kind.level) :
    signCut? (.token op :: is) = some (.sign op kind is) := by
  rcases hkind with rfl | rfl <;> simp [signCut?, hop, BinaryKind.level]

theorem cut_operator (hop : op.operator? = some level) (his : hasOperand is.getLast? = true)
    (hjs : cutLast? level (some (.token op)) js = none)
    (hsign : Level.subtraction < level → signCut? is = none) :
    cut level (is ++ .token op :: js) = .operator is op js := by
  have hne : is ≠ [] := by
    rintro rfl
    simp [hasOperand] at his
  have hcut : operatorCut? level (is ++ .token op :: js) = some (.operator is op js) := by
    rw [operatorCut?, cutLast?_append_eq_some hop (by simpa using his) hjs]
    rfl
  unfold cut
  split
  · rename_i hl
    simp [(signCut?_append hne).mpr (hsign hl), hcut]
  · split <;> simp [hcut]

theorem cut_sign {kind : BinaryKind} (hkind : kind = .addition ∨ kind = .subtraction)
    (hop : op.operator? = some kind.level) (hl : Level.subtraction ≤ level)
    (hcut : level = .subtraction → cutLast? level none (.token op :: is) = none) :
    cut level (.token op :: is) = .sign op kind is := by
  unfold cut
  split
  · simp [signCut?_sign hkind hop]
  · rename_i hlt
    have hsub : level = .subtraction := by
      revert hl hlt
      cases level <;> decide
    simp [hsub, operatorCut?, hsub ▸ hcut hsub, signCut?_sign hkind hop]

theorem cutLast?_eq_some {before after : List Item}
    (h : cutLast? level prev is = some (before, op, after)) :
    is = before ++ .token op :: after ∧ op.operator? = some level ∧
      cutLast? level (some (.token op)) after = none := by
  induction is generalizing prev before with
  | nil => simp [cutLast?] at h
  | cons i is ih =>
    rw [cutLast?] at h
    split at h
    · rename_i hrest
      cases h
      obtain ⟨rfl, hop, hafter⟩ := ih hrest
      exact ⟨rfl, hop, hafter⟩
    · rename_i hrest
      obtain ⟨t, ht, h⟩ := Option.map_eq_some_iff.mp h
      cases h
      unfold operatorAt? at ht
      split at ht
      · split at ht
        · rename_i hlevel
          cases ht
          simp only [Bool.and_eq_true, beq_iff_eq] at hlevel
          exact ⟨rfl, hlevel.1, hrest⟩
        · simp at ht
      · simp at ht

/-- What follows an operator is cut as if nothing stood before it. -/
theorem cutLast?_operator {l : Level} (hop : op.operator? = some l) :
    cutLast? level (some (.token op)) is = cutLast? level none is := by
  cases is with
  | nil => rfl
  | cons i is =>
    have hat : operatorAt? level (some (.token op)) i = operatorAt? level none i := by
      unfold operatorAt?
      rw [hasOperand_some_operator hop]
      rfl
    rw [cutLast?, cutLast?, hat]

theorem signCut?_eq_some {c : Cut} (h : signCut? is = some c) :
    ∃ kind op rest, c = .sign op kind rest ∧ is = .token op :: rest ∧
      (kind = .addition ∨ kind = .subtraction) ∧ op.operator? = some kind.level := by
  unfold signCut? at h
  split at h
  · rename_i op rest
    split at h
    · rename_i hop
      cases h
      exact ⟨.addition, op, rest, rfl, rfl, .inl rfl, hop⟩
    · rename_i hop
      cases h
      exact ⟨.subtraction, op, rest, rfl, rfl, .inr rfl, hop⟩
    · simp at h
  · simp at h

/-- All that a cut can be. -/
theorem cut_cases (level : Level) (is : List Item) :
    (∃ kind op rest, cut level is = .sign op kind rest ∧ is = .token op :: rest ∧
      (kind = .addition ∨ kind = .subtraction) ∧ op.operator? = some kind.level ∧
      Level.subtraction ≤ level ∧ (level = .subtraction → cutLast? level none is = none)) ∨
    (∃ before op after, cut level is = .operator before op after ∧
      is = before ++ .token op :: after ∧ op.operator? = some level ∧
      cutLast? level none is ≠ none ∧ cutLast? level none after = none ∧
      (Level.subtraction < level → signCut? is = none)) ∨
    (cut level is = .whole ∧ cutLast? level none is = none ∧
      (Level.subtraction ≤ level → signCut? is = none)) := by
  unfold cut operatorCut?
  by_cases hlt : Level.subtraction < level
  · rw [if_pos hlt]
    cases hsign : signCut? is with
    | some c =>
      obtain ⟨kind, op, rest, rfl, his, hkind, hop⟩ := signCut?_eq_some hsign
      refine .inl ⟨kind, op, rest, rfl, his, hkind, hop, Nat.le_of_lt hlt, ?_⟩
      rintro rfl
      exact absurd hlt (by decide)
    | none =>
      cases hcut : cutLast? level none is with
      | some c =>
        obtain ⟨before, op, after⟩ := c
        obtain ⟨his, hop, hafter⟩ := cutLast?_eq_some hcut
        rw [cutLast?_operator hop] at hafter
        exact .inr (.inl ⟨before, op, after, rfl, his, hop, nofun, hafter, fun _ => rfl⟩)
      | none => exact .inr (.inr ⟨rfl, rfl, fun _ => rfl⟩)
  · rw [if_neg hlt]
    cases hcut : cutLast? level none is with
    | some c =>
      obtain ⟨before, op, after⟩ := c
      obtain ⟨his, hop, hafter⟩ := cutLast?_eq_some hcut
      rw [cutLast?_operator hop] at hafter
      refine .inr (.inl ⟨before, op, after, ?_, his, hop, nofun, hafter, fun h => absurd h hlt⟩)
      split <;> rfl
    | none =>
      by_cases hl : level = .subtraction
      · subst hl
        cases hsign : signCut? is with
        | some c =>
          obtain ⟨kind, op, rest, rfl, his, hkind, hop⟩ := signCut?_eq_some hsign
          exact .inl ⟨kind, op, rest, rfl, his, hkind, hop, by decide, fun _ => rfl⟩
        | none => exact .inr (.inr ⟨rfl, rfl, fun _ => rfl⟩)
      · rw [if_neg hl]
        refine .inr (.inr ⟨rfl, rfl, fun hle => absurd hle ?_⟩)
        revert hlt hl
        cases level <;> decide

theorem cut_whole (hcut : cutLast? level none is = none)
    (hsign : Level.subtraction ≤ level → signCut? is = none) : cut level is = .whole := by
  unfold cut
  split
  · rename_i hl
    simp [hsign (Nat.le_of_lt hl), operatorCut?, hcut]
  · split
    · rename_i hl
      simp [hsign (hl ▸ Nat.le_refl _), operatorCut?, hcut]
    · simp [operatorCut?, hcut]

end Cuts

/-- Whether all operators of a phrase bind more tightly than the level. -/
def Phrase.Tighter (level : Level) : Phrase → Prop
  | .plain l | .signed l => level < l
  | .elements => level < .sequence

/-- Whether no sign stands in front of a phrase. -/
def Phrase.Unsigned : Phrase → Prop
  | .plain l => Level.subtraction < l
  | _ => False

instance (level : Level) : (p : Phrase) → Decidable (p.Tighter level)
  | .plain l | .signed l => inferInstanceAs (Decidable (level < l))
  | .elements => inferInstanceAs (Decidable (level < .sequence))

instance : (p : Phrase) → Decidable p.Unsigned
  | .plain l => inferInstanceAs (Decidable (.subtraction < l))
  | .signed _ | .elements => .isFalse id

/-- The phrases that reading at a level comes across. -/
def Phrase.ReadAt (level : Level) : Phrase → Prop
  | .plain l => level ≤ l
  | .elements => level ≤ .sequence
  | .signed l => Level.subtraction ≤ level ∧ level < l

instance (level : Level) : (p : Phrase) → Decidable (p.ReadAt level)
  | .plain l => inferInstanceAs (Decidable (level ≤ l))
  | .elements => inferInstanceAs (Decidable (level ≤ .sequence))
  | .signed l => inferInstanceAs (Decidable (.subtraction ≤ level ∧ level < l))

section Levels

variable {level l : Level}

theorem Phrase.tighter_right (h : level ≤ l) (hl : l ≠ .atom) : (Phrase.right l).Tighter level := by
  revert h hl
  cases l <;> cases level <;> decide

theorem Phrase.tighter_inner (h : level < l) (hl : l ≠ .atom) :
    (Phrase.inner l).Tighter level := by
  revert h hl
  cases l <;> cases level <;> decide

theorem Phrase.readAt_right (h : l ≠ .atom) : (Phrase.right l).ReadAt l := by
  revert h
  cases l <;> decide

theorem Phrase.readAt_inner (h : l ≠ .atom) : (Phrase.inner l).ReadAt l := by
  revert h
  cases l <;> decide

theorem Phrase.eq_plain_atom {p : Phrase} (h : p.ReadAt .atom) : p = .plain .atom := by
  rcases p with l | _ | l
  · cases l <;> first | rfl | exact absurd h (by decide)
  · exact absurd h (by decide)
  · cases l <;> exact absurd h (by decide)

theorem Level.lt_of_le_of_ne (h : level ≤ l) (hne : level ≠ l) : level < l := by
  revert h hne
  cases level <;> cases l <;> decide

theorem Phrase.unsigned_inner (h : Level.subtraction < l) : (Phrase.inner l).Unsigned := by
  revert h
  cases l <;> decide

end Levels

namespace Reads

open Formulary.Parser

variable {p : Phrase} {ps : List Piece} {e : Expr}

theorem ne_nil (h : Reads p ps e) : ps ≠ [] := by
  induction h with
  | elements _ ih | inner _ _ ih | unsigned _ ih => exact ih
  | _ => simp

theorem eq_singleton (h : Reads (.plain .atom) ps e) :
    ∃ p, ps = [p] ∧ p.item.operator? = none ∧ Derives (.plain .atom) p.tokens e := by
  cases h with
  | operation hkind => simp [Level.binary?] at hkind
  | inner hne => exact absurd rfl hne
  | atom hop hd => exact ⟨_, rfl, hop, hd⟩

/-- A phrase ends with an operand. -/
theorem hasOperand_getLast? (h : Reads p ps e) : hasOperand (itemsOf ps).getLast? = true := by
  have last (ps : List Piece) {qs : List Piece} {op : Piece} (hqs : qs ≠ []) :
      (itemsOf (ps ++ op :: qs)).getLast? = (itemsOf qs).getLast? := by
    rcases qs with _ | ⟨q, qs⟩
    · exact absurd rfl hqs
    · simp [List.getLast?_append, List.getLast?_cons]
  induction h with
  | operation _ _ _ hr _ ih | pair _ _ hr _ ih | more _ _ hr _ ih =>
    rw [last _ hr.ne_nil, ih]
  | elements _ ih | inner _ _ ih | unsigned _ ih => exact ih
  | sign _ _ hr ih => exact (last [] hr.ne_nil) ▸ ih
  | atom hp _ => simp [hasOperand, hp]

theorem cutLast?_eq_none {level : Level} (h : Reads p ps e) (hp : p.Tighter level)
    {prev : Option Item} (hprev : hasOperand prev = false) :
    cutLast? level prev (itemsOf ps) = none := by
  have other {op : Token} {l : Level} (hop : op.operator? = some l) (hl : level < l) :
      (Piece.ofToken op).item.operator? ≠ some level := by
    intro h
    cases hop.symm.trans h
    exact Nat.lt_irrefl _ hl
  induction h generalizing prev with
  | @operation l kind op ps qs _ _ hkind hop _ _ ihl ihr =>
    have hne : l ≠ .atom := by
      rintro rfl
      simp [Level.binary?] at hkind
    rw [itemsOf_append, itemsOf_cons]
    exact cutLast?_append_eq_none (ihl hp hprev) (other hop hp)
      (ihr (Phrase.tighter_right (Nat.le_of_lt hp) hne) (hasOperand_some_operator hop))
  | pair hop _ _ ihl ihr =>
    have hp' : (Phrase.plain .addition).Tighter level := Nat.lt_trans hp (by decide)
    rw [itemsOf_append, itemsOf_cons]
    exact cutLast?_append_eq_none (ihl hp' hprev) (other hop hp)
      (ihr hp' (hasOperand_some_operator hop))
  | more hop _ _ ihl ihr =>
    have hp' : (Phrase.plain .addition).Tighter level := Nat.lt_trans hp (by decide)
    rw [itemsOf_append, itemsOf_cons]
    exact cutLast?_append_eq_none (ihl hp hprev) (other hop hp)
      (ihr hp' (hasOperand_some_operator hop))
  | elements _ ih => exact ih hp hprev
  | inner hne _ ih => exact ih (Phrase.tighter_inner hp hne) hprev
  | unsigned _ ih => exact ih hp hprev
  | @sign kind _ op _ _ hsign hop _ ih =>
    have hrest := ih hp (hasOperand_some_operator hop)
    have hop' : operatorAt? level prev (.token op) = none := by
      rcases hsign with rfl | rfl <;>
        simp only [operatorAt?, hop, hprev] <;> cases level <;> rfl
    simp [cutLast?, Piece.ofToken, hrest, hop']
  | @atom p _ hitem _ =>
    have hat : operatorAt? level prev p.item = none := operatorAt?_of_ne (by simp [hitem])
    simp [cutLast?, hat]

theorem signCut?_eq_none (h : Reads p ps e) (hp : p.Unsigned) : signCut? (itemsOf ps) = none := by
  induction h with
  | operation _ _ hl _ ih _ =>
    rw [itemsOf_append, signCut?_append (by simpa [itemsOf] using hl.ne_nil)]
    exact ih hp
  | inner _ _ ih => exact ih (Phrase.unsigned_inner hp)
  | @atom p _ hitem _ =>
    rcases p with ⟨_ | _, _⟩
    · simp only [Item.operator?] at hitem
      simp [signCut?, hitem]
    · rfl
  | elements => exact absurd hp (by decide)
  | pair | more | sign | unsigned => exact hp.elim

/-- What stands on either side of an operator is found on either side of the cut. -/
theorem cut_eq_operator {q : Phrase} {qs : List Piece} {r : Expr} {op : Token} {level : Level}
    (hl : Reads p ps e) (hr : Reads q qs r) (hop : op.operator? = some level)
    (hq : q.Tighter level) (hp : Level.subtraction < level → p.Unsigned) :
    cut level (itemsOf (ps ++ .ofToken op :: qs)) = .operator (itemsOf ps) op (itemsOf qs) := by
  rw [itemsOf_append]
  exact cut_operator hop hl.hasOperand_getLast?
    (hr.cutLast?_eq_none hq (hasOperand_some_operator hop)) fun hlt => hl.signCut?_eq_none (hp hlt)

theorem derives (h : Reads p ps e) : Derives p (tokensOf ps) e := by
  induction h with
  | operation hkind hop _ _ ihl ihr =>
    rw [tokensOf_append]
    exact .operation hkind hop ihl ihr
  | pair hop _ _ ihl ihr =>
    rw [tokensOf_append]
    exact .pair hop ihl ihr
  | more hop _ _ ihl ihr =>
    rw [tokensOf_append]
    exact .more hop ihl ihr
  | elements _ ih => exact .elements ih
  | inner hne _ ih => exact .inner hne ih
  | sign hkind hop _ ih => exact .sign hkind hop ih
  | unsigned _ ih => exact .unsigned ih
  | atom _ hd =>
    rw [tokensOf_cons, tokensOf_nil, List.append_nil]
    exact hd

end Reads

end Formulary
