import Formulary.Proofs.Decimal.Rounding
import Formulary.Proofs.Text.Faithful

/-!
Texts of expressions that were read. Whatever a text reads as has a text again, and this one reads
as the same tree, unless an operator that binds more tightly than signs has two of them before its
right operand: then it is the second sign that is put in parentheses with the first.
-/

namespace Formulary

namespace Expr

/-- Two signs, one before the other. -/
def isTwiceSigned : Expr → Bool
  | .binary ⟨_, true⟩ _ e => e.isSigned
  | _ => false

mutual

/-- Whether an operator that binds more tightly than signs has two of them before its right
operand, somewhere in the expression. -/
def stacksSigns : Expr → Bool
  | .number _ | .symbol .. => false
  | .term c a x => c.stacksSigns || a.stacksSigns || x.stacksSigns
  | .unary _ e => e.stacksSigns
  | .binary ⟨kind, implicit⟩ l r =>
    (!implicit && decide (Level.subtraction < kind.level) && r.isTwiceSigned) ||
      (l.stacksSigns || r.stacksSigns)
  | .nary _ es | .call _ es => anyStacksSigns es

def anyStacksSigns : List Expr → Bool
  | [] => false
  | e :: es => e.stacksSigns || anyStacksSigns es

end

end Expr

section Lexemes

theorem isIdentifier_of_mem_tokensFrom {t : Token} (start : Nat) (cs : List Char)
    (h : t ∈ Lexer.tokensFrom start cs) (hkind : t.kind = .name) :
    isIdentifier t.lexeme = true := by
  induction start, cs using Lexer.tokensFrom.induct with
  | case1 start => simp [Lexer.tokensFrom] at h
  | case2 start c rest kind more hmunch stop ih =>
    rw [Lexer.tokensFrom, hmunch, List.mem_cons] at h
    rcases h with rfl | h
    · have hfirst : (Lexer.munch c rest).1 = .name := by
        rw [hmunch]
        exact hkind
      obtain ⟨hstart, hmore⟩ := munch_of_name hfirst
      rw [hmunch] at hmore
      simp only at hmore
      simp only [isIdentifier, String.toList_ofList, hstart, hmore, Bool.true_and, List.all_eq_true]
      intro d hd
      exact List.mem_takeWhile_imp hd
    · exact ih h

theorem isName_of_isWord {t : Token} {source : String} (h : t ∈ tokens source) (hword : t.isWord) :
    IsName t.lexeme := by
  unfold Token.isWord at hword
  simp only [Bool.and_eq_true, beq_iff_eq, bne_iff_ne] at hword
  exact ⟨isIdentifier_of_mem_tokensFrom 0 _ (List.mem_of_mem_filter h) hword.1, hword.2⟩

end Lexemes

theorem Level.eq_of_binary? {level : Level} {kind : BinaryKind} (h : level.binary? = some kind) :
    level = kind.level := by
  revert h
  cases level <;> cases kind <;> decide

/-- Signs are taken by operands that bind more tightly than they do. -/
def Phrase.Proper : Phrase → Prop
  | .signed level => Level.subtraction < level
  | _ => True

instance : (p : Phrase) → Decidable p.Proper
  | .signed level => inferInstanceAs (Decidable (Level.subtraction < level))
  | .plain _ | .elements => inferInstanceAs (Decidable True)

theorem Phrase.proper_right (level : Level) : (Phrase.right level).Proper := by
  cases level <;> decide

theorem Phrase.proper_inner (level : Level) : (Phrase.inner level).Proper := by
  cases level <;> decide

/-- How strongly the trees of a phrase bind. -/
def Phrase.Binds : Phrase → Expr → Prop
  | .plain level, e =>
    (e.isSigned = true → level ≤ .subtraction) ∧ (e.isSigned = false → level ≤ e.level)
  | .elements, e => e.isSigned = false ∧ e.level = .sequence
  | .signed level, e => e.isSigned = false → level ≤ e.level

namespace Derives

variable {p : Phrase} {ts us : List Token} {e r : Expr} {level : Level}

theorem level_of_signed (h : Derives p ts e) (hs : e.isSigned = true) :
    e.level = .addition ∨ e.level = .subtraction := by
  induction h with
  | sign hkind =>
    rcases hkind with rfl | rfl
    · exact .inl rfl
    · exact .inr rfl
  | elements _ ih | inner _ _ ih | unsigned _ ih => exact ih hs
  | _ => cases hs

theorem binds (h : Derives p ts e) : p.Binds e := by
  induction h with
  | operation hkind =>
    constructor
    · intro hs
      cases hs
    · intro _
      exact Nat.le_of_eq (congrArg Level.rank (Level.eq_of_binary? hkind))
  | pair | more => exact ⟨rfl, rfl⟩
  | elements _ ih =>
    constructor
    · intro hs
      rw [ih.1] at hs
      cases hs
    · intro _
      exact Nat.le_of_eq (congrArg Level.rank ih.2.symm)
  | @inner level _ _ hne _ ih =>
    by_cases hsub : level = .subtraction
    · subst hsub
      exact ⟨fun _ => Nat.le_refl _, fun hs => Nat.le_trans (by decide) (ih hs)⟩
    · have hnext : level ≤ level.next := by
        revert hne
        cases level <;> decide
      have hplain : Phrase.inner level = .plain level.next := by
        revert hsub
        cases level <;> simp [Phrase.inner, Level.next]
      rw [hplain] at ih
      exact ⟨fun hs => Nat.le_trans hnext (ih.1 hs), fun hs => Nat.le_trans hnext (ih.2 hs)⟩
  | sign =>
    intro hs
    cases hs
  | unsigned _ ih => exact ih.2
  | @int t =>
    have hlevel : (Expr.number (Decimal.read t.lexeme)).level = .atom :=
      if_neg (not_read_lt_zero t.lexeme)
    constructor
    · intro hs
      cases hs
    · intro _
      exact Nat.le_of_eq (congrArg Level.rank hlevel.symm)
  | _ =>
    constructor
    · intro hs
      cases hs
    · intro _
      exact Nat.le_refl _

theorem needsGroup_left (h : Derives (.plain level) ts e) : needsGroup level e .left = false := by
  cases hs : e.isSigned with
  | true => exact needsGroup_of_signed hs (h.binds.1 hs) .left
  | false =>
    have hle : level ≤ e.level := h.binds.2 hs
    have hnot : ¬ e.level < level := Nat.not_lt_of_le hle
    rw [needsGroup_of_not_signed hs]
    simp [hnot]

/-- A sign that is read past the level of `-` needs a group only for what is after it. -/
theorem needsGroup_signed {l : Level} (hlevel : Level.subtraction < level)
    (hnext : ∀ k : Level, l ≤ k → level < k) (h : Derives (.signed l) ts e)
    (hs : e.isSigned = true) : needsGroup level e .right = e.isTwiceSigned := by
  cases h with
  | unsigned h =>
    exact absurd (h.binds.1 hs) (Nat.not_le_of_lt (Nat.lt_trans hlevel (hnext l (Nat.le_refl _))))
  | @sign kind _ _ _ e' hkind hop h =>
    change (decide (Level.subtraction < level) && decide (e'.level ≤ level)) = e'.isSigned
    rw [decide_eq_true hlevel, Bool.true_and]
    cases hs' : e'.isSigned with
    | true =>
      have hle : e'.level ≤ .subtraction := by
        rcases h.level_of_signed hs' with hl | hl <;> rw [hl] <;> decide
      exact decide_eq_true (Nat.le_of_lt (Nat.lt_of_le_of_lt hle hlevel))
    | false => exact decide_eq_false (Nat.not_le_of_lt (hnext _ (h.binds hs')))

/-- To the right of an operator, what was read there needs a group only if it stacks signs. -/
theorem needsGroup_right (h : Derives (.right level) ts e) (hne : level ≠ .atom) :
    needsGroup level e .right = (decide (Level.subtraction < level) && e.isTwiceSigned) := by
  have hnext : ∀ k : Level, level.next ≤ k → level < k := by
    intro k hk
    have hrank := Level.rank_next hne
    change level.rank < k.rank
    change level.next.rank ≤ k.rank at hk
    omega
  have hphrase :
      Phrase.right level = .plain level.next ∨ Phrase.right level = .signed level.next := by
    cases level <;> simp [Phrase.right, Level.next]
  cases hs : e.isSigned with
  | false =>
    have htwice : e.isTwiceSigned = false := by
      cases e with
      | binary op l r =>
        obtain ⟨kind, implicit⟩ := op
        cases hs
        rfl
      | _ => rfl
    rw [htwice, Bool.and_false]
    apply needsGroup_of_lt hs
    apply hnext
    rcases hphrase with hp | hp <;> rw [hp] at h
    · exact h.binds.2 hs
    · exact h.binds hs
  | true =>
    by_cases hlevel : Level.subtraction < level
    · rw [decide_eq_true hlevel, Bool.true_and]
      have hsigned : Phrase.right level = .signed level.next := by
        revert hlevel hne
        cases level <;> decide
      rw [hsigned] at h
      exact h.needsGroup_signed hlevel hnext hs
    · rw [decide_eq_false hlevel, Bool.false_and]
      exact needsGroup_of_signed hs (Nat.le_of_not_lt hlevel) .right

theorem addition_le_level (h : Derives (.plain .addition) ts e) : Level.addition ≤ e.level := by
  cases hs : e.isSigned with
  | true => rcases h.level_of_signed hs with hl | hl <;> rw [hl] <;> decide
  | false => exact h.binds.2 hs

/-- The elements of a sequence that was read are no sequences and no equations. -/
theorem addition_le_of_mem (h : Derives p ts e) :
    ∀ es, e = .nary .sequence es → ∀ x ∈ es, Level.addition ≤ x.level := by
  induction h with
  | pair _ hl hr =>
    rintro _ ⟨⟩ x hx
    simp only [List.mem_cons, List.not_mem_nil, or_false] at hx
    rcases hx with rfl | rfl
    · exact hl.addition_le_level
    · exact hr.addition_le_level
  | more _ _ hr ih =>
    rintro _ ⟨⟩ x hx
    rw [List.mem_append, List.mem_singleton] at hx
    rcases hx with hx | rfl
    · exact ih _ rfl x hx
    · exact hr.addition_le_level
  | elements _ ih | inner _ _ ih | unsigned _ ih => exact ih
  | _ => exact nofun

end Derives

section Elements

variable {e : Expr} {es : List Expr}

theorem needsGroup_element (h : Level.addition ≤ e.level) (side : Side) :
    needsGroup .sequence e side = false := by
  cases hs : e.isSigned with
  | true => exact needsGroup_of_signed hs (by decide) side
  | false => exact needsGroup_of_lt hs h side

theorem argNeedsGroup_element (h : Level.addition ≤ e.level) (count : Nat) :
    argNeedsGroup count e = false := by
  unfold argNeedsGroup
  cases hlevel : e.level with
  | equality | sequence =>
    rw [hlevel] at h
    exact absurd h (by decide)
  | _ => rfl

theorem rereadTail_elements (h : ∀ x ∈ es, Level.addition ≤ x.level) :
    Expr.rereadTail .sequence es = es.map Expr.reread := by
  induction es with
  | nil => rfl
  | cons e es ih =>
    rw [Expr.rereadTail, List.map_cons, needsGroup_element (h e (by simp)),
      ih fun x hx => h x (by simp [hx])]
    rfl

theorem rereadOperands_elements (h : ∀ x ∈ es, Level.addition ≤ x.level) :
    Expr.rereadOperands .sequence es = es.map Expr.reread := by
  cases es with
  | nil => rfl
  | cons e es =>
    rw [Expr.rereadOperands, List.map_cons, needsGroup_element (h e (by simp)),
      rereadTail_elements fun x hx => h x (by simp [hx])]
    rfl

theorem rereadArgs_elements (h : ∀ x ∈ es, Level.addition ≤ x.level) (count : Nat) :
    Expr.rereadArgs count es = es.map Expr.reread := by
  induction es with
  | nil => rfl
  | cons e es ih =>
    rw [Expr.rereadArgs, List.map_cons, argNeedsGroup_element (h e (by simp)),
      ih fun x hx => h x (by simp [hx])]
    rfl

theorem anyStacksSigns_append (es fs : List Expr) :
    Expr.anyStacksSigns (es ++ fs) = (Expr.anyStacksSigns es || Expr.anyStacksSigns fs) := by
  induction es with
  | nil => rfl
  | cons e es ih => simp [Expr.anyStacksSigns, ih, Bool.or_assoc]

end Elements

namespace Derives

variable {p : Phrase} {ts us : List Token} {e l r : Expr}

/-- An operation is read again as it is if both operands are and no signs are stacked. -/
theorem operation_reread_iff {kind : BinaryKind} (hl : Derives (.plain kind.level) ts l)
    (hr : Derives (.right kind.level) us r) (ihl : l.reread = l ↔ l.stacksSigns = false)
    (ihr : r.reread = r ↔ r.stacksSigns = false) :
    (Expr.binaryOf kind l r).reread = .binaryOf kind l r ↔
      (Expr.binaryOf kind l r).stacksSigns = false := by
  rw [Expr.binaryOf, Expr.reread, hl.needsGroup_left, hr.needsGroup_right kind.level_ne_atom,
    Expr.stacksSigns]
  cases hstack : decide (Level.subtraction < kind.level) && r.isTwiceSigned with
  | false => simp [Expr.binaryOf, Expr.inGroup, ihl, ihr, hstack]
  | true =>
    refine iff_of_false ?_ (by simp [hstack])
    intro heq
    have hparen : .unary .paren r.reread = r := by
      simp only [Expr.binaryOf, Expr.inGroup, Expr.binary.injEq] at heq
      exact heq.2.2
    rw [← hparen] at hstack
    simp [Expr.isTwiceSigned] at hstack

/-- What was read is read again as it is if no signs are stacked in it, and only then. -/
theorem reread_eq_iff (h : Derives p ts e) (hp : p.Proper) :
    e.reread = e ↔ e.stacksSigns = false := by
  induction h with
  | operation hkind _ hl hr ihl ihr =>
    obtain rfl := Level.eq_of_binary? hkind
    exact operation_reread_iff hl hr (ihl trivial) (ihr (Phrase.proper_right _))
  | @pair _ _ _ l r hop hl hr ihl ihr =>
    have hall := (Derives.pair hop hl hr).addition_le_of_mem _ rfl
    rw [Expr.reread, rereadOperands_elements hall]
    simp [Expr.stacksSigns, Expr.anyStacksSigns, ihl trivial, ihr trivial]
  | @more _ _ _ es r hop hl hr ihl ihr =>
    have hall := (Derives.more hop hl hr).addition_le_of_mem _ rfl
    have hes := hl.addition_le_of_mem _ rfl
    have ih := ihl trivial
    rw [Expr.reread, rereadOperands_elements hes] at ih
    rw [Expr.reread, rereadOperands_elements hall]
    simp only [Expr.nary.injEq, true_and, Expr.stacksSigns] at ih
    simp [Expr.stacksSigns, anyStacksSigns_append, Expr.anyStacksSigns, ih, ihr trivial]
  | elements _ ih => exact ih trivial
  | inner _ _ ih => exact ih (Phrase.proper_inner _)
  | @sign kind level _ _ e hkind _ h ih =>
    have hgroup : needsGroup .subtraction e .right = false := by
      cases hs : e.isSigned with
      | true => exact needsGroup_of_signed hs (by decide) .right
      | false => exact needsGroup_of_lt hs (Nat.lt_of_lt_of_le hp (h.binds hs)) .right
    rw [Expr.signed, Expr.reread, hgroup]
    simp [Expr.signed, Expr.inGroup, Expr.stacksSigns, ih hp]
  | unsigned _ ih => exact ih trivial
  | @int t =>
    have hread : (Expr.number (Decimal.read t.lexeme)).reread = .number (Decimal.read t.lexeme) :=
      if_neg (not_read_lt_zero t.lexeme)
    simp [hread, Expr.stacksSigns]
  | name => simp [Expr.reread, Expr.named, Expr.stacksSigns]
  | paren _ _ _ ih | bracket _ _ _ ih => simp [Expr.reread, Expr.stacksSigns, ih trivial]
  | thunk => simp [Expr.reread, Expr.rereadArgs, Expr.stacksSigns, Expr.anyStacksSigns]
  | @call callee _ _ _ e _ _ _ h ih =>
    by_cases hseq : ∃ es, e = .nary .sequence es
    · obtain ⟨es, rfl⟩ := hseq
      have hes := h.addition_le_of_mem _ rfl
      have ih := ih trivial
      rw [Expr.reread, rereadOperands_elements hes] at ih
      rw [Expr.arguments, Expr.reread, rereadArgs_elements hes]
      simpa [Expr.stacksSigns] using ih
    · rw [Expr.arguments_of_ne_sequence fun es he => hseq ⟨es, he⟩]
      have harg : argNeedsGroup 1 e = false := by
        have hlevel : e.level ≠ .sequence := fun hl => hseq (Expr.exists_of_level_sequence hl)
        unfold argNeedsGroup
        revert hlevel
        cases e.level <;> decide
      simp [Expr.reread, Expr.rereadArgs, harg, Expr.inGroup, Expr.stacksSigns,
        Expr.anyStacksSigns, ih trivial]

end Derives

namespace Renderable

variable {e : Expr} {es : List Expr}

/-- A sequence goes on with whatever the written language has words for. -/
theorem append_element (h : Renderable (.nary .sequence es)) (he : Renderable e) :
    Renderable (.nary .sequence (es ++ [e])) := by
  cases h with
  | merged hop => rcases hop with hop | hop <;> cases hop
  | sequence hne h₁ h₂ hes =>
    refine .sequence hne h₁ h₂ ?_
    intro g hg
    rcases List.mem_append.mp hg with hg | hg
    · exact hes g hg
    · rw [List.mem_singleton.mp hg]
      exact he

theorem of_mem_arguments (h : Renderable e) : ∀ x ∈ e.arguments, Renderable x := by
  by_cases hseq : ∃ es, e = .nary .sequence es
  · obtain ⟨es, rfl⟩ := hseq
    change ∀ x ∈ es, Renderable x
    cases h with
    | merged hop => rcases hop with hop | hop <;> cases hop
    | sequence _ h₁ h₂ hes =>
      intro x hx
      rw [List.mem_cons, List.mem_cons] at hx
      rcases hx with rfl | rfl | hx
      · exact h₁
      · exact h₂
      · exact hes x hx
  · rw [Expr.arguments_of_ne_sequence fun es he => hseq ⟨es, he⟩]
    simpa using h

end Renderable

/-- What is read from names and from literals has words in the written language. -/
theorem Derives.renderable {p : Phrase} {ts : List Token} {e : Expr} (h : Derives p ts e)
    (hname : ∀ t ∈ ts, t.isWord → IsName t.lexeme)
    (hint : ∀ t ∈ ts, t.kind = .int → IsLiteral (Decimal.read t.lexeme)) : Renderable e := by
  induction h with
  | operation _ _ _ _ ihl ihr =>
    simp only [List.mem_append, List.mem_cons] at hname hint
    exact .operation (ihl (fun t ht => hname t (.inl ht)) fun t ht => hint t (.inl ht))
      (ihr (fun t ht => hname t (.inr (.inr ht))) fun t ht => hint t (.inr (.inr ht)))
  | pair _ hl _ ihl ihr =>
    simp only [List.mem_append, List.mem_cons] at hname hint
    exact .sequence (hl.ne_sequence (by decide))
      (ihl (fun t ht => hname t (.inl ht)) fun t ht => hint t (.inl ht))
      (ihr (fun t ht => hname t (.inr (.inr ht))) fun t ht => hint t (.inr (.inr ht)))
      (by simp)
  | more _ _ _ ihl ihr =>
    simp only [List.mem_append, List.mem_cons] at hname hint
    have hes := ihl (fun t ht => hname t (.inl ht)) fun t ht => hint t (.inl ht)
    exact hes.append_element
      (ihr (fun t ht => hname t (.inr (.inr ht))) fun t ht => hint t (.inr (.inr ht)))
  | elements _ ih | inner _ _ ih | unsigned _ ih => exact ih hname hint
  | sign hkind _ _ ih =>
    exact .sign hkind (ih (fun t ht => hname t (by simp [ht])) fun t ht => hint t (by simp [ht]))
  | int ht => exact .number (hint _ (by simp) ht)
  | name ht => exact .name (hname _ (by simp) ht)
  | paren _ _ _ ih =>
    exact .group (.inl rfl)
      (ih (fun t ht => hname t (by simp [ht])) fun t ht => hint t (by simp [ht]))
  | bracket _ _ _ ih =>
    exact .group (.inr rfl)
      (ih (fun t ht => hname t (by simp [ht])) fun t ht => hint t (by simp [ht]))
  | thunk hf => exact .call (hname _ (by simp) hf) (by simp)
  | call hf _ _ _ ih =>
    have he := ih (fun t ht => hname t (by simp [ht])) fun t ht => hint t (by simp [ht])
    exact .call (hname _ (by simp) hf) he.of_mem_arguments

/-- The text of an expression that was read is read again, as the same expression unless signs are
stacked in it. The integers in the source must be such that doubles keep them. -/
theorem parse_text_of_parse {source : String} {e : Expr} (h : parse source = .ok e)
    (hfinite : ∀ t ∈ tokens source, t.kind = .int → (Decimal.read t.lexeme).isFinite = true)
    (hreads : ∀ t ∈ tokens source, t.kind = .int →
      Decimal.read (numeral (Decimal.read t.lexeme)) = Decimal.read t.lexeme) :
    ∃ t, parse e.text = .ok t ∧ (t = e ↔ e.stacksSigns = false) := by
  have hd := (parse_iff_derives source e).mp h
  have hint : ∀ t ∈ tokens source, t.kind = .int → IsLiteral (Decimal.read t.lexeme) := by
    intro t ht hkind
    refine ⟨isWhole_read (hfinite t ht hkind), ?_⟩
    rw [unsigned, if_neg (not_read_lt_zero t.lexeme)]
    exact hreads t ht hkind
  have hrenderable := hd.renderable (fun t ht => isName_of_isWord ht) hint
  exact ⟨e.reread, hrenderable.parse_text_eq, hd.reread_eq_iff trivial⟩

/-- The shortest kind of text that does not come back: an exponent with two signs. -/
def stackedExponent : Expr :=
  .binaryOf .power (.named "a") (.signed .subtraction (.signed .subtraction (.number 2)))

theorem tokens_stackedExponent :
    tokens "a^--2" = [⟨.name, "a", ⟨0, 1⟩⟩, ⟨.caret, "^", ⟨1, 2⟩⟩, ⟨.minus, "-", ⟨2, 3⟩⟩,
      ⟨.minus, "-", ⟨3, 4⟩⟩, ⟨.int, "2", ⟨4, 5⟩⟩] := by
  decide +kernel

theorem parse_stackedExponent : parse "a^--2" = .ok stackedExponent := by
  rw [parse_iff_derives, tokens_stackedExponent]
  have ha : Derives (.plain .atom) [⟨.name, "a", ⟨0, 1⟩⟩] (.named "a") := .name (by decide)
  have htwo : Derives (.plain .atom) [⟨.int, "2", ⟨4, 5⟩⟩] (.number 2) := .int rfl
  have hsigns : Derives (.signed .root) [⟨.minus, "-", ⟨2, 3⟩⟩, ⟨.minus, "-", ⟨3, 4⟩⟩,
      ⟨.int, "2", ⟨4, 5⟩⟩] (.signed .subtraction (.signed .subtraction (.number 2))) :=
    .sign (.inr rfl) rfl (.sign (.inr rfl) rfl (.unsigned (htwo.weaken (by decide))))
  have hpower : Derives (.plain .power) ([_] ++ (⟨.caret, "^", ⟨1, 2⟩⟩ : Token) :: _)
      stackedExponent :=
    .operation rfl rfl (ha.weaken (by decide)) hsigns
  exact hpower.weaken (by decide)

theorem parse_text_of_parse_stackedExponent :
    parse "a^--2" = .ok stackedExponent ∧ stackedExponent.text = "a^(--2)" ∧
      ∃ t, parse stackedExponent.text = .ok t ∧ t ≠ stackedExponent := by
  refine ⟨parse_stackedExponent, by decide +kernel, ?_⟩
  have hstacked : ¬ stackedExponent.stacksSigns = false := by decide
  have hfinite : (Decimal.read "2").isFinite = true := by decide +kernel
  have hreads : Decimal.read (numeral (Decimal.read "2")) = Decimal.read "2" := by decide +kernel
  obtain ⟨t, ht, hiff⟩ := parse_text_of_parse parse_stackedExponent
    (by simpa [tokens_stackedExponent] using hfinite)
    (by simpa [tokens_stackedExponent] using hreads)
  exact ⟨t, ht, fun heq => hstacked (hiff.mp heq)⟩

end Formulary
