import Formulary.Proofs.Text.Rereading

/-!
Texts say what they were written for. The text of an expression is read as the expression itself,
but for parentheses, and but for lists of operands, which the written language has no form of.
-/

namespace Formulary

/-- A number without its sign. -/
def unsigned (x : Float) : Float := if x < 0 then -x else x

/-- The whole numbers whose digits read back as what they were written for. -/
structure IsLiteral (x : Float) : Prop where
  whole : IsWhole x
  reads : Decimal.read (numeral (unsigned x)) = unsigned x

/-- The expressions that the written language has words for. A sequence as the first element of a
sequence is not told from its elements. -/
inductive Renderable : Expr → Prop
  | number {x : Float} : IsLiteral x → Renderable (.number x)
  | name {name : String} : IsName name → Renderable (.named name)
  | term {c a x : Expr} :
      Renderable c → Renderable a → Renderable x → Renderable (.term c a x)
  | group {op : UnaryOp} {e : Expr} :
      op = .paren ∨ op = .bracket → Renderable e → Renderable (.unary op e)
  | operation {kind : BinaryKind} {l r : Expr} :
      Renderable l → Renderable r → Renderable (.binaryOf kind l r)
  | sign {kind : BinaryKind} {e : Expr} :
      kind = .addition ∨ kind = .subtraction → Renderable e → Renderable (.signed kind e)
  | merged {op : NaryOp} {es : List Expr} :
      op = .sum ∨ op = .product → (∀ e ∈ es, Renderable e) → Renderable (.nary op es)
  | sequence {e f : Expr} {es : List Expr} :
      (∀ gs, e ≠ .nary .sequence gs) → Renderable e → Renderable f →
      (∀ g ∈ es, Renderable g) → Renderable (.nary .sequence (e :: f :: es))
  | call {name : String} {es : List Expr} :
      IsName name → (∀ e ∈ es, Renderable e) → Renderable (.call name es)

section Literals

variable {x : Float} {s : String}

theorem IsDigits.writes (h : IsDigits s.toList) :
    Writes (.plain .atom) s (.number (Decimal.read s)) := by
  refine ⟨[.of .int s], ?_, .int rfl⟩
  intro rest hrest
  obtain ⟨hne, hdigits⟩ := h
  rcases hs : s.toList with _ | ⟨c, cs⟩
  · exact absurd hs hne
  · rw [hs] at hdigits
    rw [lex_digits (hdigits c (by simp)) (fun d hd => hdigits d (by simp [hd])) hrest, ← hs,
      String.ofList_toList]
    rfl

theorem IsLiteral.writes (h : IsLiteral x) (hx : ¬ x < 0) :
    Writes (.plain .atom) (numeral x) (.number x) := by
  have hreads := h.reads
  rw [unsigned, if_neg hx] at hreads
  have hw := (h.whole.isDigits_numeral hx).writes
  rwa [hreads] at hw

theorem IsLiteral.rereads (h : IsLiteral x) : Rereads (.number x) (.ofNumeral x) := by
  by_cases hx : x < 0
  · obtain ⟨hnumeral, hwhole, hpos⟩ := h.whole.numeral_of_neg hx
    have hreads := h.reads
    rw [unsigned, if_pos hx] at hreads
    have hlit : IsLiteral (-x) := ⟨hwhole, by rwa [unsigned, if_neg hpos]⟩
    have hdigits := (hlit.writes hpos).map (q := .signed .division) fun _ hd =>
      .unsigned (hd.of_atom .division (by decide) .left)
    have hsign := (hdigits.sign (.inr rfl)).map (q := .plain .subtraction) fun _ hd =>
      .inner (by decide) hd
    apply Rereads.of_plain rfl
    simpa [Expr.level, Expr.text, Expr.ofNumeral, hx, hnumeral, BinaryKind.tag] using hsign
  · apply Rereads.of_plain rfl
    simpa [Expr.level, Expr.text, Expr.ofNumeral, hx] using h.writes hx

end Literals

theorem Expr.exists_of_level_sequence {e : Expr} (h : e.level = .sequence) :
    ∃ es, e = .nary .sequence es := by
  cases e with
  | nary op es => cases op <;> simp_all [level, NaryOp.level]
  | binary op l r =>
    obtain ⟨kind, implicit⟩ := op
    cases kind <;> simp [level, BinaryKind.level] at h
  | number x => by_cases hx : x < 0 <;> simp [level, hx] at h
  | _ => cases h

theorem Expr.arguments_of_ne_sequence {e : Expr} (h : ∀ es, e ≠ .nary .sequence es) :
    e.arguments = [e] := by
  unfold arguments
  split
  · exact absurd rfl (h _)
  · rfl

/-- Before a comma, only an equation is in parentheses, if no sequence is there. -/
theorem needsGroup_sequence_left {e : Expr} (h : ∀ es, e ≠ .nary .sequence es) :
    needsGroup .sequence e .left = needsGroup .addition e .left := by
  have hlevel : e.level ≠ .sequence := fun hl =>
    let ⟨es, he⟩ := Expr.exists_of_level_sequence hl
    h es he
  unfold needsGroup
  split
  · rfl
  · revert hlevel
    cases e.level <;> decide

section Lists

variable {t : Expr} {s : String} {op : NaryOp}

/-- More operands of a list are operations around what is written before them. -/
theorem Writes.tail (kind : BinaryKind) (es : List Expr) (hop : op.level = kind.level)
    (htag : op.tag = kind.between)
    (h : Writes (.plain kind.level) s t) (hes : ∀ e ∈ es, Rereads e e.reread) :
    Writes (.plain kind.level) (s ++ Expr.textTail op es)
      ((Expr.rereadTail kind.level es).foldl (.binaryOf kind) t) := by
  induction es generalizing s t with
  | nil => simpa [Expr.textTail, Expr.rereadTail] using h
  | cons e es ih =>
    have he := (hes e (by simp)).operand kind.level kind.level_ne_atom .right
    have hmore := ih (h.operation kind he) fun e' he' => hes e' (by simp [he'])
    rw [Expr.textTail, Expr.rereadTail, List.foldl_cons, hop, htag]
    simpa [String.append_assoc] using hmore

/-- More elements of a sequence go on with what is written before them. -/
theorem Writes.elements (es : List Expr) {ts : List Expr}
    (h : Writes .elements s (.nary .sequence ts)) (hes : ∀ e ∈ es, Rereads e e.reread) :
    Writes .elements (s ++ Expr.textTail .sequence es)
      (.nary .sequence (ts ++ Expr.rereadTail .sequence es)) := by
  induction es generalizing s ts with
  | nil => simpa [Expr.textTail, Expr.rereadTail] using h
  | cons e es ih =>
    have he := (hes e (by simp)).operand .sequence (by decide) .right
    have hmore := ih (h.more he) fun e' he' => hes e' (by simp [he'])
    rw [Expr.textTail, Expr.rereadTail]
    simpa [String.append_assoc, NaryOp.tag, NaryOp.level] using hmore

end Lists

namespace Renderable

variable {e : Expr} {es : List Expr} {count : Nat}

theorem level_of_signed (h : Renderable e) (hs : e.isSigned = true) :
    e.level = .addition ∨ e.level = .subtraction := by
  cases h with
  | sign hkind =>
    rcases hkind with rfl | rfl
    · exact .inl rfl
    · exact .inr rfl
  | _ => simp [Expr.isSigned, Expr.binaryOf, Expr.named] at hs

theorem exists_of_level_equality (h : Renderable e) (hl : e.level = .equality) :
    ∃ l r, e = .binaryOf .equality l r := by
  cases h with
  | @operation kind l r =>
    cases kind with
    | equality => exact ⟨l, r, rfl⟩
    | _ => cases hl
  | sign hkind => rcases hkind with rfl | rfl <;> cases hl
  | merged hop => rcases hop with rfl | rfl <;> cases hl
  | @number x => by_cases hx : x < 0 <;> simp [Expr.level, hx] at hl
  | _ => cases hl

/-- Several arguments of a call are grouped as the elements of a sequence are. -/
theorem argNeedsGroup_eq (h : Renderable e) (hcount : 1 < count) :
    argNeedsGroup count e = needsGroup .sequence e .right := by
  cases hs : e.isSigned with
  | false =>
    rw [needsGroup_of_not_signed hs]
    unfold argNeedsGroup
    cases e.level <;> simp [hcount] <;> decide
  | true =>
    rw [needsGroup_of_signed hs (by decide)]
    unfold argNeedsGroup
    rcases h.level_of_signed hs with hl | hl <;> rw [hl]

theorem textArgs_eq (h : ∀ e ∈ es, Renderable e) (hcount : 1 < count) :
    Expr.textArgs count es = Expr.textTail .sequence es := by
  induction es with
  | nil => rfl
  | cons e es ih =>
    rw [Expr.textArgs, Expr.textTail, ih fun g hg => h g (by simp [hg]),
      (h e (by simp)).argNeedsGroup_eq hcount]
    rfl

theorem rereadArgs_eq (h : ∀ e ∈ es, Renderable e) (hcount : 1 < count) :
    Expr.rereadArgs count es = Expr.rereadTail .sequence es := by
  induction es with
  | nil => rfl
  | cons e es ih =>
    rw [Expr.rereadArgs, Expr.rereadTail, ih fun g hg => h g (by simp [hg]),
      (h e (by simp)).argNeedsGroup_eq hcount]

/-- One argument of a call is read as one, and not as the elements of a sequence. -/
theorem writes_argument (h : Renderable e) (hread : Rereads e e.reread) :
    Writes (.plain .equality) (grouping (argNeedsGroup 1 e) e.text)
        (.inGroup (argNeedsGroup 1 e) e.reread) ∧
      (Expr.inGroup (argNeedsGroup 1 e) e.reread).arguments =
        [.inGroup (argNeedsGroup 1 e) e.reread] := by
  cases harg : argNeedsGroup 1 e with
  | true => exact ⟨hread.whole.paren.map fun _ hd => hd.weaken (by decide), rfl⟩
  | false =>
    refine ⟨hread.whole, ?_⟩
    by_cases hgroup : needsGroup .addition e .left = false
    · obtain ⟨ts, -, hd⟩ := hread .addition (by decide) .left hgroup
      exact Expr.arguments_of_ne_sequence (hd.ne_sequence (by decide))
    · have hlevel : e.level = .equality := by
        cases hs : e.isSigned with
        | true => exact absurd (needsGroup_of_signed hs (by decide) .left) hgroup
        | false =>
          rw [needsGroup_of_not_signed hs] at hgroup
          unfold argNeedsGroup at harg
          revert harg hgroup
          cases e.level <;> decide
      obtain ⟨l, r, rfl⟩ := h.exists_of_level_equality hlevel
      rfl

/-- The arguments of a call, read between its parentheses. -/
theorem writes_call {name : String} (hname : IsName name) (hes : ∀ e ∈ es, Renderable e)
    (hread : ∀ e ∈ es, Rereads e e.reread) :
    Writes (.plain .atom) (Expr.call name es).text (Expr.call name es).reread := by
  match es with
  | [] => exact hname.writes_thunk
  | [e] =>
    obtain ⟨hw, hone⟩ := (hes e (by simp)).writes_argument (hread e (by simp))
    have hcall := hname.writes_call hw
    rw [hone] at hcall
    simpa [Expr.text, Expr.textArgs, Expr.reread, Expr.rereadArgs] using hcall
  | e :: f :: es =>
    have hcount : 1 < (e :: f :: es).length := by simp
    have he := (hread e (by simp)).operand .sequence (by decide) .right
    have hf := (hread f (by simp)).operand .sequence (by decide) .right
    have hall := (he.pair hf).elements es fun g hg => hread g (by simp [hg])
    have hcall := hname.writes_call (hall.map fun _ hd =>
      (Derives.elements hd).weaken (by decide))
    have hfirst := (hes e (by simp)).argNeedsGroup_eq hcount
    have htail : Expr.textArgs _ (f :: es) = _ :=
      textArgs_eq (fun g hg => hes g (by simp [hg])) hcount
    rw [Expr.text, Expr.reread, rereadArgs_eq hes hcount]
    change Writes _ (name ++ "(" ++ grouping (argNeedsGroup (e :: f :: es).length e) e.text ++
      Expr.textArgs (e :: f :: es).length (f :: es) ++ ")") _
    rw [hfirst, htail, Expr.textTail]
    simpa [Expr.rereadTail, Expr.arguments, String.append_assoc, NaryOp.tag, NaryOp.level] using
      hcall

/-- A list of operands is read as operations, and an empty one as the number it stands for. -/
theorem writes_merged {op : NaryOp} (hop : op = .sum ∨ op = .product)
    (hread : ∀ e ∈ es, Rereads e e.reread) :
    Writes (.plain op.level) (Expr.nary op es).text (Expr.nary op es).reread := by
  match es with
  | [] =>
    rcases hop with rfl | rfl
    · have hzero := (show IsDigits "0".toList from ⟨by simp, by simp⟩).writes
      exact hzero.map fun _ hd => hd.of_atom .addition (by decide) .left
    · have hone := (show IsDigits "1".toList from ⟨by simp, by simp⟩).writes
      exact hone.map fun _ hd => hd.of_atom .multiplication (by decide) .left
  | e :: es =>
    have hmore : ∀ g ∈ es, Rereads g g.reread := fun g hg => hread g (by simp [hg])
    rcases hop with rfl | rfl
    · have he := (hread e (by simp)).operand .addition (by decide) .left
      exact Writes.tail .addition es rfl rfl he hmore
    · have he := (hread e (by simp)).operand .multiplication (by decide) .left
      exact Writes.tail .multiplication es rfl rfl he hmore

/-- Texts read as what is said of them. -/
theorem rereads (h : Renderable e) : Rereads e e.reread := by
  induction h with
  | number h => exact h.rereads
  | name h => exact .of_plain rfl h.writes
  | @term c a x _ _ _ ihc iha ihx =>
    apply Rereads.of_plain rfl
    have hproduct := (ihc.operand .multiplication (by decide) .left).operation
      .multiplication (iha.operand .multiplication (by decide) .right)
    exact hproduct.operation .multiplication (ihx.operand .multiplication (by decide) .right)
  | group hop _ ih =>
    apply Rereads.of_plain rfl
    rcases hop with rfl | rfl
    · exact ih.whole.paren
    · exact ih.whole.bracket
  | operation _ _ ihl ihr => exact ihl.operation ihr
  | sign hkind he ih =>
    refine ih.sign hkind ?_
    intro hs
    rcases he.level_of_signed hs with hl | hl <;> rw [hl] <;> decide
  | @merged op es hop _ ih =>
    apply Rereads.of_plain rfl
    exact writes_merged hop ih
  | @sequence e f es hne _ _ _ ihe ihf ih =>
    apply Rereads.of_plain rfl
    have hfirst := ihe.operand .addition (by decide) .left
    rw [← needsGroup_sequence_left hne] at hfirst
    have hpair := hfirst.pair (ihf.operand .sequence (by decide) .right)
    have hall := (hpair.elements es ih).map (q := .plain .sequence) fun _ hd => .elements hd
    simpa [Expr.text, Expr.textTail, Expr.reread, Expr.rereadOperands, Expr.rereadTail,
      String.append_assoc, NaryOp.tag, NaryOp.level, Expr.level] using hall
  | call hname hes ih => exact .of_plain rfl (writes_call hname hes ih)

theorem parse_text_eq (h : Renderable e) : parse e.text = .ok e.reread := h.rereads.whole.parse_eq

end Renderable

namespace Expr

mutual

/-- The expression with no parentheses in it. -/
def dropParens : Expr → Expr
  | .number x => .number x
  | .symbol kind name bound => .symbol kind name bound
  | .term c a x => .term c.dropParens a.dropParens x.dropParens
  | .unary .paren e => e.dropParens
  | .unary op e => .unary op e.dropParens
  | .binary op l r => .binary op l.dropParens r.dropParens
  | .nary op es => .nary op (dropAll es)
  | .call name es => .call name (dropAll es)

def dropAll : List Expr → List Expr
  | [] => []
  | e :: es => e.dropParens :: dropAll es

end

mutual

/-- The expression with no parentheses in it, with negative numbers as subtractions and with lists
of operands as operations. -/
def normal : Expr → Expr
  | .number x => ofNumeral x
  | .symbol kind name bound => .symbol kind name bound
  | .term c a x =>
    .binaryOf .multiplication (.binaryOf .multiplication c.normal a.normal) x.normal
  | .unary .paren e => e.normal
  | .unary op e => .unary op e.normal
  | .binary op l r => .binary op l.normal r.normal
  | .nary .sum es => leftNested .addition 0 (normals es)
  | .nary .product es => leftNested .multiplication 1 (normals es)
  | .nary .sequence es => .nary .sequence (normals es)
  | .call name es => .call name (normals es)

def normals : List Expr → List Expr
  | [] => []
  | e :: es => e.normal :: normals es

end

@[simp] theorem dropParens_inGroup (grouped : Bool) (e : Expr) :
    (inGroup grouped e).dropParens = e.dropParens := by
  cases grouped <;> simp [inGroup, dropParens]

theorem dropParens_foldl (kind : BinaryKind) (e : Expr) (es : List Expr) :
    (es.foldl (.binaryOf kind) e).dropParens =
      (dropAll es).foldl (.binaryOf kind) e.dropParens := by
  induction es generalizing e with
  | nil => rfl
  | cons f es ih => exact ih (.binaryOf kind e f)

theorem dropParens_leftNested (kind : BinaryKind) (unit : Float) (es : List Expr) :
    (leftNested kind unit es).dropParens = leftNested kind unit (dropAll es) := by
  cases es with
  | nil => simp [leftNested, dropAll, dropParens]
  | cons e es => simpa [leftNested, dropAll] using dropParens_foldl kind e es

theorem dropParens_ofNumeral (x : Float) : (ofNumeral x).dropParens = ofNumeral x := by
  unfold ofNumeral
  split <;> simp [signed, dropParens]

section Lists

variable {es : List Expr} {level : Level} {count : Nat}

theorem dropAll_rereadTail (h : ∀ e ∈ es, e.reread.dropParens = e.normal) :
    dropAll (rereadTail level es) = normals es := by
  induction es with
  | nil => rfl
  | cons e es ih =>
    simp [rereadTail, dropAll, normals, h e, ih fun f hf => h f (by simp [hf])]

theorem dropAll_rereadOperands (h : ∀ e ∈ es, e.reread.dropParens = e.normal) :
    dropAll (rereadOperands level es) = normals es := by
  cases es with
  | nil => rfl
  | cons e es =>
    have htail : dropAll (rereadTail level es) = normals es :=
      dropAll_rereadTail fun f hf => h f (List.mem_cons_of_mem e hf)
    simp [rereadOperands, dropAll, normals, h e, htail]

theorem dropAll_rereadArgs (h : ∀ e ∈ es, e.reread.dropParens = e.normal) :
    dropAll (rereadArgs count es) = normals es := by
  induction es with
  | nil => rfl
  | cons e es ih =>
    simp [rereadArgs, dropAll, normals, h e, ih fun f hf => h f (by simp [hf])]

end Lists

end Expr

theorem ofNumeral_zero : Expr.ofNumeral 0 = .number 0 := rfl

/-- What is put in when a text is read are parentheses only. -/
theorem Renderable.dropParens_reread {e : Expr} (h : Renderable e) :
    e.reread.dropParens = e.normal := by
  induction h with
  | number => simp [Expr.reread, Expr.normal, Expr.dropParens_ofNumeral]
  | name => rfl
  | term _ _ _ ihc iha ihx =>
    simp [Expr.reread, Expr.normal, Expr.binaryOf, Expr.dropParens, ihc, iha, ihx]
  | group hop _ ih =>
    rcases hop with rfl | rfl
    · exact ih
    · simp [Expr.reread, Expr.normal, Expr.dropParens, ih]
  | operation _ _ ihl ihr =>
    simp [Expr.reread, Expr.normal, Expr.binaryOf, Expr.dropParens, ihl, ihr]
  | sign _ _ ih =>
    simp [Expr.reread, Expr.normal, Expr.signed, Expr.dropParens, ofNumeral_zero, ih]
  | merged hop _ ih =>
    rcases hop with rfl | rfl
    · simp [Expr.reread, Expr.normal, Expr.dropParens_leftNested, Expr.dropAll_rereadOperands ih]
    · simp [Expr.reread, Expr.normal, Expr.dropParens_leftNested, Expr.dropAll_rereadOperands ih]
  | @sequence e f es _ _ _ _ ihe ihf ih =>
    have hall : ∀ g ∈ e :: f :: es, g.reread.dropParens = g.normal := by
      simp only [List.mem_cons]
      rintro g (rfl | rfl | hg)
      · exact ihe
      · exact ihf
      · exact ih g hg
    simp [Expr.reread, Expr.normal, Expr.dropParens, Expr.dropAll_rereadOperands hall]
  | call _ _ ih => simp [Expr.reread, Expr.normal, Expr.dropParens, Expr.dropAll_rereadArgs ih]

/-- The text of an expression parses, and to the expression itself: parentheses aside, the two
have the same normal form. -/
theorem parse_text_dropParens {e : Expr} (h : Renderable e) :
    ∃ t, parse e.text = .ok t ∧ t.dropParens = e.normal :=
  ⟨e.reread, h.parse_text_eq, h.dropParens_reread⟩

theorem isLiteral_two : IsLiteral 2 := ⟨by decide +kernel, by decide +kernel⟩

theorem isLiteral_neg_three : IsLiteral (-3) := ⟨by decide +kernel, by decide +kernel⟩

theorem parse_text_dropParens_product :
    Renderable (.nary .product [.number 2, .nary .sum [.named "x", .number (-3)]]) ∧
      ∃ t, parse "2*(x+-3)" = .ok t ∧
        t.dropParens = .binaryOf .multiplication (.number 2)
          (.binaryOf .addition (.named "x") (.signed .subtraction (.number 3))) := by
  have hname : IsName "x" := by decide
  have hsum : Renderable (.nary .sum [.named "x", .number (-3)]) :=
    .merged (.inl rfl) (by simpa using ⟨.name hname, .number isLiteral_neg_three⟩)
  have hproduct : Renderable (.nary .product [.number 2, .nary .sum [.named "x", .number (-3)]]) :=
    .merged (.inr rfl) (by simpa using ⟨.number isLiteral_two, hsum⟩)
  have htext : (Expr.nary .product [.number 2, .nary .sum [.named "x", .number (-3)]]).text =
      "2*(x+-3)" := by decide +kernel
  have hnormal : (Expr.nary .product [.number 2, .nary .sum [.named "x", .number (-3)]]).normal =
      .binaryOf .multiplication (.number 2)
        (.binaryOf .addition (.named "x") (.signed .subtraction (.number 3))) := by
    rfl
  have h := parse_text_dropParens hproduct
  rw [htext, hnormal] at h
  exact ⟨hproduct, h⟩

end Formulary
