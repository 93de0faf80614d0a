import Formulary.Proofs.Decimal.Numerals
import Formulary.Proofs.Text.Writing
import Formulary.Proofs.Traversal.PostOrder
import Formulary.Render.Tex

/-!
Delimiters in TeX. Braces, fences and optional arguments are always nested in each other. TeX,
however, ends an optional argument at the first closing bracket outside braces, whatever this
bracket belongs to, and the degree of a root is written in such a place.
-/

namespace Formulary

namespace Tex

inductive Fence
  | round
  | square
  deriving DecidableEq, Repr

/-- The beginnings and ends of what is delimited. -/
inductive Mark
  | openBrace
  | closeBrace
  | left (fence : Fence)
  | right (fence : Fence)
  | openOption
  | closeOption
  deriving DecidableEq, Repr

namespace Mark

def word : Mark → String
  | openBrace => "\x7b"
  | closeBrace => "\x7d"
  | left .round => "\\left("
  | left .square => "\\left["
  | right .round => "\\right)"
  | right .square => "\\right]"
  | openOption => "\\sqrt["
  | closeOption => "]"

def all : List Mark :=
  [openBrace, closeBrace, left .round, left .square, right .round, right .square, openOption,
    closeOption]

/-- The characters that marks begin with. -/
def initials : List Char := ['\\', '\x7b', '\x7d', ']']

/-- The mark that a text begins with. -/
def first? (cs : List Char) : Option Mark := all.find? fun m => m.word.toList.isPrefixOf cs

end Mark

/-- The marks of a text, of which the first `skip` characters are part of the mark before. -/
def marksAfter : Nat → List Char → List Mark
  | _, [] => []
  | skip + 1, _ :: cs => marksAfter skip cs
  | 0, c :: cs =>
    match Mark.first? (c :: cs) with
    | some m => m :: marksAfter (m.word.length - 1) cs
    | none => marksAfter 0 cs

def marks (cs : List Char) : List Mark := marksAfter 0 cs

/-- What waits to be closed. -/
inductive Opening
  | brace
  | fence (fence : Fence)
  | option
  deriving DecidableEq, Repr

/-- Whether an optional argument is open in which no brace was opened since. A closing bracket ends
it. -/
def awaitsBracket : List Opening → Bool
  | [] | .brace :: _ => false
  | .fence _ :: stack => awaitsBracket stack
  | .option :: _ => true

/-- Reads a mark where the openings of `stack` wait to be closed, the last one first. A `strict`
reader takes every closing bracket outside braces for the end of an optional argument if it awaits
one, so it refuses a bracket inside this argument that belongs to something else. -/
def read (strict : Bool) (stack : List Opening) (m : Mark) : Option (List Opening) :=
  match m, stack with
  | .openBrace, stack => some (.brace :: stack)
  | .closeBrace, .brace :: stack => some stack
  | .left fence, stack => some (.fence fence :: stack)
  | .right .round, .fence .round :: stack => some stack
  | .right .square, .fence .square :: stack | .closeOption, .option :: stack =>
    if strict && awaitsBracket stack then none else some stack
  | .openOption, stack => some (.option :: stack)
  | _, _ => none

/-- Whether braces, fences and optional arguments are closed in the opposite order to that in which
they were opened, each by its own mark. -/
def Nested (text : String) : Prop := (marks text.toList).foldlM (read false) [] = some []

/-- Whether, besides, every optional argument ends for TeX at the bracket that closes it. -/
def OptionsEnd (text : String) : Prop := (marks text.toList).foldlM (read true) [] = some []

instance (text : String) : Decidable (Nested text) := inferInstanceAs (Decidable (_ = _))

instance (text : String) : Decidable (OptionsEnd text) := inferInstanceAs (Decidable (_ = _))

/-- A text that leaves open what was open before it. A strict reader gets over it unless the text
`cuts` an optional argument of its own, or `shows` a bracket outside braces where one is awaited. -/
def Delimited (text : String) (shows cuts : Bool) : Prop :=
  ∃ ms, (∀ rest, marks (text.toList ++ rest) = ms ++ marks rest) ∧
    ∀ strict stack, ms.foldlM (read strict) stack =
      if strict && (cuts || awaitsBracket stack && shows) then none else some stack

section Delimited

variable {s t : String} {shows cuts shows' cuts' : Bool}

theorem not_mem_initials {P : Char → Bool} {c : Char} (hP : Mark.initials.any P = false)
    (h : P c = true) : c ∉ Mark.initials := by
  intro hc
  exact List.any_eq_false.mp hP c hc h

theorem marks_cons_of_plain {c : Char} (h : c ∉ Mark.initials) (rest : List Char) :
    marks (c :: rest) = marks rest := by
  have hnone : Mark.first? (c :: rest) = none := by
    simp only [Mark.initials, List.mem_cons, not_or] at h
    simp [Mark.first?, Mark.all, Mark.word, Ne.symm h.1, Ne.symm h.2.1, Ne.symm h.2.2.1,
      Ne.symm h.2.2.2.1]
  rw [marks, marksAfter, hnone]
  rfl

theorem Delimited.of_silent (h : ∀ rest, marks (s.toList ++ rest) = marks rest) :
    Delimited s false false := by
  refine ⟨[], h, ?_⟩
  simp

theorem Delimited.of_plain (h : ∀ c ∈ s.toList, c ∉ Mark.initials) : Delimited s false false := by
  refine .of_silent fun rest => ?_
  generalize s.toList = cs at h
  induction cs with
  | nil => rfl
  | cons c cs ih =>
    rw [List.cons_append, marks_cons_of_plain (h c (by simp)), ih fun d hd => h d (by simp [hd])]

theorem Delimited.append (hs : Delimited s shows cuts) (ht : Delimited t shows' cuts') :
    Delimited (s ++ t) (shows || shows') (cuts || cuts') := by
  obtain ⟨ms, hms, hruns⟩ := hs
  obtain ⟨ns, hns, hrunt⟩ := ht
  refine ⟨ms ++ ns, ?_, ?_⟩
  · intro rest
    rw [String.toList_append, List.append_assoc, hms, hns, List.append_assoc]
  · intro strict stack
    rw [List.foldlM_append, hruns]
    cases strict <;> cases cuts <;> cases shows <;> cases hw : awaitsBracket stack <;>
      simp [hrunt, hw]

/-- Texts on both sides of one without delimiters. -/
theorem Delimited.operation {b : String} (hs : Delimited s shows cuts)
    (hb : Delimited b false false) (ht : Delimited t shows' cuts') :
    Delimited (s ++ b ++ t) (shows || shows') (cuts || cuts') := by
  simpa only [Bool.or_false] using (hs.append hb).append ht

/-- A text between two marks. -/
theorem Delimited.enclosed {o c : String} {m m' : Mark} {opening : Opening}
    (hs : Delimited s shows cuts)
    (ho : ∀ rest, marks (o.toList ++ rest) = m :: marks rest)
    (hc : ∀ rest, marks (c.toList ++ rest) = m' :: marks rest)
    (hread : ∀ strict stack, read strict stack m = some (opening :: stack))
    (hclose : ∀ strict stack,
      (if strict && (cuts || awaitsBracket (opening :: stack) && shows) then none
        else some (opening :: stack)).bind (read strict · m') =
      if strict && (cuts' || awaitsBracket stack && shows') then none else some stack) :
    Delimited (o ++ s ++ c) shows' cuts' := by
  obtain ⟨ms, hms, hruns⟩ := hs
  refine ⟨m :: (ms ++ [m']), ?_, ?_⟩
  · intro rest
    rw [String.toList_append, String.toList_append, List.append_assoc, List.append_assoc, ho, hms,
      hc]
    simp
  · intro strict stack
    rw [List.foldlM_cons, hread, ← hclose, ← hruns]
    simp [List.foldlM_append]

/-- Braces hide the brackets between them. -/
theorem Delimited.inBraces {o : String} (hs : Delimited s shows cuts)
    (ho : ∀ rest, marks (o.toList ++ rest) = .openBrace :: marks rest) :
    Delimited (o ++ s ++ "\x7d") false cuts := by
  refine hs.enclosed ho (fun _ => rfl) (fun _ _ => rfl) fun strict stack => ?_
  cases strict <;> cases cuts <;> simp [read, awaitsBracket]

theorem Delimited.braced (hs : Delimited s shows cuts) : Delimited (braced s) false cuts :=
  hs.inBraces fun _ => rfl

theorem Delimited.square (hs : Delimited s shows cuts) :
    Delimited ("\\sqrt" ++ Tex.braced s) false cuts := by
  rw [Tex.braced, ← String.append_assoc, ← String.append_assoc]
  exact hs.inBraces fun _ => rfl

theorem Delimited.fraction (hs : Delimited s shows cuts) (ht : Delimited t shows' cuts') :
    Delimited (fraction s t) false (cuts || cuts') := by
  have hs' : Delimited ("\\frac" ++ Tex.braced s) false cuts := by
    rw [Tex.braced, ← String.append_assoc, ← String.append_assoc]
    exact hs.inBraces fun _ => rfl
  exact hs'.append ht.braced

theorem Delimited.fenced (fence : Fence) (hs : Delimited s shows cuts) :
    Delimited ((Mark.left fence).word ++ s ++ (Mark.right fence).word) (fence == .square || shows)
      cuts := by
  have hleft (rest : List Char) :
      marks ((Mark.left fence).word.toList ++ rest) = .left fence :: marks rest := by
    cases fence <;> rfl
  have hright (rest : List Char) :
      marks ((Mark.right fence).word.toList ++ rest) = .right fence :: marks rest := by
    cases fence <;> rfl
  refine hs.enclosed hleft hright (fun _ _ => rfl) fun strict stack => ?_
  cases fence <;> cases strict <;> cases cuts <;> cases shows <;>
    cases hw : awaitsBracket stack <;> simp [read, awaitsBracket, hw]

theorem Delimited.parens (hs : Delimited s shows cuts) : Delimited (parens s) shows cuts :=
  hs.fenced .round

theorem Delimited.grouping (hs : Delimited s shows cuts) (grouped : Bool) :
    Delimited (grouping grouped s) shows cuts := by
  cases grouped with
  | false => exact hs
  | true => exact hs.parens

/-- An optional argument ends at the first bracket that its text shows. -/
theorem Delimited.optional (hs : Delimited s shows cuts) :
    Delimited ("\\sqrt[" ++ s ++ "]") true (shows || cuts) := by
  refine hs.enclosed (fun _ => rfl) (fun _ => rfl) (fun _ _ => rfl) fun strict stack => ?_
  cases strict <;> cases cuts <;> cases shows <;> cases hw : awaitsBracket stack <;>
    simp [read, awaitsBracket, hw]

end Delimited

end Tex

namespace Expr

open Tex

/-- Whether a degree is two, in parentheses or not, so that it is not written. -/
def isTwo (degree : Expr) : Bool :=
  match degree.innermost with
  | .number n => n == 2
  | _ => false

mutual

/-- Whether the TeX of an expression has a closing bracket outside its braces. -/
def showsBracket : Expr → Bool
  | .number _ | .symbol .. => false
  | .term c a x => c.showsBracket || a.showsBracket || x.showsBracket
  | .unary .bracket _ => true
  | .unary .inverse _ => false
  | .unary _ e => e.showsBracket
  | .binary ⟨_, true⟩ _ r => r.showsBracket
  | .binary ⟨.division, false⟩ _ _ | .binary ⟨.power, false⟩ _ _ => false
  | .binary ⟨.root, false⟩ _ r => !r.isTwo
  | .binary ⟨_, false⟩ l r => l.showsBracket || r.showsBracket
  | .nary _ es | .call _ es => showBracket es

def showBracket : List Expr → Bool
  | [] => false
  | e :: es => e.showsBracket || showBracket es

end

mutual

/-- Whether the degree of a root shows a bracket, which ends it too soon. -/
def cutsDegree : Expr → Bool
  | .number _ | .symbol .. => false
  | .term c a x => c.cutsDegree || a.cutsDegree || x.cutsDegree
  | .unary _ e => e.cutsDegree
  | .binary ⟨_, true⟩ _ r => r.cutsDegree
  | .binary ⟨.root, false⟩ l r => r.showsBracket || r.cutsDegree || l.cutsDegree
  | .binary ⟨_, false⟩ l r => l.cutsDegree || r.cutsDegree
  | .nary _ es | .call _ es => cutDegree es

def cutDegree : List Expr → Bool
  | [] => false
  | e :: es => e.cutsDegree || cutDegree es

end

/-- The name of a symbol or of a function. -/
def ownName? : Expr → Option String
  | .symbol _ name _ | .call name _ => some name
  | _ => none

/-- Whether the names of all symbols and functions of an expression are identifiers. -/
def WellNamed (e : Expr) : Prop :=
  ∀ p ∈ e.postOrder, ∀ name ∈ p.ownName?, isIdentifier name = true

instance (e : Expr) : Decidable e.WellNamed := inferInstanceAs (Decidable (∀ p ∈ _, _))

section WellNamed

variable {e c : Expr}

theorem wellNamed_iff :
    e.WellNamed ↔
      (∀ name ∈ e.ownName?, isIdentifier name = true) ∧ ∀ c ∈ e.children, c.WellNamed := by
  simp only [WellNamed]
  rw [postOrder_eq]
  simp only [List.mem_append, List.mem_flatMap, List.mem_singleton]
  constructor
  · intro h
    exact ⟨h e (.inr rfl), fun c hc p hp => h p (.inl ⟨c, hc, hp⟩)⟩
  · rintro ⟨hself, hchildren⟩ p (⟨c, hc, hp⟩ | rfl)
    · exact hchildren c hc p hp
    · exact hself

theorem WellNamed.of_mem_children (h : e.WellNamed) (hc : c ∈ e.children) : c.WellNamed :=
  (wellNamed_iff.mp h).2 c hc

end WellNamed

section Delimited

theorem isNameChar_of_isNameStart {c : Char} (h : isNameStart c = true) : isNameChar c = true := by
  simp only [isNameStart, isNameChar, Char.isAlphanum, Bool.or_eq_true] at h ⊢
  tauto

variable {e : Expr} {es : List Expr}

theorem delimited_name {name : String} (h : isIdentifier name = true) :
    Delimited name false false := by
  refine .of_plain fun c hc => not_mem_initials (P := isNameChar) (by decide) ?_
  unfold isIdentifier at h
  rcases hname : name.toList with _ | ⟨d, cs⟩
  · simp [hname] at h
  · simp only [hname, Bool.and_eq_true, List.all_eq_true] at h
    rcases List.mem_cons.mp (hname ▸ hc) with rfl | hc
    · exact isNameChar_of_isNameStart h.1
    · exact h.2 c hc

theorem delimited_number (x : Float) : Delimited (Tex.number x) false false := by
  unfold Tex.number
  split
  · exact (Delimited.of_silent (fun _ => rfl)).append (delimited_name (by decide +kernel)).braced
  · exact .of_silent fun _ => rfl
  · exact .of_silent fun _ => rfl
  · exact .of_plain fun c hc => not_mem_initials (P := isNumeralChar) (by decide)
      (isNumeralChar_of_mem_numeral hc)

theorem delimited_mathrm {name : String} (h : isIdentifier name = true) :
    Delimited ("\\mathrm" ++ braced name) false false :=
  (Delimited.of_silent fun _ => rfl).append (delimited_name h).braced

theorem delimited_tag (kind : BinaryKind) : Delimited kind.tag false false := by
  cases kind <;> exact .of_silent fun _ => rfl

theorem delimited_texBetween (kind : BinaryKind) : Delimited kind.texBetween false false := by
  cases kind <;> exact .of_silent fun _ => rfl

theorem delimited_texTail (op : NaryOp)
    (h : ∀ e ∈ es, Delimited (texIn false e) e.showsBracket e.cutsDegree) :
    Delimited (texTail op es) (showBracket es) (cutDegree es) := by
  induction es with
  | nil => exact .of_plain (by simp [texTail])
  | cons e es ih =>
    have hop : Delimited op.texBetween false false := by
      cases op <;> exact .of_silent fun _ => rfl
    exact (hop.append ((h e (by simp)).grouping _)).append (ih fun f hf => h f (by simp [hf]))

theorem delimited_texArgs (count : Nat)
    (h : ∀ e ∈ es, Delimited (texIn false e) e.showsBracket e.cutsDegree) :
    Delimited (texArgs count es) (showBracket es) (cutDegree es) := by
  induction es with
  | nil => exact .of_plain (by simp [texArgs])
  | cons e es ih =>
    have hcomma : Delimited ", " false false := .of_silent fun _ => rfl
    exact (hcomma.append ((h e (by simp)).grouping _)).append (ih fun f hf => h f (by simp [hf]))

theorem radical_eq (degree : Expr) (degreeTex radicand : String) :
    radical degree.innermost degreeTex radicand =
      if degree.isTwo then "\\sqrt" ++ braced radicand
      else "\\sqrt[" ++ degreeTex ++ "]" ++ braced radicand := by
  unfold radical isTwo
  split <;> simp_all

/-- A degree of two is a number, in parentheses or not. -/
theorem hidden_of_isTwo (h : e.isTwo = true) : e.showsBracket = false ∧ e.cutsDegree = false := by
  induction e with
  | number x => exact ⟨rfl, rfl⟩
  | unary op e ih =>
    cases op with
    | paren => exact ih h
    | _ => cases h
  | _ => cases h

/-- What a reader meets in the TeX of an expression does not depend on whether the parentheses
around it are left out. -/
theorem delimited_texIn (h : e.WellNamed) (bare : Bool) :
    Delimited (texIn bare e) e.showsBracket e.cutsDegree := by
  induction e generalizing bare with
  | number x => exact delimited_number x
  | symbol kind name bound => exact delimited_name ((wellNamed_iff.mp h).1 name rfl)
  | term c a x ihc iha ihx =>
    have hc := ihc (h.of_mem_children (by simp [children])) false
    have ha := iha (h.of_mem_children (by simp [children])) false
    have hx := ihx (h.of_mem_children (by simp [children])) false
    exact ((hc.grouping _).append (ha.grouping _)).append (hx.grouping _)
  | unary op e ih =>
    have he := ih (h.of_mem_children (by simp [children]))
    cases op with
    | positive => exact (delimited_tag .addition).append (he false).parens
    | negative => exact (delimited_tag .subtraction).append (he false).parens
    | inverse => exact (Delimited.of_silent fun _ => rfl).fraction (he true)
    | paren =>
      cases bare with
      | true => exact he true
      | false => exact (he false).parens
    | bracket => exact (he false).fenced .square
  | binary op l r ihl ihr =>
    have hl := ihl (h.of_mem_children (by simp [children]))
    have hr := ihr (h.of_mem_children (by simp [children]))
    obtain ⟨kind, implicit⟩ := op
    cases implicit with
    | true => exact (delimited_tag kind).append ((hr false).grouping _)
    | false =>
      cases kind with
      | division => exact (hl true).fraction (hr true)
      | power =>
        exact ((hl false).grouping _).braced.operation (.of_silent fun _ => rfl) (hr true).braced
      | root =>
        -- A degree of two is not written, but then it has no brackets either.
        rw [texIn, radical_eq, showsBracket, cutsDegree]
        cases htwo : r.isTwo with
        | true =>
          rw [(hidden_of_isTwo htwo).1, (hidden_of_isTwo htwo).2]
          exact (hl true).square
        | false => exact (hr true).optional.append (hl true).braced
      | _ =>
        exact ((hl false).grouping _).operation (delimited_texBetween _) ((hr false).grouping _)
  | nary op es ih =>
    have hes : ∀ e ∈ es, Delimited (texIn false e) e.showsBracket e.cutsDegree :=
      fun e he => ih e he (h.of_mem_children he) false
    cases es with
    | nil =>
      rw [texIn]
      cases op <;> exact .of_silent fun _ => rfl
    | cons e es =>
      exact ((hes e (by simp)).grouping _).append
        (delimited_texTail op fun f hf => hes f (by simp [hf]))
  | call name es ih =>
    have hes : ∀ e ∈ es, Delimited (texIn false e) e.showsBracket e.cutsDegree :=
      fun e he => ih e he (h.of_mem_children he) false
    have hname := delimited_mathrm ((wellNamed_iff.mp h).1 name rfl)
    cases es with
    | nil => exact hname.append (Delimited.of_silent fun _ => rfl).parens
    | cons e es =>
      exact hname.append (((hes e (by simp)).grouping _).append
        (delimited_texArgs _ fun f hf => hes f (by simp [hf]))).parens

/-- Delimiters are nested in everything that is written in TeX. What ends the degree of a root is
the bracket written for it, unless the degree of some root shows a bracket of its own. -/
theorem tex_delimited (h : e.WellNamed) :
    Tex.Nested e.tex ∧ (Tex.OptionsEnd e.tex ↔ e.cutsDegree = false) := by
  obtain ⟨ms, hms, hread⟩ := delimited_texIn h false
  have hmarks : marks e.tex.toList = ms := by simpa [tex, marks, marksAfter] using hms []
  rw [Tex.Nested, Tex.OptionsEnd, hmarks, hread, hread]
  cases e.cutsDegree <;> simp [awaitsBracket]

/-- A degree in square brackets. -/
theorem tex_delimited_bracketDegree :
    let e := binaryOf .root (named "a") (.unary .bracket (named "b"))
    e.WellNamed ∧ e.tex = "\\sqrt[\\left[b\\right]]\x7ba\x7d" ∧ Tex.Nested e.tex ∧
      ¬ Tex.OptionsEnd e.tex := by
  have h : (binaryOf .root (named "a") (.unary .bracket (named "b"))).WellNamed := by
    decide +kernel
  refine ⟨h, by decide +kernel, (tex_delimited h).1, ?_⟩
  rw [(tex_delimited h).2]
  decide

end Delimited

end Expr

end Formulary
