import Formulary.Evaluation.Binding
import Formulary.Render.Tex

/-!
Expressions apart from the values of their symbols. What is written depends on nothing else, and no
binding changes it.
-/

namespace Formulary.Expr

theorem sizeOf_value_lt (kind : SymbolKind) (name : String) (e : Expr) :
    sizeOf e < sizeOf (Expr.symbol kind name (some e)) := by
  simp only [symbol.sizeOf_spec, Option.some.sizeOf_spec]
  omega

/-- Induction on expressions, with the values of symbols and with lists of children. -/
@[elab_as_elim, induction_eliminator]
theorem inductOn {motive : Expr → Prop} (number : ∀ x, motive (.number x))
    (symbol : ∀ kind name bound, (∀ e ∈ bound, motive e) → motive (.symbol kind name bound))
    (term : ∀ c a x, motive c → motive a → motive x → motive (.term c a x))
    (unary : ∀ op e, motive e → motive (.unary op e))
    (binary : ∀ op l r, motive l → motive r → motive (.binary op l r))
    (nary : ∀ op es, (∀ e ∈ es, motive e) → motive (.nary op es))
    (call : ∀ name es, (∀ e ∈ es, motive e) → motive (.call name es)) (e : Expr) : motive e := by
  match e with
  | .number x => exact number x
  | .symbol kind name none => exact symbol kind name none nofun
  | .symbol kind name (some e) =>
    have he := inductOn number symbol term unary binary nary call e
    refine symbol kind name (some e) ?_
    intro v hv
    obtain rfl : e = v := Option.some.inj hv
    exact he
  | .term c a x =>
    exact term c a x (inductOn number symbol term unary binary nary call c)
      (inductOn number symbol term unary binary nary call a)
      (inductOn number symbol term unary binary nary call x)
  | .unary op e => exact unary op e (inductOn number symbol term unary binary nary call e)
  | .binary op l r =>
    exact binary op l r (inductOn number symbol term unary binary nary call l)
      (inductOn number symbol term unary binary nary call r)
  | .nary op es =>
    exact nary op es fun e _ => inductOn number symbol term unary binary nary call e
  | .call name es =>
    exact call name es fun e _ => inductOn number symbol term unary binary nary call e
termination_by sizeOf e
decreasing_by
  · exact sizeOf_value_lt kind name e
  all_goals exact sizeOf_lt_of_mem_children (by simp_all [children])

mutual

/-- The expression with no value bound to any symbol. -/
def bare : Expr → Expr
  | .number x => .number x
  | .symbol kind name _ => .symbol kind name none
  | .term c a x => .term c.bare a.bare x.bare
  | .unary op e => .unary op e.bare
  | .binary op l r => .binary op l.bare r.bare
  | .nary op es => .nary op (bareList es)
  | .call name es => .call name (bareList es)

def bareList : List Expr → List Expr
  | [] => []
  | e :: es => e.bare :: bareList es

end

mutual

/-- Whether no symbol of the expression has a value of its own. -/
def isFree : Expr → Bool
  | .number _ => true
  | .symbol _ _ bound => bound.isNone
  | .term c a x => c.isFree && a.isFree && x.isFree
  | .unary _ e => e.isFree
  | .binary _ l r => l.isFree && r.isFree
  | .nary _ es | .call _ es => areFree es

def areFree : List Expr → Bool
  | [] => true
  | e :: es => e.isFree && areFree es

end

section Bare

variable {e : Expr} {es : List Expr}

@[simp] theorem bareList_eq_map (es : List Expr) : bareList es = es.map bare := by
  induction es with
  | nil => rfl
  | cons e es ih => rw [bareList, ih, List.map_cons]

@[simp] theorem areFree_iff : areFree es = true ↔ ∀ e ∈ es, e.isFree = true := by
  induction es with
  | nil => simp [areFree]
  | cons e es ih => simp [areFree, ih]

theorem bare_of_isFree (h : e.isFree = true) : e.bare = e := by
  induction e with
  | number => rfl
  | symbol kind name bound =>
    obtain rfl := Option.isNone_iff_eq_none.mp h
    rfl
  | term c a x ihc iha ihx =>
    simp only [isFree, Bool.and_eq_true] at h
    simp [bare, ihc h.1.1, iha h.1.2, ihx h.2]
  | unary op e ih => simp [bare, ih h]
  | binary op l r ihl ihr =>
    simp only [isFree, Bool.and_eq_true] at h
    simp [bare, ihl h.1, ihr h.2]
  | nary op es ih | call name es ih =>
    simp only [isFree, areFree_iff] at h
    simp only [bare, bareList_eq_map]
    rw [List.map_congr_left fun e he => ih e he (h e he), List.map_id']

theorem level_bare (e : Expr) : e.bare.level = e.level := by
  cases e <;> rfl

theorem needsGroup_bare (level : Level) (e : Expr) (side : Side) :
    needsGroup level e.bare side = needsGroup level e side := by
  cases e with
  | binary op l r =>
    obtain ⟨kind, implicit⟩ := op
    cases implicit with
    | false => rfl
    | true => simp only [bare, needsGroup, level_bare]
  | _ => rfl

theorem argNeedsGroup_bare (count : Nat) (e : Expr) :
    argNeedsGroup count e.bare = argNeedsGroup count e := by
  rw [argNeedsGroup, argNeedsGroup, level_bare]

theorem innermost_bare (e : Expr) : e.bare.innermost = e.innermost.bare := by
  induction e with
  | unary op e ih =>
    cases op with
    | paren => exact ih
    | _ => rfl
  | _ => rfl

theorem textTail_map_bare {op : NaryOp} (h : ∀ e ∈ es, e.bare.text = e.text) :
    textTail op (es.map bare) = textTail op es := by
  induction es with
  | nil => rfl
  | cons e es ih =>
    rw [List.map_cons, textTail, textTail, needsGroup_bare, h e (by simp),
      ih fun f hf => h f (by simp [hf])]

theorem textArgs_map_bare {count : Nat} (h : ∀ e ∈ es, e.bare.text = e.text) :
    textArgs count (es.map bare) = textArgs count es := by
  induction es with
  | nil => rfl
  | cons e es ih =>
    rw [List.map_cons, textArgs, textArgs, argNeedsGroup_bare, h e (by simp),
      ih fun f hf => h f (by simp [hf])]

/-- What is written of a symbol is its name. -/
theorem text_bare (e : Expr) : e.bare.text = e.text := by
  induction e with
  | number | symbol => rfl
  | term c a x ihc iha ihx => simp only [bare, text, needsGroup_bare, ihc, iha, ihx]
  | unary op e ih => cases op <;> simp only [bare, text, ih]
  | binary op l r ihl ihr =>
    obtain ⟨kind, implicit⟩ := op
    cases implicit <;> simp only [bare, text, needsGroup_bare, ihl, ihr]
  | nary op es ih =>
    rw [bare, bareList_eq_map]
    cases es with
    | nil => rfl
    | cons e es =>
      rw [List.map_cons, text, text, needsGroup_bare, ih e (by simp),
        textTail_map_bare fun f hf => ih f (by simp [hf])]
  | call name es ih =>
    rw [bare, bareList_eq_map]
    cases es with
    | nil => rfl
    | cons e es =>
      rw [List.map_cons, text, text, argNeedsGroup_bare, ih e (by simp), List.length_map,
        textArgs_map_bare fun f hf => ih f (by simp [hf])]

theorem texTail_map_bare {op : NaryOp} (h : ∀ e ∈ es, ∀ outer, texIn outer e.bare = texIn outer e) :
    texTail op (es.map bare) = texTail op es := by
  induction es with
  | nil => rfl
  | cons e es ih =>
    rw [List.map_cons, texTail, texTail, needsGroup_bare, h e (by simp),
      ih fun f hf => h f (by simp [hf])]

theorem texArgs_map_bare {count : Nat}
    (h : ∀ e ∈ es, ∀ outer, texIn outer e.bare = texIn outer e) :
    texArgs count (es.map bare) = texArgs count es := by
  induction es with
  | nil => rfl
  | cons e es ih =>
    rw [List.map_cons, texArgs, texArgs, argNeedsGroup_bare, h e (by simp),
      ih fun f hf => h f (by simp [hf])]

theorem radical_bare (degree : Expr) (degreeTex radicand : String) :
    Tex.radical degree.bare degreeTex radicand = Tex.radical degree degreeTex radicand := by
  cases degree <;> rfl

theorem texIn_bare (outer : Bool) (e : Expr) : texIn outer e.bare = texIn outer e := by
  induction e generalizing outer with
  | number | symbol => rfl
  | term c a x ihc iha ihx => simp only [bare, texIn, needsGroup_bare, ihc, iha, ihx]
  | unary op e ih => cases op <;> simp only [bare, texIn, ih]
  | binary op l r ihl ihr =>
    obtain ⟨kind, implicit⟩ := op
    cases implicit with
    | true => simp only [bare, texIn, needsGroup_bare, ihr]
    | false =>
      cases kind <;>
        simp only [bare, texIn, needsGroup_bare, innermost_bare, radical_bare, ihl, ihr]
  | nary op es ih =>
    rw [bare, bareList_eq_map]
    cases es with
    | nil => rfl
    | cons e es =>
      rw [List.map_cons, texIn, texIn, needsGroup_bare, ih e (by simp),
        texTail_map_bare fun f hf outer => ih f (by simp [hf]) outer]
  | call name es ih =>
    rw [bare, bareList_eq_map]
    cases es with
    | nil => rfl
    | cons e es =>
      rw [List.map_cons, texIn, texIn, argNeedsGroup_bare, ih e (by simp), List.length_map,
        texArgs_map_bare fun f hf outer => ih f (by simp [hf]) outer]

theorem tex_bare (e : Expr) : e.bare.tex = e.tex := texIn_bare false e

end Bare

end Formulary.Expr
