import Formulary.Render.Text

/-!
Expressions in TeX. Fractions, exponents, radicands and degrees need no parentheses, so those
around them are left out.
-/

namespace Formulary

namespace Tex

/-- The text as one argument. -/
def braced (text : String) : String := "\x7b" ++ text ++ "\x7d"

def parens (text : String) : String := "\\left(" ++ text ++ "\\right)"

def grouping (grouped : Bool) (text : String) : String := if grouped then parens text else text

def fraction (numerator denominator : String) : String :=
  "\\frac" ++ braced numerator ++ braced denominator

/-- A root; a degree of two is not written. -/
def radical (degree : Expr) (degreeTex radicand : String) : String :=
  match degree with
  | .number n => if n == 2 then "\\sqrt" ++ braced radicand
    else "\\sqrt[" ++ degreeTex ++ "]" ++ braced radicand
  | _ => "\\sqrt[" ++ degreeTex ++ "]" ++ braced radicand

def number (x : Float) : String :=
  match x.toModel.unpack with
  | .notANumber => "\\mathrm" ++ braced "NaN"
  | .infinity .positive => "\\infty"
  | .infinity .negative => "-\\infty"
  | _ => numeral x

end Tex

/-- The operator as it stands between its operands in TeX. -/
def BinaryKind.texBetween : BinaryKind → String
  | .multiplication => " \\cdot "
  | .equality => " = "
  | kind => kind.tag

def NaryOp.texBetween : NaryOp → String
  | .sum => "+"
  | .product => " \\cdot "
  | .sequence => ", "

namespace Expr

open Tex

mutual

/-- The expression in TeX, without the parentheses around all of it if `bare`. -/
def texIn (bare : Bool) : Expr → String
  | .number x => Tex.number x
  | .symbol _ name _ => name
  | .term c a x =>
    Tex.grouping (needsGroup .multiplication c .left) (texIn false c) ++
      Tex.grouping (needsGroup .multiplication a .right) (texIn false a) ++
      Tex.grouping (needsGroup .multiplication x .right) (texIn false x)
  | .unary .positive e => "+" ++ parens (texIn false e)
  | .unary .negative e => "-" ++ parens (texIn false e)
  | .unary .inverse e => fraction "1" (texIn true e)
  | .unary .paren e => if bare then texIn true e else parens (texIn false e)
  | .unary .bracket e => "\\left[" ++ texIn false e ++ "\\right]"
  | .binary ⟨kind, true⟩ _ r =>
    kind.tag ++ Tex.grouping (needsGroup .subtraction r .right) (texIn false r)
  | .binary ⟨.division, false⟩ l r => fraction (texIn true l) (texIn true r)
  | .binary ⟨.power, false⟩ l r =>
    braced (Tex.grouping (needsGroup .power l .left) (texIn false l)) ++ "^" ++
      braced (texIn true r)
  | .binary ⟨.root, false⟩ l r => radical r.innermost (texIn true r) (texIn true l)
  | .binary ⟨kind, false⟩ l r =>
    Tex.grouping (needsGroup kind.level l .left) (texIn false l) ++ kind.texBetween ++
      Tex.grouping (needsGroup kind.level r .right) (texIn false r)
  | .nary op [] => op.emptyText
  | .nary op (e :: es) =>
    Tex.grouping (needsGroup op.level e .left) (texIn false e) ++ texTail op es
  | .call name [] => "\\mathrm" ++ braced name ++ parens ""
  | .call name (e :: es) =>
    "\\mathrm" ++ braced name ++
      parens (Tex.grouping (argNeedsGroup (es.length + 1) e) (texIn false e) ++
        texArgs (es.length + 1) es)

/-- The elements after the first, each after its separator. -/
def texTail (op : NaryOp) : List Expr → String
  | [] => ""
  | e :: es =>
    op.texBetween ++ Tex.grouping (needsGroup op.level e .right) (texIn false e) ++ texTail op es

/-- The arguments after the first of `count`, each after its comma. -/
def texArgs (count : Nat) : List Expr → String
  | [] => ""
  | e :: es => ", " ++ Tex.grouping (argNeedsGroup count e) (texIn false e) ++ texArgs count es

end

/-- The expression in TeX. -/
def tex (e : Expr) : String := texIn false e

end Expr

end Formulary
