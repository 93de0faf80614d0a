import Formulary.Render.Grouping
import Formulary.Decimal.Numeral

/-!
The written form of expressions, which parses back to the same tree when a parse produced it.
-/

namespace Formulary

def BinaryKind.tag : BinaryKind → String
  | .addition => "+"
  | .subtraction => "-"
  | .multiplication => "*"
  | .division => "/"
  | .power => "^"
  | .root => "v"
  | .equality => "="

/-- The operator as it stands between its operands. -/
def BinaryKind.between : BinaryKind → String
  | .root => " v "
  | kind => kind.tag

def NaryOp.tag : NaryOp → String
  | .sum => "+"
  | .product => "*"
  | .sequence => ","

/-- What is written for a list without elements. -/
def NaryOp.emptyText : NaryOp → String
  | .sum => "0"
  | .product => "1"
  | .sequence => ""

/-- The text, in parentheses if `grouped`. -/
def grouping (grouped : Bool) (text : String) : String :=
  if grouped then "(" ++ text ++ ")" else text

namespace Expr

mutual

/-- The written form of an expression. -/
def text : Expr → String
  | .number x => numeral x
  | .symbol _ name _ => name
  | .term c a x =>
    grouping (needsGroup .multiplication c .left) c.text ++ "*" ++
      grouping (needsGroup .multiplication a .right) a.text ++ "*" ++
      grouping (needsGroup .multiplication x .right) x.text
  | .unary .positive e => "+(" ++ e.text ++ ")"
  | .unary .negative e => "-(" ++ e.text ++ ")"
  | .unary .inverse e => "1/(" ++ e.text ++ ")"
  | .unary .paren e => "(" ++ e.text ++ ")"
  | .unary .bracket e => "[" ++ e.text ++ "]"
  | .binary ⟨kind, true⟩ _ r => kind.tag ++ grouping (needsGroup .subtraction r .right) r.text
  | .binary ⟨kind, false⟩ l r =>
    grouping (needsGroup kind.level l .left) l.text ++ kind.between ++
      grouping (needsGroup kind.level r .right) r.text
  | .nary op [] => op.emptyText
  | .nary op (e :: es) => grouping (needsGroup op.level e .left) e.text ++ textTail op es
  | .call name [] => name ++ "()"
  | .call name (e :: es) =>
    name ++ "(" ++ grouping (argNeedsGroup (es.length + 1) e) e.text ++
      textArgs (es.length + 1) es ++ ")"

/-- The elements after the first, each after its operator. -/
def textTail (op : NaryOp) : List Expr → String
  | [] => ""
  | e :: es => op.tag ++ grouping (needsGroup op.level e .right) e.text ++ textTail op es

/-- The arguments after the first of `count`, each after its comma. -/
def textArgs (count : Nat) : List Expr → String
  | [] => ""
  | e :: es => "," ++ grouping (argNeedsGroup count e) e.text ++ textArgs count es

end

end Expr

end Formulary
