import Formulary.Arithmetic
import Formulary.Builtin

/-!
Putting a composite node together from children that are already evaluated: either as it was, or
folded to a number where its children are numbers.
-/

namespace Formulary

/-- How composite nodes are put together. -/
structure Assembly where
  term : Expr → Expr → Expr → Expr
  unary : UnaryOp → Expr → Expr
  binary : BinaryOp → Expr → Expr → Expr
  nary : NaryOp → List Expr → Expr
  call : String → List Expr → Expr
  /-- Whether a zone remembers the results for its nodes. Trees are evaluated without memory. -/
  remembered : Bool

/-- Nodes stay as they are. -/
def Assembly.plain : Assembly := ⟨.term, .unary, .binary, .nary, .call, false⟩

/-- Puts the node of an expression together again from its own children. -/
def Assembly.node (a : Assembly) : Expr → Expr
  | .term c x u => a.term c x u
  | .unary op e => a.unary op e
  | .binary op l r => a.binary op l r
  | .nary op es => a.nary op es
  | .call name es => a.call name es
  | e => e

namespace Fold

def term (c a x : Expr) : Expr :=
  match c, a, x with
  | .number c, .number a, .number x => .number (c * a * x)
  | _, _, _ => .term c a x

def unary (op : UnaryOp) (e : Expr) : Expr :=
  match e with
  | .number x => .number (op.apply x)
  | _ => .unary op e

def binary (op : BinaryOp) (lhs rhs : Expr) : Expr :=
  match lhs, rhs with
  | .number a, .number b =>
    match op.kind.evaluate? a b with
    | some x => .number x
    | none => .binary op lhs rhs
  | _, _ => .binary op lhs rhs

/-- The numbers among the elements, in order. -/
def numbers (es : List Expr) : List Float := es.filterMap Expr.number?

/-- The elements that are no numbers. -/
def symbolic (es : List Expr) : List Expr := es.filter (·.number?.isNone)

/-- Where the merged number of a list stands: before the factors, after the summands. -/
def place (op : NaryOp) (x : Float) (es : List Expr) : List Expr :=
  match op with
  | .product => .number x :: es
  | _ => es ++ [.number x]

/-- Merges the numbers of a sum or a product into one, and leaves out the identity. -/
def nary (op : NaryOp) (es : List Expr) : Expr :=
  match op.merging? with
  | none => .nary op es
  | some (identity, merge) =>
    let x := (numbers es).foldl merge identity
    if (symbolic es).isEmpty then .number x
    else if x == identity then .nary op (symbolic es)
    else .nary op (place op x (symbolic es))

def call (name : String) (args : List Expr) : Expr :=
  match args.mapM Expr.number?, Builtin.find? name with
  | some xs, some f =>
    match f.evaluate? xs with
    | some x => .number x
    | none => .call name args
  | _, _ => .call name args

end Fold

/-- Nodes whose children are numbers become numbers. -/
def Assembly.folding : Assembly :=
  ⟨Fold.term, Fold.unary, Fold.binary, Fold.nary, Fold.call, true⟩

end Formulary
