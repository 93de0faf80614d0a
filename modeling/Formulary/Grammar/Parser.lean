import Formulary.Expr
import Formulary.Decimal.Numeral
import Formulary.Token.Lexer
import Formulary.Grammar.Group

/-!
Reading an expression. The groups of a text are taken out first; what is left is cut at its
operators, the weakest level first and each level from the right, and a group is read when the
cutting comes down to it.
-/

namespace Formulary

namespace Parser

/-- How flat items are read at a level: as a sign and what it stands before, as two sides of an
operator, or as a whole that only tighter levels cut. -/
inductive Cut
  | sign (op : Token) (kind : BinaryKind) (operand : List Item)
  | operator (before : List Item) (op : Token) (after : List Item)
  | whole
  deriving DecidableEq, Repr

/-- Cuts off a sign at the front. -/
def signCut? : List Item → Option Cut
  | .token t :: rest =>
    match t.operator? with
    | some .addition => some (.sign t .addition rest)
    | some .subtraction => some (.sign t .subtraction rest)
    | _ => none
  | _ => none

/-- Whether an operator after `previous` has a left operand. -/
def hasOperand (previous : Option Item) : Bool :=
  match previous with
  | some item => item.operator?.isNone
  | none => false

/-- The operator of the given level that an item is. A `+` or `-` without a left operand is a sign
and no operator. -/
def operatorAt? (level : Level) (previous : Option Item) (item : Item) : Option Token :=
  match item with
  | .token t =>
    if t.operator? == some level && (!level.isSign || hasOperand previous) then some t else none
  | .group .. => none

/-- Cuts at the rightmost operator of the given level, in items that follow `previous`. -/
def cutLast? (level : Level) (previous : Option Item) :
    List Item → Option (List Item × Token × List Item)
  | [] => none
  | item :: rest =>
    match cutLast? level (some item) rest with
    | some (before, op, after) => some (item :: before, op, after)
    | none => (operatorAt? level previous item).map fun op => ([], op, rest)

def operatorCut? (level : Level) (items : List Item) : Option Cut :=
  (cutLast? level none items).map fun (before, op, after) => .operator before op after

/-- Where items are cut at a level. A sign at the front takes all that follows it at the levels
tighter than that of `-`, and at that level what no operator has cut off. -/
def cut (level : Level) (items : List Item) : Cut :=
  let cuts :=
    if Level.subtraction < level then [signCut? items, operatorCut? level items]
    else if level = .subtraction then [operatorCut? level items, signCut? items]
    else [operatorCut? level items]
  (cuts.findSome? id).getD .whole

/-- Joins the two sides of an operator. Commas collect into one sequence. -/
def join (level : Level) (lhs rhs : Expr) : Expr :=
  match level.binary? with
  | some kind => .binaryOf kind lhs rhs
  | none =>
    match lhs with
    | .nary .sequence es => .nary .sequence (es ++ [rhs])
    | _ => .nary .sequence [lhs, rhs]

/-- One side of an operator, which must not be empty. -/
def side (op : Token) (read : List Item → Parser Expr) (items : List Item) : Parser Expr :=
  if items.isEmpty then throw ⟨.emptyOperand op.lexeme, [op.span]⟩ else read items

/-- The expression of a group around `inner`. The elements of a bare sequence are arguments. -/
def enclose (kind : GroupKind) (inner : Expr) : Expr :=
  match kind with
  | .paren => .unary .paren inner
  | .bracket => .unary .bracket inner
  | .call name =>
    match inner with
    | .nary .sequence args => .call name args
    | _ => .call name [inner]

/-- Reads a group, given how its flat contents are read. Only a call may be empty. -/
def group (source : String) (read : List Item → Parser Expr) (index : Nat) (span : Span) :
    Parser Expr := do
  let (kind, contents) ← Group.fetch index
  let items ← Group.extract contents
  match items, kind with
  | [], .call name => return .call name []
  | [], _ => throw ⟨.emptyGroup (span.text source), [span]⟩
  | items, kind => do
    let inner ← read items
    return enclose kind inner

/-- Reads what no operator cuts any more: a number, a name or a group. -/
def operand (source : String) (read : List Item → Parser Expr) : List Item → Parser Expr
  | [] => throw ⟨.stuck .noItems, []⟩
  | lhs :: rhs :: _ =>
    throw ⟨.missingOperator (lhs.span.text source) (rhs.span.text source), [lhs.span, rhs.span]⟩
  | [.token t] =>
    match t.kind with
    | .int => pure (.number (Decimal.read t.lexeme))
    | .name => pure (.named t.lexeme)
    | _ => throw ⟨.unrecognizedToken t.lexeme, [t.span]⟩
  | [.group index span] => group source read index span

/-- Reads flat items that no operator weaker than the level cuts. -/
def readAt (source : String) : Nat → Level → List Item → Parser Expr
  | 0, _, _ => throw ⟨.stuck .outOfFuel, []⟩
  | _ + 1, _, [] => throw ⟨.stuck .noItems, []⟩
  | fuel + 1, .atom, items => operand source (readAt source fuel .equality) items
  | fuel + 1, level, items =>
    match cut level items with
    | .sign op kind rest => do
      let e ← side op (readAt source fuel level) rest
      return .signed kind e
    | .operator before op after => do
      let lhs ← side op (readAt source fuel level) before
      let rhs ← side op (readAt source fuel level) after
      return join level lhs rhs
    | .whole => readAt source fuel level.next items

/-- Enough steps to read any list of so many tokens: along one line of calls a level is raised at
most eight times between two calls that lose a token. -/
def fuelFor (count : Nat) : Nat := 10 * (count + 1)

/-- Why a token can be no part of an expression. -/
def refused? (t : Token) : Option ParseError :=
  match t.kind with
  | .other => some ⟨.unrecognizedToken t.lexeme, [t.span]⟩
  | .decimal => some ⟨.decimalLiteral t.lexeme, [t.span]⟩
  | _ => none

/-- Reads all tokens of a source. -/
def all (source : String) (ts : List Token) : Parser Expr := do
  let items ← Group.extract (ts.map .token)
  readAt source (fuelFor ts.length) .equality items

end Parser

/-- Reads a text as an expression. -/
def parse (source : String) : Except ParseError Expr :=
  let ts := tokens source
  match ts.findSome? Parser.refused? with
  | some e => .error e
  | none =>
    if ts.isEmpty then
      .error ⟨.emptyExpression, [⟨byteLength source.toList, byteLength source.toList⟩]⟩
    else
      match (Parser.all source ts).run #[] with
      | .ok e _ => .ok e
      | .error e _ => .error e

end Formulary
