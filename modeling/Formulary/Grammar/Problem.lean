import Formulary.Span

/-!
What can be wrong with a text that should be an expression, where, and how it is said.
-/

namespace Formulary

inductive Delimiter
  | paren
  | bracket
  deriving DecidableEq, Repr, Inhabited

/-- Ways in which a parse could break down without the text being at fault. -/
inductive Stuck
  | noItems
  | noFragment (index : Nat)
  | fragmentTaken (index : Nat)
  | outOfFuel
  deriving DecidableEq, Repr

inductive Problem
  | emptyExpression
  | unclosedGroup (opening : Bool) (delimiter : Delimiter)
  | mismatchedGroup
  | emptyOperand (operator : String)
  | emptyGroup (group : String)
  | missingOperator (lhs rhs : String)
  | unrecognizedToken (lexeme : String)
  | decimalLiteral (lexeme : String)
  | stuck (why : Stuck)
  deriving DecidableEq, Repr

/-- A problem and the regions of the source it is about, the most important first. -/
structure ParseError where
  problem : Problem
  spans : List Span
  deriving DecidableEq, Repr

/-- A fraction of whole numbers with the value of a decimal literal: `25/10` for `2.5`. -/
def fractionOf (lexeme : String) : String :=
  let whole := lexeme.toList.takeWhile (· != '.')
  let places := (lexeme.toList.dropWhile (· != '.')).drop 1
  if places.isEmpty then String.ofList whole
  else String.ofList (whole ++ places ++ '/' :: '1' :: places.map fun _ => '0')

namespace Problem

def message : Problem → String
  | emptyExpression => "nothing to parse"
  | unclosedGroup _ .bracket => "unclosed bracket"
  | unclosedGroup _ .paren => "unclosed parenthesis"
  | mismatchedGroup => "mismatched grouping delimiters"
  | emptyOperand operator => s!"missing operand for `{operator}`"
  | emptyGroup group => s!"missing expression inside `{group}`"
  | missingOperator lhs rhs => s!"missing operator between `{lhs}` and `{rhs}`"
  | unrecognizedToken lexeme => s!"unrecognized token `{lexeme}`"
  | decimalLiteral lexeme => s!"decimal literal `{lexeme}` is not supported"
  | stuck _ => "the parser is stuck"

/-- What is said beside each region, in their order. The end of an empty source has no region to
show. -/
def labels : Problem → List String
  | emptyExpression => []
  | unclosedGroup true _ => ["this delimiter is not closed"]
  | unclosedGroup false _ => ["this delimiter closes nothing"]
  | mismatchedGroup => ["this group", "is crossed by this delimiter"]
  | emptyOperand _ => ["I expected to see an expression around this operator"]
  | emptyGroup _ => ["add an expression here"]
  | missingOperator _ _ => ["this operand", "is followed by this operand"]
  | unrecognizedToken _ => ["here"]
  | decimalLiteral _ => ["this number"]
  | stuck _ => []

def help? : Problem → Option String
  | unclosedGroup true .paren => some "add a closing parenthesis `)` somewhere after this"
  | unclosedGroup false .paren => some "add an opening parenthesis `(` somewhere before this"
  | unclosedGroup true .bracket => some "add a closing bracket `]` somewhere after this"
  | unclosedGroup false .bracket => some "add an opening bracket `[` somewhere before this"
  | mismatchedGroup => some "close the inner group before closing the outer one"
  | missingOperator lhs rhs => some s!"write the multiplication explicitly: `{lhs}*{rhs}`"
  | unrecognizedToken _ => some <|
    "expressions may only contain names, integers, `= , + - / * ^ v`, " ++
      "parentheses and brackets"
  | decimalLiteral lexeme =>
    some ("write it as a fraction of integers instead, such as " ++ fractionOf lexeme)
  | _ => none

end Problem

namespace ParseError

def message (e : ParseError) : String := e.problem.message

/-- The text of the first region. -/
def fragment (source : String) (e : ParseError) : String :=
  (e.spans.head?.map (·.text source)).getD ""

/-- The texts of the regions of a report: as many as there are labels for. -/
def labels (e : ParseError) : List String := e.problem.labels.take e.spans.length

end ParseError

end Formulary
