import Formulary.Level
import Formulary.Span

/-!
Tokens of the written language, and the operators among them.
-/

namespace Formulary

inductive TokenKind
  | whitespace
  | equals
  | comma
  | plus
  | minus
  | slash
  | star
  | caret
  | name
  | openParen
  | closeParen
  | openBracket
  | closeBracket
  | int
  | decimal
  | other
  deriving DecidableEq, Repr, Inhabited

structure Token where
  kind : TokenKind
  lexeme : String
  span : Span
  deriving DecidableEq, Repr, Inhabited

/-- The name that is spelled like a name but is the root operator. -/
def rootName : String := "v"

namespace Token

def isRoot (t : Token) : Bool := t.kind == .name && t.lexeme == rootName

/-- A name that may stand for a value or be called. -/
def isWord (t : Token) : Bool := t.kind == .name && t.lexeme != rootName

/-- The level of the operator that a token stands for. -/
def operator? (t : Token) : Option Level :=
  match t.kind with
  | .equals => some .equality
  | .comma => some .sequence
  | .plus => some .addition
  | .minus => some .subtraction
  | .slash => some .division
  | .star => some .multiplication
  | .caret => some .power
  | .name => if t.isRoot then some .root else none
  | _ => none

end Token

end Formulary
