import Formulary.Level

/-!
Expression trees: numbers, named symbols that may carry a value of their own, and composite nodes.
A value bound to a symbol belongs to that one occurrence and is not a child of it.
-/

namespace Formulary

inductive SymbolKind
  | coefficient
  | unknown
  deriving DecidableEq, Repr, Inhabited, Hashable

inductive UnaryOp
  | positive
  | negative
  | inverse
  | paren
  | bracket
  deriving DecidableEq, Repr, Inhabited, Hashable

inductive BinaryKind
  | addition
  | subtraction
  | multiplication
  | division
  | power
  /-- `a v b`, the root of `a` of degree `b`. -/
  | root
  | equality
  deriving DecidableEq, Repr, Inhabited, Hashable

/-- An operation of two operands. It is `implicit` when it was written as a sign, as in `-x`, and
its left operand was put in for that. -/
structure BinaryOp where
  kind : BinaryKind
  implicit : Bool
  deriving DecidableEq, Repr, Inhabited, Hashable

inductive NaryOp
  | sum
  | product
  | sequence
  deriving DecidableEq, Repr, Inhabited, Hashable

inductive Expr
  | number (value : Float)
  | symbol (kind : SymbolKind) (name : String) (bound : Option Expr)
  /-- The product of a constant, a coefficient and an unknown. -/
  | term (constant coefficient unknown : Expr)
  | unary (op : UnaryOp) (operand : Expr)
  | binary (op : BinaryOp) (lhs rhs : Expr)
  | nary (op : NaryOp) (children : List Expr)
  | call (name : String) (args : List Expr)
  deriving Inhabited

def BinaryKind.level : BinaryKind → Level
  | .addition => .addition
  | .subtraction => .subtraction
  | .multiplication => .multiplication
  | .division => .division
  | .power => .power
  | .root => .root
  | .equality => .equality

def NaryOp.level : NaryOp → Level
  | .sum => .addition
  | .product => .multiplication
  | .sequence => .sequence

/-- The operation whose operator has the given level. A comma makes a sequence instead. -/
def Level.binary? : Level → Option BinaryKind
  | .addition => some .addition
  | .subtraction => some .subtraction
  | .multiplication => some .multiplication
  | .division => some .division
  | .power => some .power
  | .root => some .root
  | .equality => some .equality
  | .sequence | .atom => none

/-- Names of lowercase ASCII letters, digits and underscores are names of coefficients. -/
def isCoefficientName (name : String) : Bool :=
  !name.isEmpty && name.toList.all fun c => c.isLower || c.isDigit || c == '_'

def SymbolKind.ofName (name : String) : SymbolKind :=
  if isCoefficientName name then .coefficient else .unknown

namespace Expr

/-- The unbound symbol of the kind that its name is spelled like. -/
def named (name : String) : Expr := .symbol (.ofName name) name none

def binaryOf (kind : BinaryKind) (lhs rhs : Expr) : Expr := .binary ⟨kind, false⟩ lhs rhs

/-- A sign before an operand: an operation whose left operand is an implicit zero. -/
def signed (kind : BinaryKind) (operand : Expr) : Expr := .binary ⟨kind, true⟩ (.number 0) operand

/-- The operand with a sign before it, if the operation is a sign at all. -/
def signed? (kind : BinaryKind) (operand : Expr) : Option Expr :=
  match kind with
  | .addition | .subtraction => some (signed kind operand)
  | _ => none

def number? : Expr → Option Float
  | .number x => some x
  | _ => none

def symbolName? : Expr → Option String
  | .symbol _ name _ => some name
  | _ => none

def children : Expr → List Expr
  | .number _ | .symbol .. => []
  | .term c a x => [c, a, x]
  | .unary _ e => [e]
  | .binary _ l r => [l, r]
  | .nary _ es | .call _ es => es

/-- Leaves, and terms, which count as leaves. -/
def isAtomic : Expr → Bool
  | .number _ | .symbol .. | .term .. => true
  | _ => false

def isSigned : Expr → Bool
  | .binary op _ _ => op.implicit
  | _ => false

/-- How strongly an expression binds. A negative number reads like a subtraction. -/
def level : Expr → Level
  | .number x => if x < 0 then .subtraction else .atom
  | .symbol .. | .unary .. | .call .. => .atom
  | .term .. => .multiplication
  | .binary op _ _ => op.kind.level
  | .nary op _ => op.level

/-- The expression inside all parentheses around it. -/
def innermost : Expr → Expr
  | .unary .paren e => e.innermost
  | e => e

theorem sizeOf_lt_of_mem_children {e c : Expr} (h : c ∈ e.children) : sizeOf c < sizeOf e := by
  cases e with
  | number | symbol => simp [children] at h
  | term c a x =>
    simp only [children, List.mem_cons, List.not_mem_nil, or_false] at h
    rcases h with rfl | rfl | rfl <;> simp only [term.sizeOf_spec] <;> omega
  | unary op e =>
    simp only [children, List.mem_singleton] at h
    subst h
    simp only [unary.sizeOf_spec]
    omega
  | binary op l r =>
    simp only [children, List.mem_cons, List.not_mem_nil, or_false] at h
    rcases h with rfl | rfl <;> simp only [binary.sizeOf_spec] <;> omega
  | nary op es =>
    have := List.sizeOf_lt_of_mem (show c ∈ es from h)
    simp only [nary.sizeOf_spec]
    omega
  | call name es =>
    have := List.sizeOf_lt_of_mem (show c ∈ es from h)
    simp only [call.sizeOf_spec]
    omega

end Expr

end Formulary
