import Formulary.Expr

/-!
The nodes of a zone. A record has the shape of an expression with the numbers of other nodes in
place of its children.
-/

namespace Formulary

/-- The number of a node in its zone. It is kept in a word of 32 bits, which holds any number below
`NodeId.capacity`. In a zone with more nodes the words would repeat; these numbers do not. -/
structure NodeId where
  index : Nat
  deriving DecidableEq, Repr, Inhabited

namespace NodeId

def text (id : NodeId) : String := "#" ++ toString id.index

/-- How many nodes words can number. -/
def capacity : Nat := UInt32.size

/-- The word that a number is kept in. -/
def word (id : NodeId) : UInt32 := .ofNat id.index

theorem toNat_word {id : NodeId} (h : id.index < capacity) : id.word.toNat = id.index :=
  UInt32.toNat_ofNat_of_lt h

end NodeId

/-- A node. A symbol is `shadowed` if it stands inside the value bound to a symbol of its name;
such a symbol is a node of its own that binding leaves alone. -/
inductive Record
  | number (value : Float)
  | symbol (kind : SymbolKind) (name : String) (bound : Option NodeId) (shadowed : Bool)
  | term (constant coefficient unknown : NodeId)
  | unary (op : UnaryOp) (operand : NodeId)
  | binary (op : BinaryOp) (lhs rhs : NodeId)
  | nary (op : NaryOp) (children : List NodeId)
  | call (name : String) (args : List NodeId)
  deriving DecidableEq, Repr

namespace Record

/-- The children of a node; the value of a symbol is none. -/
def children : Record → List NodeId
  | number _ | symbol .. => []
  | term c a x => [c, a, x]
  | unary _ e => [e]
  | binary _ l r => [l, r]
  | nary _ es | call _ es => es

def name? : Record → Option String
  | symbol _ name _ _ => some name
  | _ => none

def bound? : Record → Option NodeId
  | symbol _ _ bound _ => bound
  | _ => none

def isShadowed : Record → Bool
  | symbol _ _ _ shadowed => shadowed
  | _ => false

/-- All nodes that a node refers to: its children and its value. -/
def references (r : Record) : List NodeId := r.children ++ r.bound?.toList

/-- Sets or clears the value of a symbol. -/
def setBound (bound : Option NodeId) : Record → Record
  | symbol kind name _ shadowed => symbol kind name bound shadowed
  | r => r

/-- A symbol of the given name that is not shadowed. -/
def isOpen (name : String) (r : Record) : Bool := r.name? == some name && !r.isShadowed

/-- The expression of a node, given those of the nodes it refers to. -/
def assemble? (expr? : NodeId → Option Expr) : Record → Option Expr
  | number x => some (.number x)
  | symbol kind name none _ => some (.symbol kind name none)
  | symbol kind name (some id) _ => do return .symbol kind name (some (← expr? id))
  | term c a x => do return .term (← expr? c) (← expr? a) (← expr? x)
  | unary op e => do return .unary op (← expr? e)
  | binary op l r => do return .binary op (← expr? l) (← expr? r)
  | nary op es => do return .nary op (← es.mapM expr?)
  | call name es => do return .call name (← es.mapM expr?)

end Record

end Formulary
