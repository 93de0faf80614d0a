import Formulary.Environment

/-!
Giving the symbols of an expression a value, in every place at once and in a table as well.
-/

namespace Formulary.Expr

mutual

/-- Sets the value of every symbol of the given name, or removes it. The values bound to other
symbols are searched too; a value that is replaced is not. -/
def rebind (name : String) (value : Option Expr) : Expr → Expr
  | .number x => .number x
  | .symbol kind n bound =>
    if n = name then .symbol kind n value else .symbol kind n (rebindBound name value bound)
  | .term c a x => .term (rebind name value c) (rebind name value a) (rebind name value x)
  | .unary op e => .unary op (rebind name value e)
  | .binary op l r => .binary op (rebind name value l) (rebind name value r)
  | .nary op es => .nary op (rebindList name value es)
  | .call n es => .call n (rebindList name value es)

def rebindBound (name : String) (value : Option Expr) : Option Expr → Option Expr
  | none => none
  | some e => some (rebind name value e)

def rebindList (name : String) (value : Option Expr) : List Expr → List Expr
  | [] => []
  | e :: es => rebind name value e :: rebindList name value es

end

mutual

/-- How many symbols `rebind` sets. -/
def places (name : String) : Expr → Nat
  | .number _ => 0
  | .symbol _ n bound => if n = name then 1 else placesBound name bound
  | .term c a x => places name c + places name a + places name x
  | .unary _ e => places name e
  | .binary _ l r => places name l + places name r
  | .nary _ es | .call _ es => placesList name es

def placesBound (name : String) : Option Expr → Nat
  | none => 0
  | some e => places name e

def placesList (name : String) : List Expr → Nat
  | [] => 0
  | e :: es => places name e + placesList name es

end

/-- Binds a name in an expression, or unbinds it, and publishes that to a table. -/
def assign {τ : Type} [SymbolTable τ] (name : String) (value : Option Expr) (e : Expr)
    (table : τ) : Expr × τ :=
  (e.rebind name value, SymbolTable.publish table name value)

/-- Replaces the children of a node by as many others. -/
def withChildren (e : Expr) (children : List Expr) : Expr :=
  match e, children with
  | .term .., [c, a, x] => .term c a x
  | .unary op _, [e] => .unary op e
  | .binary op .., [l, r] => .binary op l r
  | .nary op _, es => .nary op es
  | .call name _, es => .call name es
  | e, _ => e

/-- Whether an expression is a symbol of the given name. -/
def isSymbol (name : String) (e : Expr) : Bool := e.symbolName? == some name

def isBound : Expr → Bool
  | .symbol _ _ bound => bound.isSome
  | _ => false

def setBound (bound : Option Expr) : Expr → Expr
  | .symbol kind name _ => .symbol kind name bound
  | e => e

/-- Changes the first element with a property, if there is one. -/
def changeFirst? (p : Expr → Bool) (f : Expr → Expr) : List Expr → Option (List Expr)
  | [] => none
  | e :: es => if p e then some (f e :: es) else (changeFirst? p f es).map (e :: ·)

/-- Binds the first child that is a symbol of the given name, and nothing else. -/
def bindFirst? (e : Expr) (name : String) (value : Expr) : Option Expr :=
  (changeFirst? (isSymbol name) (setBound (some value)) e.children).map e.withChildren

/-- Unbinds the first child that is a bound symbol of the given name. -/
def unbindFirst? (e : Expr) (name : String) : Option Expr :=
  (changeFirst? (fun c => isSymbol name c && isBound c) (setBound none) e.children).map
    e.withChildren

end Formulary.Expr
