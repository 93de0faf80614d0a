import Formulary.Zone.Record

/-!
What makes two nodes the same node: their kind and payload, and not what their symbols are bound
to. A hash of them, taken over the hashes of the children, serves to find a node again.
-/

namespace Formulary

/-- The kind of a node. A sign is apart from a subtraction that has a zero on its left. -/
inductive NodeKind
  | number
  | symbol (kind : SymbolKind)
  | term
  | unary (op : UnaryOp)
  | binary (kind : BinaryKind)
  | signed (kind : BinaryKind)
  | nary (op : NaryOp)
  | call
  deriving DecidableEq, Repr

/-- The content of a node whose children are given as `α`. -/
inductive Payload (α : Type)
  | bits (bits : UInt64)
  | name (name : String)
  | shadowed (name : String)
  | children (children : List α)
  | call (name : String) (args : List α)
  deriving DecidableEq, Repr

def Payload.map {α β : Type} (f : α → β) : Payload α → Payload β
  | bits b => bits b
  | name n => name n
  | shadowed n => shadowed n
  | children es => children (es.map f)
  | call n es => call n (es.map f)

namespace Record

def kind : Record → NodeKind
  | number _ => .number
  | symbol kind .. => .symbol kind
  | term .. => .term
  | unary op _ => .unary op
  | binary ⟨kind, true⟩ _ _ => .signed kind
  | binary ⟨kind, false⟩ _ _ => .binary kind
  | nary op _ => .nary op
  | call .. => .call

/-- The content of a node. Numbers count by their bits, and there is only one NaN. -/
def payload : Record → Payload NodeId
  | number x => .bits x.toBits
  | symbol _ name _ true => .shadowed name
  | symbol _ name _ false => .name name
  | call name args => .call name args
  | r => .children r.children

end Record

/-- A hash of kinds and payloads, in which the hashes of the children stand for them. -/
abbrev Hasher := NodeKind → Payload UInt64 → UInt64

structure Weight where
  kind : NodeKind
  payload : Payload NodeId
  hash : UInt64
  deriving DecidableEq, Repr

namespace Weight

/-- The weight of a node whose children have the given hashes. -/
def of (hasher : Hasher) (hashOf : NodeId → UInt64) (r : Record) : Weight :=
  ⟨r.kind, r.payload, hasher r.kind (r.payload.map hashOf)⟩

/-- Whether two weights, of whatever hash, have the same kind and payload. -/
def same (a b : Weight) : Bool := a.kind == b.kind && a.payload == b.payload

end Weight

namespace Hasher

/-- Works a word into a hash. -/
def mix (h word : UInt64) : UInt64 :=
  let x := (h ^^^ word) * 0x9e3779b97f4a7c15
  let y := (x ^^^ (x >>> 32)) * 0xd6e8feb86659fd93
  y ^^^ (y >>> 32)

def mixNat (h : UInt64) (n : Nat) : UInt64 := mix h (UInt64.ofNat n)

def mixName (h : UInt64) (name : String) : UInt64 :=
  name.toList.foldl (fun h c => mixNat h c.toNat) (mixNat h name.length)

def kindCode : NodeKind → Nat
  | .number => 0
  | .symbol kind => 1 + kind.ctorIdx
  | .term => 3
  | .call => 4
  | .unary op => 16 + op.ctorIdx
  | .nary op => 32 + op.ctorIdx
  | .binary kind => 48 + kind.ctorIdx
  | .signed kind => 64 + kind.ctorIdx

/-- A hash of all that a node holds, in order. -/
def structural : Hasher := fun kind payload =>
  let h := mixNat 0x243f6a8885a308d3 (kindCode kind)
  match payload with
  | .bits b => mix h b
  | .name n => mixName (mixNat h 0) n
  | .shadowed n => mixName (mixNat h 1) n
  | .children es => es.foldl mix (mixNat h es.length)
  | .call n es => es.foldl mix (mixNat (mixName h n) es.length)

/-- The hash that tells no two nodes apart. -/
def constant (h : UInt64) : Hasher := fun _ _ => h

/-- The value at 31 of the polynomial whose coefficients are the numbers in a payload. Kinds, names
and counts do not enter. -/
def polynomial : Hasher := fun _ payload =>
  let words :=
    match payload with
    | .bits b => [b]
    | .name _ | .shadowed _ => []
    | .children es | .call _ es => es
  words.foldl (fun h word => h * 31 + word) 0

end Hasher

end Formulary
