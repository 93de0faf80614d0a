import Std.Data.ExtTreeMap
import Formulary.Environment
import Formulary.Zone.Weight

/-!
Zones: stores that keep every distinct node once. A tree is inserted children first; symbols are
one node for each kind and name, whatever they are bound to, apart from those that stand in their
own value.
-/

namespace Formulary

inductive ZoneError
  | hashCollision (hash : UInt64) (existing : NodeId)
  | conflictingBinding (name : String)
  | cyclicBinding (name : String)
  | unknownNode (id : NodeId)
  /-- The node is reached from itself, so it has no tree. No operation makes such a node. -/
  | endlessNode (id : NodeId)
  deriving DecidableEq, Repr

/-- A hash in sixteen hexadecimal digits. -/
def hexWord (h : UInt64) : String :=
  let ds := Nat.toDigits 16 h.toNat
  String.ofList (List.replicate (16 - ds.length) '0' ++ ds)

def ZoneError.message : ZoneError → String
  | hashCollision hash existing =>
    "hash collision: 0x" ++ hexWord hash ++ " already identifies node " ++ existing.text ++
      " with different content"
  | conflictingBinding name => s!"`{name}` is bound to different values in the same formula"
  | cyclicBinding name => s!"the value bound to `{name}` refers back to `{name}`"
  | unknownNode id => "node " ++ id.text ++ " does not belong to this zone"
  | endlessNode id => "node " ++ id.text ++ " refers back to itself"

structure Node where
  record : Record
  weight : Weight
  deriving DecidableEq, Repr

structure Zone where
  hasher : Hasher
  nodes : Array Node
  /-- The node of each hash. -/
  index : Std.ExtTreeMap UInt64 NodeId

/-- A step that may change a zone, and may fail after having changed it. -/
abbrev ZoneM := EStateM ZoneError Zone

namespace Zone

def empty (hasher : Hasher) : Zone := ⟨hasher, #[], ∅⟩

def size (z : Zone) : Nat := z.nodes.size

def node? (z : Zone) (id : NodeId) : Option Node := z.nodes[id.index]?

def record? (z : Zone) (id : NodeId) : Option Record := (z.node? id).map (·.record)

def weight? (z : Zone) (id : NodeId) : Option Weight := (z.node? id).map (·.weight)

def records (z : Zone) : List Record := z.nodes.toList.map (·.record)

def hashOf (z : Zone) (id : NodeId) : UInt64 :=
  match z.weight? id with
  | some w => w.hash
  | none => 0

/-- The first node that a record refers to and the zone does not have. -/
def missing? (z : Zone) (r : Record) : Option NodeId :=
  r.references.find? fun id => decide (z.size ≤ id.index)

def weigh (z : Zone) (r : Record) : Weight := .of z.hasher z.hashOf r

/-- The node that has a weight's hash, which must have its content too. -/
def lookup (z : Zone) (w : Weight) : Except ZoneError (Option NodeId) :=
  match z.index[w.hash]? with
  | none => .ok none
  | some existing =>
    match z.weight? existing with
    | none => .ok none
    | some w' => if w'.same w then .ok (some existing) else .error (.hashCollision w.hash existing)

def boundOf (z : Zone) (id : NodeId) : Option NodeId := (z.record? id).bind (·.bound?)

/-- Adds a node with the next number, which must be below `NodeId.capacity` to have a word. -/
def push (z : Zone) (r : Record) (w : Weight) : Zone :=
  { z with nodes := z.nodes.push ⟨r, w⟩, index := z.index.insert w.hash ⟨z.size⟩ }

/-- The node of a record, made if there is none. A symbol must be bound as the zone's symbol of its
name is; if `adopt` is set, an unbound one takes its value. -/
def internWith (adopt : Bool) (r : Record) : ZoneM NodeId := fun z =>
  match z.missing? r with
  | some id => .error (.unknownNode id) z
  | none =>
    match z.lookup (z.weigh r) with
    | .error e => .error e z
    | .ok (some existing) =>
      if z.boundOf existing = r.bound? ∨ (adopt ∧ r.bound? = none) then .ok existing z
      else .error (.conflictingBinding (r.name?.getD "")) z
    | .ok none => .ok ⟨z.size⟩ (z.push r (z.weigh r))

def intern (r : Record) : ZoneM NodeId := internWith false r

mutual

/-- Inserts an expression that stands in the values of symbols of the names `binding`. -/
def insertIn (adopt : Bool) (binding : List String) : Expr → ZoneM NodeId
  | .number x => internWith adopt (.number x)
  | .symbol kind name bound => do
    let bound ← insertBound adopt (name :: binding) bound
    internWith adopt (.symbol kind name bound (decide (name ∈ binding)))
  | .term c a x => do
    let c ← insertIn adopt binding c
    let a ← insertIn adopt binding a
    let x ← insertIn adopt binding x
    internWith adopt (.term c a x)
  | .unary op e => do
    let e ← insertIn adopt binding e
    internWith adopt (.unary op e)
  | .binary op l r => do
    let l ← insertIn adopt binding l
    let r ← insertIn adopt binding r
    internWith adopt (.binary op l r)
  | .nary op es => do
    let es ← insertList adopt binding es
    internWith adopt (.nary op es)
  | .call name es => do
    let es ← insertList adopt binding es
    internWith adopt (.call name es)

def insertBound (adopt : Bool) (binding : List String) : Option Expr → ZoneM (Option NodeId)
  | none => return none
  | some e => do return some (← insertIn adopt binding e)

def insertList (adopt : Bool) (binding : List String) : List Expr → ZoneM (List NodeId)
  | [] => return []
  | e :: es => do
    let id ← insertIn adopt binding e
    let ids ← insertList adopt binding es
    return id :: ids

end

/-- Inserts an expression, and returns its node. -/
def insert (e : Expr) : ZoneM NodeId := insertIn false [] e

/-- The node of a record, if the zone has it with the same value. -/
def findRecord? (z : Zone) (r : Record) : Option NodeId :=
  match z.lookup (z.weigh r) with
  | .ok (some existing) => if z.boundOf existing = r.bound? then some existing else none
  | _ => none

mutual

/-- Finds an expression that stands in the values of symbols of the names `binding`. -/
def findIn (z : Zone) (binding : List String) : Expr → Option NodeId
  | .number x => z.findRecord? (.number x)
  | .symbol kind name bound => do
    let bound ← findBound z (name :: binding) bound
    z.findRecord? (.symbol kind name bound (decide (name ∈ binding)))
  | .term c a x => do
    let c ← findIn z binding c
    let a ← findIn z binding a
    let x ← findIn z binding x
    z.findRecord? (.term c a x)
  | .unary op e => do
    let e ← findIn z binding e
    z.findRecord? (.unary op e)
  | .binary op l r => do
    let l ← findIn z binding l
    let r ← findIn z binding r
    z.findRecord? (.binary op l r)
  | .nary op es => do
    let es ← findList z binding es
    z.findRecord? (.nary op es)
  | .call name es => do
    let es ← findList z binding es
    z.findRecord? (.call name es)

def findBound (z : Zone) (binding : List String) : Option Expr → Option (Option NodeId)
  | none => some none
  | some e => (findIn z binding e).map some

def findList (z : Zone) (binding : List String) : List Expr → Option (List NodeId)
  | [] => some []
  | e :: es => do
    let id ← findIn z binding e
    let ids ← findList z binding es
    return id :: ids

end

/-- The node of an expression, if the zone has it. -/
def find? (z : Zone) (e : Expr) : Option NodeId := z.findIn [] e

end Zone

end Formulary
