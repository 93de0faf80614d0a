import Formulary.Proofs.Zone.History

/-!
A zone without hashes. It is a list of records, and a record's node is found by a comparison with
all of them, one after the other. Whether a name is reached is decided by going down all references.
-/

namespace Formulary

/-- What an operation on a zone answers: the node of what it inserted, how many symbols it bound, or
why it did not. -/
inductive Answer
  | node (id : NodeId)
  | count (n : Nat)
  | refused (error : ZoneError)
  deriving DecidableEq, Repr

/-- Whether two nodes that differ were found to have one hash. -/
def Answer.isCollision : Answer → Bool
  | refused (.hashCollision ..) => true
  | _ => false

/-- The answer of a step, and the state that it leaves. -/
def outcome {σ α : Type} (answer : α → Answer) : EStateM.Result ZoneError σ α → Answer × σ
  | .ok a s => (answer a, s)
  | .error e s => (.refused e, s)

section Insertion

variable {m : Type → Type} [Monad m]

mutual

/-- Inserts an expression that stands in the values of symbols of the names `binding`, by what
interns one record. -/
def insertWith (intern : Record → m NodeId) (binding : List String) : Expr → m NodeId
  | .number x => intern (.number x)
  | .symbol kind name bound => do
    let bound ← insertBoundWith intern (name :: binding) bound
    intern (.symbol kind name bound (decide (name ∈ binding)))
  | .term c a x => do
    let c ← insertWith intern binding c
    let a ← insertWith intern binding a
    let x ← insertWith intern binding x
    intern (.term c a x)
  | .unary op e => do
    let e ← insertWith intern binding e
    intern (.unary op e)
  | .binary op l r => do
    let l ← insertWith intern binding l
    let r ← insertWith intern binding r
    intern (.binary op l r)
  | .nary op es => do
    let es ← insertListWith intern binding es
    intern (.nary op es)
  | .call name es => do
    let es ← insertListWith intern binding es
    intern (.call name es)

def insertBoundWith (intern : Record → m NodeId) (binding : List String) :
    Option Expr → m (Option NodeId)
  | none => return none
  | some e => do return some (← insertWith intern binding e)

def insertListWith (intern : Record → m NodeId) (binding : List String) :
    List Expr → m (List NodeId)
  | [] => return []
  | e :: es => do
    let id ← insertWith intern binding e
    let ids ← insertListWith intern binding es
    return id :: ids

end

end Insertion

structure Roster where
  records : List Record
  deriving DecidableEq, Repr

abbrev RosterM := EStateM ZoneError Roster

namespace Roster

def empty : Roster := ⟨[]⟩

def size (c : Roster) : Nat := c.records.length

def record? (c : Roster) (id : NodeId) : Option Record := c.records[id.index]?

def missing? (c : Roster) (r : Record) : Option NodeId :=
  r.references.find? fun id => decide (c.size ≤ id.index)

/-- The first node of the kind and payload of a record. -/
def scan? (c : Roster) (r : Record) : Option NodeId :=
  (c.records.findIdx? fun s => s.kind == r.kind && s.payload == r.payload).map NodeId.mk

def boundOf (c : Roster) (id : NodeId) : Option NodeId := (c.record? id).bind (·.bound?)

def push (c : Roster) (r : Record) : Roster := ⟨c.records ++ [r]⟩

/-- The node of a record, made if there is none. -/
def internWith (adopt : Bool) (r : Record) : RosterM NodeId := fun c =>
  match c.missing? r with
  | some id => .error (.unknownNode id) c
  | none =>
    match c.scan? r with
    | some existing =>
      if c.boundOf existing = r.bound? ∨ (adopt ∧ r.bound? = none) then .ok existing c
      else .error (.conflictingBinding (r.name?.getD "")) c
    | none => .ok ⟨c.size⟩ (c.push r)

/-- Whether a symbol of the given name is reached from a node by no more than `depth` nodes. -/
def reachesWithin (c : Roster) (name : String) : Nat → NodeId → Bool
  | 0, _ => false
  | depth + 1, id =>
    match c.record? id with
    | none => false
    | some r => r.name? == some name || r.references.any (reachesWithin c name depth)

def setAll (c : Roster) (name : String) (bound : Option NodeId) : Roster :=
  ⟨c.records.map fun r => if r.isOpen name then r.setBound bound else r⟩

def places (c : Roster) (name : String) : Nat := c.records.countP (·.isOpen name)

/-- Inserts a value and binds it to a name, unless the name is reached from it. -/
def bindValue (name : String) (value : Expr) : RosterM Nat := do
  let id ← insertWith (internWith true) [] value
  fun c =>
    if c.reachesWithin name c.size id then .error (.cyclicBinding name) c
    else .ok (c.places name) (c.setAll name (some id))

def perform (c : Roster) : Operation → Answer × Roster
  | .intern r => outcome .node ((internWith false r).run c)
  | .insert e => outcome .node ((insertWith (internWith false) [] e).run c)
  | .assign name none => (.count (c.places name), c.setAll name none)
  | .assign name (some v) => outcome .count ((bindValue name v).run c)

/-- The answers of operations, one after the other, and what they make of the list. -/
def performAll (c : Roster) : List Operation → List Answer × Roster
  | [] => ([], c)
  | op :: ops =>
    let (answer, c) := c.perform op
    let (answers, c) := c.performAll ops
    (answer :: answers, c)

section Scan

variable {c : Roster} {r : Record} {id : NodeId}

theorem record?_of_scan? (h : c.scan? r = some id) :
    ∃ s, c.record? id = some s ∧ s.kind = r.kind ∧ s.payload = r.payload := by
  obtain ⟨i, hi, rfl⟩ := Option.map_eq_some_iff.mp h
  obtain ⟨hlt, hsame, -⟩ := List.findIdx?_eq_some_iff_getElem.mp hi
  simp only [Bool.and_eq_true, beq_iff_eq] at hsame
  exact ⟨c.records[i], List.getElem?_eq_getElem hlt, hsame⟩

theorem scan?_eq_none_iff : c.scan? r = none ↔
    ∀ id s, c.record? id = some s → ¬ (s.kind = r.kind ∧ s.payload = r.payload) := by
  rw [scan?, Option.map_eq_none_iff, List.findIdx?_eq_none_iff]
  constructor
  · intro h id s hs
    simpa using h s (List.mem_of_getElem? hs)
  · intro h s hs
    obtain ⟨i, hi⟩ := List.getElem?_of_mem hs
    simpa using h ⟨i⟩ s hi

end Scan

end Roster

namespace Zone

def perform (z : Zone) : Operation → Answer × Zone
  | .intern r => outcome .node ((intern r).run z)
  | .insert e => outcome .node ((insert e).run z)
  | .assign name value =>
    match z.assign name value () with
    | (.ok count, z, _) => (.count count, z)
    | (.error error, z, _) => (.refused error, z)

/-- The answers of operations, one after the other, and what they make of a zone. -/
def performAll (z : Zone) : List Operation → List Answer × Zone
  | [] => ([], z)
  | op :: ops =>
    let (answer, z) := z.perform op
    let (answers, z) := z.performAll ops
    (answer :: answers, z)

end Zone

section Insertion

variable {m m' : Type → Type} [Monad m] [Monad m'] {intern : Record → m NodeId}
  {intern' : Record → m' NodeId} {binding : List String} {R : ∀ {α : Type}, m α → m' α → Prop}

theorem insertListWith_related {es : List Expr}
    (hpure : ∀ {α : Type} (a : α), R (pure a : m α) (pure a))
    (hbind : ∀ {α β : Type} {x : m α} {y : m' α} {f : α → m β} {g : α → m' β}, R x y →
      (∀ a, R (f a) (g a)) → R (x >>= f) (y >>= g))
    (hes : ∀ e ∈ es, R (insertWith intern binding e) (insertWith intern' binding e)) :
    R (insertListWith intern binding es) (insertListWith intern' binding es) := by
  induction es with
  | nil => exact hpure []
  | cons e es ih =>
    refine hbind (hes e (by simp)) fun id => ?_
    exact hbind (ih fun f hf => hes f (by simp [hf])) fun ids => hpure (id :: ids)

/-- Insertions by two ways to intern a record are related if these are, by a relation that holds of
results and is kept by sequences of steps. -/
theorem insertWith_related (hpure : ∀ {α : Type} (a : α), R (pure a : m α) (pure a))
    (hbind : ∀ {α β : Type} {x : m α} {y : m' α} {f : α → m β} {g : α → m' β}, R x y →
      (∀ a, R (f a) (g a)) → R (x >>= f) (y >>= g))
    (hintern : ∀ r, R (intern r) (intern' r)) (binding : List String) (e : Expr) :
    R (insertWith intern binding e) (insertWith intern' binding e) := by
  induction e generalizing binding with
  | number x => exact hintern _
  | symbol kind name bound ih =>
    cases bound with
    | none => exact hbind (hpure none) fun i => hintern _
    | some v =>
      exact hbind (hbind (ih v rfl (name :: binding)) fun i => hpure (some i)) fun i => hintern _
  | term c a x ihc iha ihx =>
    exact hbind (ihc binding) fun _ => hbind (iha binding) fun _ => hbind (ihx binding) fun _ =>
      hintern _
  | unary op e ih => exact hbind (ih binding) fun _ => hintern _
  | binary op l r ihl ihr =>
    exact hbind (ihl binding) fun _ => hbind (ihr binding) fun _ => hintern _
  | nary op es ih | call name es ih =>
    exact hbind (insertListWith_related hpure hbind fun e he => ih e he binding) fun _ => hintern _

theorem insertList_eq_insertListWith {adopt : Bool} {es : List Expr}
    (hes : ∀ e ∈ es, Zone.insertIn adopt binding e = insertWith (Zone.internWith adopt) binding e) :
    Zone.insertList adopt binding es = insertListWith (Zone.internWith adopt) binding es := by
  induction es with
  | nil => rfl
  | cons e es ih =>
    rw [Zone.insertList, insertListWith, hes e (by simp), ih fun f hf => hes f (by simp [hf])]

theorem insertIn_eq_insertWith (adopt : Bool) (binding : List String) (e : Expr) :
    Zone.insertIn adopt binding e = insertWith (Zone.internWith adopt) binding e := by
  induction e generalizing binding with
  | number x => rfl
  | symbol kind name bound ih =>
    cases bound with
    | none => rfl
    | some v => rw [Zone.insertIn, Zone.insertBound, insertWith, insertBoundWith, ih v rfl]
  | term c a x ihc iha ihx => rw [Zone.insertIn, insertWith, ihc, iha, ihx]
  | unary op e ih => rw [Zone.insertIn, insertWith, ih]
  | binary op l r ihl ihr => rw [Zone.insertIn, insertWith, ihl, ihr]
  | nary op es ih | call name es ih =>
    rw [Zone.insertIn, insertWith, insertList_eq_insertListWith fun e he => ih e he binding]

end Insertion

end Formulary
