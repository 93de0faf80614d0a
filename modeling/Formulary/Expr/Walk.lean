import Formulary.Expr

/-!
The nodes of a tree, children before parents, by an explicit stack. A node on top of the stack
gives way to its children until the last of them was the node visited just before; nodes are told
apart by their places, so equal subtrees are not confused.
-/

namespace Formulary.Expr

/-- A node and the child numbers that lead to it, the last step first. -/
structure Place where
  path : List Nat
  node : Expr

def Place.children (p : Place) : List Place :=
  p.node.children.mapIdx fun i c => ⟨i :: p.path, c⟩

/-- A traversal under way: the nodes still to visit, the next on top, and the last one visited. -/
structure Walk where
  stack : List Place
  visited : Option (List Nat)

namespace Walk

def start (e : Expr) : Walk := ⟨[⟨[], e⟩], none⟩

noncomputable def topSize (stack : List Place) : Nat :=
  match stack with
  | [] => 0
  | top :: _ => sizeOf top.node

theorem topSize_children_lt (top : Place) (rest : List Place) (h : top.children ≠ []) :
    topSize (top.children ++ rest) < sizeOf top.node := by
  cases hc : top.node.children with
  | nil => simp [Place.children, hc] at h
  | cons c cs =>
    have : sizeOf c < sizeOf top.node := sizeOf_lt_of_mem_children (by simp [hc])
    simpa [Place.children, hc, List.mapIdx_cons, topSize] using this

/-- Puts children above their parents until a node is on top whose children are all visited. -/
def settle (visited : Option (List Nat)) : List Place → List Place
  | [] => []
  | top :: rest =>
    match _h : top.children.getLast? with
    | none => top :: rest
    | some last =>
      if visited = some last.path then top :: rest
      else settle visited (top.children ++ top :: rest)
termination_by stack => topSize stack
decreasing_by
  refine topSize_children_lt top (top :: rest) fun hc => ?_
  simp [hc] at _h

/-- Visits the next node. -/
def next? (w : Walk) : Option (Expr × Walk) :=
  match settle w.visited w.stack with
  | [] => none
  | top :: rest => some (top.node, ⟨rest, some top.path⟩)

/-- The next nodes of a walk, at most `count` of them. -/
def take : Nat → Walk → List Expr
  | 0, _ => []
  | count + 1, w =>
    match w.next? with
    | none => []
    | some (e, w) => e :: take count w

end Walk

mutual

/-- The number of nodes of a tree, bound values aside. -/
def total : Expr → Nat
  | .number _ | .symbol .. => 1
  | .term c a x => total c + total a + total x + 1
  | .unary _ e => total e + 1
  | .binary _ l r => total l + total r + 1
  | .nary _ es | .call _ es => totalOf es + 1

def totalOf : List Expr → Nat
  | [] => 0
  | e :: es => total e + totalOf es

end

/-- The nodes of a tree from left to right, children before parents. -/
def visits (e : Expr) : List Expr := (Walk.start e).take e.total

def nodeCount (e : Expr) : Nat := e.visits.length

/-- The distinct names of the symbols of a tree, in the order of their first visits. -/
def names (e : Expr) : List String :=
  (e.visits.filterMap symbolName?).foldl (fun seen n => if n ∈ seen then seen else seen ++ [n]) []

mutual

/-- Whether a symbol of the given name occurs in a tree, bound values included. -/
def mentions (name : String) : Expr → Bool
  | .number _ => false
  | .symbol _ n bound => n == name || mentionsBound name bound
  | .term c a x => mentions name c || mentions name a || mentions name x
  | .unary _ e => mentions name e
  | .binary _ l r => mentions name l || mentions name r
  | .nary _ es | .call _ es => mentionsList name es

def mentionsBound (name : String) : Option Expr → Bool
  | none => false
  | some e => mentions name e

def mentionsList (name : String) : List Expr → Bool
  | [] => false
  | e :: es => mentions name e || mentionsList name es

end

end Formulary.Expr
