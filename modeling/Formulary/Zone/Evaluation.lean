import Formulary.Evaluation.Resolution
import Formulary.Zone.Binding

/-!
Trees and values of the nodes of a zone. Every step goes from a node to one that it refers to, so
the number of nodes bounds the depth unless a node is reached from itself.
-/

namespace Formulary.Zone

/-- The tree of a node, if it is not deeper than `depth`. -/
def build? (z : Zone) : Nat → NodeId → Option Expr
  | 0, _ => none
  | depth + 1, id => (z.record? id).bind fun r => r.assemble? (z.build? depth)

/-- The results found so far for nodes outside all values. -/
abbrev Memo := Array (Option Expr)

/-- A step of evaluating nodes, which has no result for a node that is too deep. -/
abbrev Evaluator := StateT Memo Option

/-- Takes the result for a node from the memory, or else puts it there, if it is to be `kept`. -/
def remember (kept : Bool) (id : NodeId) (step : Evaluator Expr) : Evaluator Expr :=
  if kept then fun memo =>
    match memo[id.index]?.join with
    | some e => some (e, memo)
    | none => (step memo).map fun (e, memo) => (e, memo.setIfInBounds id.index (some e))
  else step

/-- Evaluates a node, if it is not deeper than the given depth, while the names in `active` are
being resolved. A result that may depend on such names is not remembered. -/
def evaluateAt (a : Assembly) (env : Environment) (z : Zone) :
    Nat → List String → NodeId → Evaluator Expr
  | 0, _, _ => failure
  | depth + 1, active, id =>
    remember (a.remembered && active.isEmpty) id <|
      match z.record? id with
      | none => failure
      | some (.number x) => pure (.number x)
      | some (.symbol kind name bound _) =>
        if name ∈ active then StateT.lift (z.build? (depth + 1) id)
        else
          match bound, env[name]? with
          | some value, _ => evaluateAt a env z depth (name :: active) value
          | none, some value => pure (value.evaluate a env (name :: active))
          | none, none => pure (.symbol kind name none)
      | some (.term c x u) => do
        let c ← evaluateAt a env z depth active c
        let x ← evaluateAt a env z depth active x
        let u ← evaluateAt a env z depth active u
        return a.term c x u
      | some (.unary op e) => do
        let e ← evaluateAt a env z depth active e
        return a.unary op e
      | some (.binary op l r) => do
        let l ← evaluateAt a env z depth active l
        let r ← evaluateAt a env z depth active r
        return a.binary op l r
      | some (.nary op es) => do
        let es ← es.mapM (evaluateAt a env z depth active)
        return a.nary op es
      | some (.call name es) => do
        let es ← es.mapM (evaluateAt a env z depth active)
        return a.call name es

/-- The result for a node of the zone that has a tree. -/
def ofNode (z : Zone) (id : NodeId) (result : Option Expr) : Except ZoneError Expr :=
  if id.index < z.size then
    match result with
    | some e => .ok e
    | none => .error (.endlessNode id)
  else .error (.unknownNode id)

/-- The tree of a node, with the values bound to its symbols. -/
def toExpr (z : Zone) (id : NodeId) : Except ZoneError Expr := z.ofNode id (z.build? z.size id)

def evaluate (z : Zone) (a : Assembly) (env : Environment) (id : NodeId) :
    Except ZoneError Expr :=
  z.ofNode id <|
    ((evaluateAt a env z z.size [] id).run (Array.replicate z.size none)).map (·.1)

/-- The node with every name that has a value resolved and every number folded. -/
def compute (z : Zone) (env : Environment) (id : NodeId) : Except ZoneError Expr :=
  z.evaluate .folding env id

/-- The node with every name that has a value replaced by it, and nothing folded. -/
def converting (z : Zone) (env : Environment) (id : NodeId) : Except ZoneError Expr :=
  z.evaluate .plain env id

end Formulary.Zone
