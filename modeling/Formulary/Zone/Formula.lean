import Formulary.Zone.Evaluation

/-!
Formulas: a zone of its own and the node of the whole in it.
-/

namespace Formulary

structure Formula where
  zone : Zone
  root : NodeId

/-- Shares every repeated part of an expression. `Hasher.structural` stands here for the default
hasher of the library, whose algorithm is not specified; what is proved of zones holds for any. -/
def Formula.ofExpr (e : Expr) : Except ZoneError Formula :=
  match (Zone.insert e).run (.empty Hasher.structural) with
  | .ok root zone => .ok ⟨zone, root⟩
  | .error error _ => .error error

namespace Formula

def toExpr (f : Formula) : Except ZoneError Expr := f.zone.toExpr f.root

def compute (f : Formula) (env : Environment) : Except ZoneError Expr := f.zone.compute env f.root

def converting (f : Formula) (env : Environment) : Except ZoneError Expr :=
  f.zone.converting env f.root

/-- Binds a name in the formula, or unbinds it, and publishes that to a table if it succeeds. -/
def assign {τ : Type} [SymbolTable τ] (name : String) (value : Option Expr) (f : Formula)
    (table : τ) : Except ZoneError Nat × Formula × τ :=
  let (count, zone, table) := f.zone.assign name value table
  (count, { f with zone }, table)

end Formula

end Formulary
