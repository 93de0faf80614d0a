import Formulary.Expr

/-!
Where the written form of an expression needs grouping marks. An operand is grouped when it binds
less tightly than its parent, or equally and on the right-hand side.
-/

namespace Formulary

inductive Side
  | left
  | right
  deriving DecidableEq, Repr

/-- Whether `child` must be grouped as an operand of a parent that binds at `parent`. A sign takes
everything to its right at the level at which it stands. -/
def needsGroup (parent : Level) (child : Expr) (side : Side) : Bool :=
  match child with
  | .binary ⟨_, true⟩ _ rhs =>
    decide (Level.subtraction < parent) && (side == .left || decide (rhs.level ≤ parent))
  | _ => decide (child.level < parent) || (child.level == parent && side == .right)

/-- Whether one of `count` arguments of a call must be grouped. -/
def argNeedsGroup (count : Nat) (arg : Expr) : Bool :=
  match arg.level with
  | .sequence => true
  | .equality => decide (1 < count)
  | _ => false

end Formulary
