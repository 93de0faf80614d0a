import Std.Data.ExtTreeMap
import Formulary.Builtin
import Formulary.Expr

/-!
Named values, and the tables through which expressions share them.
-/

namespace Formulary

/-- Values by name. Two environments with the same values are the same. -/
abbrev Environment := Std.ExtTreeMap String Expr

/-- The named mathematical constants. -/
def constants : List (String × Float) :=
  [("e", Float.ofBits 0x4005bf0a8b145769),
   ("phi", Float.ofBits 0x3ff9e3779b97f4a8),
   ("pi", Float.ofBits 0x400921fb54442d18),
   ("tau", Float.ofBits 0x401921fb54442d18)]

/-- Whether one list becomes the other by at most one change: an element replaced, added or left
out. This stands for the test that the Levenshtein distance of the two, which is the least number of
such changes, is below two. -/
def withinOneEdit {α : Type} [DecidableEq α] : List α → List α → Bool
  | [], ys => decide (ys.length ≤ 1)
  | xs, [] => decide (xs.length ≤ 1)
  | x :: xs, y :: ys =>
    if x = y then withinOneEdit xs ys
    else decide (xs = ys) || decide (xs = y :: ys) || decide (x :: xs = ys)

namespace Environment

def withConstants : Environment :=
  constants.foldl (fun env c => env.insert c.1 (.number c.2)) ∅

/-- Sets a value, or removes it. -/
def update (env : Environment) (name : String) : Option Expr → Environment
  | some value => env.insert name value
  | none => env.erase name

/-- The other names, of values and of functions, that differ from a name by one character. -/
def similarNames (env : Environment) (name : String) : List String :=
  let near := (env.keys ++ Builtin.names).filter fun n =>
    n != name && withinOneEdit n.toList name.toList
  (near.mergeSort (fun a b => decide (a ≤ b))).eraseDups

end Environment

/-- A table to publish values to. Only what it has published is ever looked up. -/
class SymbolTable (τ : Type) where
  published : τ → Environment
  /-- Publishes a value for a name, or that the name has none any more. -/
  publish : τ → String → Option Expr → τ

instance : SymbolTable Environment where
  published env := env
  publish := Environment.update

/-- The table that shares nothing. -/
instance : SymbolTable Unit where
  published _ := ∅
  publish _ _ _ := ()

/-- A table that keeps a record of every publication. -/
structure Journal where
  values : Environment
  events : List (String × Option Expr)

instance : SymbolTable Journal where
  published j := j.values
  publish j name value := ⟨Environment.update j.values name value, j.events ++ [(name, value)]⟩

end Formulary
