/-!
Binding strengths, from the weakest to the strongest. Every operator of the written language has a
level of its own; `atom` is the level of what never needs grouping.
-/

namespace Formulary

inductive Level
  | equality
  | sequence
  | addition
  | subtraction
  | division
  | multiplication
  | power
  | root
  | atom
  deriving DecidableEq, Repr, Inhabited

namespace Level

/-- The place of a level, weakest first. -/
def rank : Level → Nat
  | equality => 0
  | sequence => 1
  | addition => 2
  | subtraction => 3
  | division => 4
  | multiplication => 5
  | power => 6
  | root => 7
  | atom => 8

instance : LT Level := ⟨fun a b => a.rank < b.rank⟩
instance : LE Level := ⟨fun a b => a.rank ≤ b.rank⟩
instance (a b : Level) : Decidable (a < b) := inferInstanceAs (Decidable (a.rank < b.rank))
instance (a b : Level) : Decidable (a ≤ b) := inferInstanceAs (Decidable (a.rank ≤ b.rank))

def all : List Level :=
  [equality, sequence, addition, subtraction, division, multiplication, power, root, atom]

/-- The level that binds just more tightly. -/
def next : Level → Level
  | equality => sequence
  | sequence => addition
  | addition => subtraction
  | subtraction => division
  | division => multiplication
  | multiplication => power
  | power => root
  | root => atom
  | atom => atom

/-- The operators of these two levels are also signs. -/
def isSign : Level → Bool
  | addition | subtraction => true
  | _ => false

theorem rank_next {l : Level} (h : l ≠ atom) : l.next.rank = l.rank + 1 := by
  cases l <;> simp_all [next, rank]

end Level

end Formulary
