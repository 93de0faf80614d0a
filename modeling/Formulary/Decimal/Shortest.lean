/-!
The shortest decimal that reads back as a given double. A positive double `m · 2 ^ e` is the
nearest double to every real of an interval around it; of the decimal grids, from the coarsest to
the finest, the first that has a point in this interval gives the digits.
-/

namespace Formulary.Decimal

/-- The reals that read as one double, as fractions over `den`; the ends belong to them if
`closed`. -/
structure Interval where
  low : Nat
  value : Nat
  high : Nat
  den : Nat
  closed : Bool
  deriving DecidableEq, Repr

/-- The positive double `m · 2 ^ e` in quarters of its last place. Below a power of two the
neighbour is twice as near, except where the doubles are evenly spaced down to zero. -/
def interval (m : Nat) (e : Int) : Interval :=
  let low := if m = Nat.pow 2 52 ∧ e ≠ -1074 then 4 * m - 1 else 4 * m - 2
  let scale := Nat.pow 2 (e - 2).toNat
  ⟨low * scale, 4 * m * scale, (4 * m + 2) * scale, Nat.pow 2 (2 - e).toNat, m % 2 = 0⟩

namespace Interval

/-- The same interval measured in units of `10 ^ k`. -/
def inUnits (i : Interval) (k : Int) : Interval :=
  let down := Nat.pow 10 (-k).toNat
  ⟨i.low * down, i.value * down, i.high * down, i.den * Nat.pow 10 k.toNat, i.closed⟩

def contains (i : Interval) (n : Nat) : Bool :=
  if i.closed then decide (i.low ≤ n * i.den ∧ n * i.den ≤ i.high)
  else decide (i.low < n * i.den ∧ n * i.den < i.high)

/-- The whole number in the interval that is nearest to its value, if one of the two next to the
value lies in the interval; halfway between two, the larger. -/
def whole? (i : Interval) : Option Nat :=
  let down := i.value / i.den
  match i.contains down, i.contains (down + 1) with
  | true, true => some (if 2 * (i.value % i.den) < i.den then down else down + 1)
  | true, false => some down
  | false, true => some (down + 1)
  | false, false => none

/-- An exponent `p` with `value < 10 ^ p`, and no smaller one unless the value is a power of
ten. -/
def magnitude (i : Interval) : Int :=
  if i.den ≤ i.value then ((Nat.toDigits 10 (i.value / i.den)).length : Int)
  else 1 - ((Nat.toDigits 10 (i.den / i.value)).length : Int)

end Interval

/-- Digits `d` and an exponent `k` such that `d · 10 ^ k` reads as `m · 2 ^ e`, with as few digits
as possible. Seventeen digits always suffice. -/
def shortest (m : Nat) (e : Int) : Nat × Int :=
  let i := interval m e
  let p := i.magnitude
  let grids := (List.range 18).map fun (n : Nat) => p - n
  (grids.findSome? fun k => (i.inUnits k).whole?.map (·, k)).getD (0, 0)

end Formulary.Decimal
