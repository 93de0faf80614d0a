import Formulary.Expr
import Formulary.Decimal.Numeral

/-!
The arithmetic of operators on doubles.
-/

namespace Formulary

/-- Whether a number is an odd whole number. -/
def isOddWhole (x : Float) : Bool :=
  match x.toModel.unpack with
  | .finite _ m e _ =>
    match Decimal.whole? m e with
    | some n => n % 2 == 1
    | none => false
  | _ => false

/-- The root of `a` of degree `b`. A negative number has a negative root of odd degree. -/
def realRoot (a b : Float) : Float :=
  if a < 0 && isOddWhole b then -(Float.pow (-a) (1 / b)) else Float.pow a (1 / b)

/-- The greatest whole number below `2 ^ bits` whose cube is at most `n`. -/
def wholeCubeRoot (bits n : Nat) : Nat :=
  (List.range bits).foldr
    (fun i r => if Nat.pow (r + Nat.pow 2 i) 3 ≤ n then r + Nat.pow 2 i else r) 0

open Float.Model in
/-- The double nearest to the cube root. It stands for a library function whose precision is not
specified, and which may differ from it in the last bits. The root is taken of `m · 2 ^ s`, where
`s` leaves an exponent that three divides and makes the whole root longer than any mantissa; one
more bit records whether it is exact. -/
def cubeRoot (x : Float) : Float :=
  match x.toModel.unpack with
  | .finite sign m e _ =>
    let third := (e - 165) / 3
    let n := m * Nat.pow 2 (e - 3 * third).toNat
    let r := wholeCubeRoot 75 n
    let rest := if Nat.pow r 3 = n then 0 else 1
    .ofModel (.pack (.round .binary64 sign (2 * r + rest) (third - 1)))
  | _ => x

def UnaryOp.apply : UnaryOp → Float → Float
  | .positive, x | .paren, x | .bracket, x => x
  | .negative, x => -x
  | .inverse, x => 1 / x

/-- The value of an operation on two numbers. An equality has none. -/
def BinaryKind.evaluate? : BinaryKind → Float → Float → Option Float
  | .addition, a, b => some (a + b)
  | .subtraction, a, b => some (a - b)
  | .multiplication, a, b => some (a * b)
  | .division, a, b => some (a / b)
  | .power, a, b => some (Float.pow a b)
  | .root, a, b => some (realRoot a b)
  | .equality, _, _ => none

/-- The operation by which numbers in a list merge, and its identity. Sequences merge nothing. -/
def NaryOp.merging? : NaryOp → Option (Float × (Float → Float → Float))
  | .sum => some (0, (· + ·))
  | .product => some (1, (· * ·))
  | .sequence => none

end Formulary
