import Formulary.Decimal.Shortest

/-!
Numbers as text. A whole number of less than sixteen digits is written as it is, any other number
with the fewest digits that read back, always in positional form.
-/

namespace Formulary

namespace Decimal

def digits (n : Nat) : List Char := Nat.toDigits 10 n

def zeros (n : Nat) : List Char := List.replicate n '0'

/-- The number `d · 10 ^ k` without an exponent. -/
def positional (d : Nat) (k : Int) : List Char :=
  let ds := digits d
  if 0 ≤ k then ds ++ zeros k.toNat
  else
    let places := (-k).toNat
    if places < ds.length then
      ds.take (ds.length - places) ++ '.' :: ds.drop (ds.length - places)
    else '0' :: '.' :: zeros (places - ds.length) ++ ds

/-- The value of `m · 2 ^ e` if it is a whole number. -/
def whole? (m : Nat) (e : Int) : Option Nat :=
  let scaled := m * Nat.pow 2 e.toNat
  let den := Nat.pow 2 (-e).toNat
  if scaled % den = 0 then some (scaled / den) else none

/-- Whole numbers below this one are written as they are. -/
def wholeLimit : Nat := Nat.pow 10 15

/-- The text of the positive number `m · 2 ^ e`. -/
def magnitude (m : Nat) (e : Int) : List Char :=
  match whole? m e with
  | some n => if n < wholeLimit then digits n else positional (shortest m e).1 (shortest m e).2
  | none => positional (shortest m e).1 (shortest m e).2

def sign : Float.Model.UnpackedFloat.Sign → List Char
  | .positive => []
  | .negative => ['-']

end Decimal

open Decimal in
/-- The text of a number. Zero has no sign. -/
def numeral (x : Float) : String :=
  match x.toModel.unpack with
  | .notANumber => "NaN"
  | .infinity s => String.ofList (sign s ++ "inf".toList)
  | .zero _ => "0"
  | .finite s m e _ => String.ofList (sign s ++ magnitude m e)

/-- The number that a run of decimal digits stands for, rounded to the nearest double. -/
def Decimal.read (lexeme : String) : Float :=
  Float.ofNat (lexeme.toList.foldl (fun n c => 10 * n + (c.toNat - '0'.toNat)) 0)

end Formulary
