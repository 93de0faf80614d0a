import Formulary.Arithmetic

/-!
The functions that calls of numbers are computed with, by name.
-/

namespace Formulary

/-- The numbers of arguments that a function takes: `least` or more, up to `most` if there is a
bound. -/
structure Arity where
  least : Nat
  most : Option Nat
  deriving DecidableEq, Repr

def Arity.accepts (a : Arity) (count : Nat) : Bool :=
  decide (a.least ≤ count) && a.most.all (fun most => decide (count ≤ most))

structure Builtin where
  name : String
  arity : Arity
  /-- The value at the arguments, if there are as many as the function takes. -/
  evaluate? : List Float → Option Float

namespace Builtin

/-- The logarithm to a base, or to base ten. -/
def logarithm? : List Float → Option Float
  | [x] => some (Float.log10 x)
  | [x, base] => some (Float.log x / Float.log base)
  | _ => none

/-- The greater of two numbers. A NaN gives way to a number, and of two equal ones the first
stays. -/
def greater (a b : Float) : Float := if a.isNaN || a < b then b else a

/-- The lesser of two numbers, as for `greater`. -/
def lesser (a b : Float) : Float := if a.isNaN || b < a then b else a

def merge? (f : Float → Float → Float) : List Float → Option Float
  | [] => none
  | x :: xs => some (xs.foldl f x)

def ofUnary (name : String) (f : Float → Float) : Builtin where
  name := name
  arity := ⟨1, some 1⟩
  evaluate?
    | [x] => some (f x)
    | _ => none

def ofMerge (name : String) (f : Float → Float → Float) : Builtin :=
  ⟨name, ⟨1, none⟩, merge? f⟩

/-- All functions, in alphabetical order. -/
def all : List Builtin :=
  [ofUnary "abs" Float.abs,
   ofUnary "acos" Float.acos,
   ofUnary "asin" Float.asin,
   ofUnary "atan" Float.atan,
   ofUnary "cbrt" cubeRoot,
   ofUnary "ceil" Float.ceil,
   ofUnary "cos" Float.cos,
   ofUnary "cosh" Float.cosh,
   ofUnary "exp" Float.exp,
   ofUnary "floor" Float.floor,
   ofUnary "ln" Float.log,
   ⟨"log", ⟨1, some 2⟩, logarithm?⟩,
   ofMerge "max" greater,
   ofMerge "min" lesser,
   ofUnary "round" Float.round,
   ofUnary "sin" Float.sin,
   ofUnary "sinh" Float.sinh,
   ofUnary "sqrt" Float.sqrt,
   ofUnary "tan" Float.tan,
   ofUnary "tanh" Float.tanh]

def find? (name : String) : Option Builtin := all.find? (·.name == name)

def names : List String := all.map (·.name)

end Builtin

end Formulary
