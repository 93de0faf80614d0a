import Formulary.Expr

/-!
Two equalities of expressions. `Expr.equal` compares numbers as numbers, so `0` and `-0` are equal
and a NaN differs from itself; `a = b` compares them by their bits and is decidable.
-/

namespace Formulary.Expr

mutual

/-- Equality of structure, given how numbers are compared. -/
def sameBy (eq : Float → Float → Bool) : Expr → Expr → Bool
  | .number x, .number y => eq x y
  | .symbol k n b, .symbol k' n' b' => k == k' && n == n' && sameBoundBy eq b b'
  | .term c a x, .term c' a' x' => sameBy eq c c' && sameBy eq a a' && sameBy eq x x'
  | .unary op e, .unary op' e' => op == op' && sameBy eq e e'
  | .binary op l r, .binary op' l' r' => op == op' && sameBy eq l l' && sameBy eq r r'
  | .nary op es, .nary op' es' => op == op' && sameListBy eq es es'
  | .call n es, .call n' es' => n == n' && sameListBy eq es es'
  | _, _ => false

def sameBoundBy (eq : Float → Float → Bool) : Option Expr → Option Expr → Bool
  | none, none => true
  | some e, some e' => sameBy eq e e'
  | _, _ => false

def sameListBy (eq : Float → Float → Bool) : List Expr → List Expr → Bool
  | [], [] => true
  | e :: es, e' :: es' => sameBy eq e e' && sameListBy eq es es'
  | _, _ => false

end

/-- Equality with numbers compared as numbers. -/
def equal (a b : Expr) : Bool := sameBy (· == ·) a b

/-- Equality with numbers compared by their bits. -/
def identical (a b : Expr) : Bool := sameBy (fun x y => decide (x = y)) a b

mutual

theorem identical_iff : (a b : Expr) → (identical a b = true ↔ a = b)
  | .number x, b => by cases b <;> simp [identical, sameBy]
  | .symbol k n bd, b => by
    cases b with
    | symbol k' n' bd' =>
      have := identicalBound_iff bd bd'
      simp_all [identical, sameBy, and_assoc]
    | _ => simp [identical, sameBy]
  | .term c a x, b => by
    cases b with
    | term c' a' x' =>
      have := identical_iff c c'
      have := identical_iff a a'
      have := identical_iff x x'
      simp_all [identical, sameBy, and_assoc]
    | _ => simp [identical, sameBy]
  | .unary op e, b => by
    cases b with
    | unary op' e' =>
      have := identical_iff e e'
      simp_all [identical, sameBy]
    | _ => simp [identical, sameBy]
  | .binary op l r, b => by
    cases b with
    | binary op' l' r' =>
      have := identical_iff l l'
      have := identical_iff r r'
      simp_all [identical, sameBy, and_assoc]
    | _ => simp [identical, sameBy]
  | .nary op es, b => by
    cases b with
    | nary op' es' =>
      have := identicalList_iff es es'
      simp_all [identical, sameBy]
    | _ => simp [identical, sameBy]
  | .call n es, b => by
    cases b with
    | call n' es' =>
      have := identicalList_iff es es'
      simp_all [identical, sameBy]
    | _ => simp [identical, sameBy]

theorem identicalBound_iff : (a b : Option Expr) →
    (sameBoundBy (fun x y => decide (x = y)) a b = true ↔ a = b)
  | none, b => by cases b <;> simp [sameBoundBy]
  | some e, b => by
    cases b with
    | none => simp [sameBoundBy]
    | some e' =>
      have := identical_iff e e'
      simp_all [identical, sameBoundBy]

theorem identicalList_iff : (a b : List Expr) →
    (sameListBy (fun x y => decide (x = y)) a b = true ↔ a = b)
  | [], b => by cases b <;> simp [sameListBy]
  | e :: es, b => by
    cases b with
    | nil => simp [sameListBy]
    | cons e' es' =>
      have := identical_iff e e'
      have := identicalList_iff es es'
      simp_all [identical, sameListBy]

end

instance : DecidableEq Expr := fun a b => decidable_of_iff _ (identical_iff a b)

end Formulary.Expr
