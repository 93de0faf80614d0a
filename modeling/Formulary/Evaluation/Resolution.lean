import Formulary.Environment
import Formulary.Evaluation.Folding

/-!
Evaluation of expressions. A symbol stands for its own value, or else for the value that the
environment has for its name, or else for itself; it also stands for itself inside its own value,
so evaluation ends whatever refers to what.
-/

namespace Formulary

/-- How many names of the environment are not being resolved. -/
def Environment.unresolved (env : Environment) (active : List String) : Nat :=
  (env.keys.filter (· ∉ active)).length

namespace Environment

theorem unresolved_cons_le (env : Environment) (name : String) (active : List String) :
    env.unresolved (name :: active) ≤ env.unresolved active := by
  unfold unresolved
  rw [← List.countP_eq_length_filter, ← List.countP_eq_length_filter]
  exact List.countP_mono_left fun n _ h => by simp_all

theorem unresolved_cons_lt (env : Environment) {name : String} {active : List String}
    (hname : name ∈ env) (hactive : name ∉ active) :
    env.unresolved (name :: active) < env.unresolved active := by
  unfold unresolved
  have hmem : name ∈ env.keys := Std.ExtTreeMap.mem_keys.mpr hname
  generalize env.keys = names at hmem
  have hle (names : List String) :
      (names.filter (· ∉ name :: active)).length ≤ (names.filter (· ∉ active)).length := by
    rw [← List.countP_eq_length_filter, ← List.countP_eq_length_filter]
    exact List.countP_mono_left fun n _ h => by simp_all
  induction names with
  | nil => simp at hmem
  | cons n names ih =>
    by_cases hn : n = name
    · subst hn
      have := hle names
      simp [hactive]
      simp at this
      omega
    · have hmem : name ∈ names := by simpa [Ne.symm hn] using hmem
      have := ih hmem
      by_cases ha : n ∈ active <;> simp_all

/-- The size of all values of a list together. -/
noncomputable def bulk : List (String × Expr) → Nat
  | [] => 0
  | (_, e) :: values => sizeOf e + bulk values

theorem sizeOf_le_bulk {values : List (String × Expr)} {name : String} {e : Expr}
    (h : (name, e) ∈ values) : sizeOf e ≤ bulk values := by
  induction values with
  | nil => simp at h
  | cons v values ih =>
    rcases List.mem_cons.mp h with rfl | h
    · exact Nat.le_add_right ..
    · exact Nat.le_trans (ih h) (Nat.le_add_left ..)

/-- What is left to do for an expression: no step of its evaluation makes this greater. -/
noncomputable def work (env : Environment) (active : List String) (e : Expr) : Nat :=
  env.unresolved active * (bulk env.toList + 1) + sizeOf e

theorem work_child_lt (env : Environment) (active : List String) {e c : Expr}
    (h : sizeOf c < sizeOf e) : env.work active c < env.work active e :=
  Nat.add_lt_add_left h _

theorem work_bound_lt (env : Environment) (name : String) (active : List String) {e value : Expr}
    (h : sizeOf value < sizeOf e) : env.work (name :: active) value < env.work active e :=
  Nat.add_lt_add_of_le_of_lt (Nat.mul_le_mul_right _ (env.unresolved_cons_le name active)) h

theorem work_value_lt (env : Environment) {name : String} {active : List String} {value : Expr}
    (e : Expr) (hactive : name ∉ active) (hvalue : env[name]? = some value) :
    env.work (name :: active) value < env.work active e := by
  have hmem : name ∈ env := Std.ExtTreeMap.mem_iff_isSome_getElem?.mpr (by simp [hvalue])
  have hsize : sizeOf value ≤ bulk env.toList :=
    sizeOf_le_bulk (Std.ExtTreeMap.mem_toList_iff_getElem?_eq_some.mpr hvalue)
  have hmul := Nat.mul_le_mul_right (bulk env.toList + 1) (env.unresolved_cons_lt hmem hactive)
  rw [Nat.succ_mul] at hmul
  unfold work
  omega

end Environment

namespace Expr

/-- Evaluates an expression while the names in `active` are being resolved. -/
def evaluate (a : Assembly) (env : Environment) (active : List String) (e : Expr) : Expr :=
  match e with
  | .number x => .number x
  | .symbol kind name bound =>
    if name ∈ active then .symbol kind name bound
    else
      match bound with
      | some value => evaluate a env (name :: active) value
      | none =>
        match _h : env[name]? with
        | some value => evaluate a env (name :: active) value
        | none => .symbol kind name none
  | .term c x u =>
    a.term (evaluate a env active c) (evaluate a env active x) (evaluate a env active u)
  | .unary op e => a.unary op (evaluate a env active e)
  | .binary op l r => a.binary op (evaluate a env active l) (evaluate a env active r)
  | .nary op es => a.nary op (es.map (evaluate a env active))
  | .call name es => a.call name (es.map (evaluate a env active))
termination_by env.work active e
decreasing_by
  · exact env.work_bound_lt name active (by simp; omega)
  · exact env.work_value_lt _ ‹_› _h
  all_goals exact env.work_child_lt active (sizeOf_lt_of_mem_children (by simp [children, *]))

/-- The expression with every name that has a value resolved and every number folded. -/
def compute (env : Environment) (e : Expr) : Expr := e.evaluate .folding env []

/-- The expression with every name that has a value replaced by it, and nothing folded. -/
def converting (env : Environment) (e : Expr) : Expr := e.evaluate .plain env []

/-- The number that an expression computes to, if it does. -/
def toFloat? (env : Environment) (e : Expr) : Option Float := (e.compute env).number?

/-- The number that an expression computes to, or else zero. -/
def toFloatD (env : Environment) (e : Expr) : Float := (e.toFloat? env).getD 0

end Expr

end Formulary
