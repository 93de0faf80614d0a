import Formulary.Evaluation.Resolution
import Formulary.Proofs.Binding.Parts
import Formulary.Proofs.Binding.Tree

/-!
Composite nodes, all kinds alike. To evaluate one is to evaluate its children and to put the node
together from the results; to convert one is to replace its children, and so is to bind a name in
it.
-/

namespace Formulary

namespace Expr

/-- The expression with every child replaced. -/
def mapChildren (f : Expr → Expr) (e : Expr) : Expr := e.withChildren (e.children.map f)

section MapChildren

variable {f g : Expr → Expr} {e : Expr}

@[simp] theorem children_mapChildren : (e.mapChildren f).children = e.children.map f := by
  cases e <;> rfl

@[simp] theorem symbolName?_mapChildren : (e.mapChildren f).symbolName? = e.symbolName? := by
  cases e <;> rfl

theorem mapChildren_mapChildren :
    (e.mapChildren f).mapChildren g = e.mapChildren fun c => g (f c) := by
  cases e <;> simp [mapChildren, withChildren, children]

theorem mapChildren_congr (h : ∀ c ∈ e.children, f c = g c) :
    e.mapChildren f = e.mapChildren g := by
  rw [mapChildren, List.map_congr_left h, mapChildren]

theorem mapChildren_eq_self (h : ∀ c ∈ e.children, f c = c) : e.mapChildren f = e := by
  rw [mapChildren, List.map_congr_left h, List.map_id']
  cases e <;> rfl

end MapChildren

section Composite

variable {e : Expr} {a : Assembly} {env : Environment} {active : List String} {name : String}
  {value : Option Expr}

theorem evaluate_composite (hname : e.symbolName? = none) :
    e.evaluate a env active = a.node (e.mapChildren (evaluate a env active)) := by
  cases e with
  | symbol => cases hname
  | _ => rw [evaluate]; rfl

theorem rebind_composite (hname : e.symbolName? = none) :
    e.rebind name value = e.mapChildren (rebind name value) := by
  cases e with
  | symbol => cases hname
  | nary op es | call n es => rw [rebind, rebindList_eq_map]; rfl
  | _ => rfl

@[simp] theorem plain_node : Assembly.plain.node e = e := by
  cases e <;> rfl

/-- Conversion copies a node and puts the converted children into their places. -/
theorem converting_composite (hname : e.symbolName? = none) :
    e.evaluate .plain env active = e.mapChildren (evaluate .plain env active) := by
  rw [evaluate_composite hname, plain_node]

end Composite

/-- Induction along an evaluation: on the value of a symbol whose name is not being resolved,
wherever the value is from, and on the children of composite nodes. -/
@[elab_as_elim]
theorem inductOnEvaluation {motive : List String → Expr → Prop} (env : Environment)
    (resolving : ∀ active kind name bound, name ∈ active → motive active (.symbol kind name bound))
    (value : ∀ active kind name v, name ∉ active → motive (name :: active) v →
      motive active (.symbol kind name (some v)))
    (published : ∀ active kind name v, name ∉ active → env[name]? = some v →
      motive (name :: active) v → motive active (.symbol kind name none))
    (unpublished : ∀ active kind name, name ∉ active → env[name]? = none →
      motive active (.symbol kind name none))
    (composite : ∀ active e, e.symbolName? = none → (∀ c ∈ e.children, motive active c) →
      motive active e)
    (active : List String) (e : Expr) : motive active e := by
  induction hwork : env.work active e using Nat.strongRecOn generalizing active e with
  | ind work ih =>
    subst hwork
    cases hname : e.symbolName? with
    | none =>
      exact composite active e hname fun c hc =>
        ih _ (env.work_child_lt active (sizeOf_lt_of_mem_children hc)) active c rfl
    | some =>
      cases e with
      | symbol kind name bound =>
        by_cases hactive : name ∈ active
        · exact resolving active kind name bound hactive
        cases bound with
        | some v =>
          have hv := env.work_bound_lt name active (sizeOf_value_lt kind name v)
          exact value active kind name v hactive (ih _ hv (name :: active) v rfl)
        | none =>
          cases hvalue : env[name]? with
          | some v =>
            have hv := env.work_value_lt (.symbol kind name none) hactive hvalue
            exact published active kind name v hactive hvalue (ih _ hv (name :: active) v rfl)
          | none => exact unpublished active kind name hactive hvalue
      | _ => cases hname

end Expr

end Formulary
