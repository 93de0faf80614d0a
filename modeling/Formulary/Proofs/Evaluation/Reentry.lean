import Formulary.Proofs.Evaluation.Composite

/-!
Evaluation without re-entry: no symbol that it comes to has a name that is being resolved. What a
part evaluates to is then the same whatever else is being resolved, and the symbols that are left
are those that have no value at all.
-/

namespace Formulary

namespace Expr

/-- Whether evaluation of an expression, while the names in `active` are being resolved, comes to a
symbol of such a name. -/
inductive Reenters (env : Environment) : List String → Expr → Prop
  | here {active : List String} {kind : SymbolKind} {name : String} {bound : Option Expr}
      (h : name ∈ active) : Reenters env active (.symbol kind name bound)
  | value {active : List String} {kind : SymbolKind} {name : String} {v : Expr}
      (h : Reenters env (name :: active) v) : Reenters env active (.symbol kind name (some v))
  | published {active : List String} {kind : SymbolKind} {name : String} {v : Expr}
      (hvalue : env[name]? = some v) (h : Reenters env (name :: active) v) :
      Reenters env active (.symbol kind name none)
  | child {active : List String} {e c : Expr} (hc : c ∈ e.children) (h : Reenters env active c) :
      Reenters env active e

/-- The course of an evaluation that re-enters no name, step by step. -/
inductive Straight (env : Environment) : List String → Expr → Prop
  | value {active : List String} {kind : SymbolKind} {name : String} {v : Expr}
      (hname : name ∉ active) (h : Straight env (name :: active) v) :
      Straight env active (.symbol kind name (some v))
  | published {active : List String} {kind : SymbolKind} {name : String} {v : Expr}
      (hname : name ∉ active) (hvalue : env[name]? = some v)
      (h : Straight env (name :: active) v) : Straight env active (.symbol kind name none)
  | unpublished {active : List String} {kind : SymbolKind} {name : String}
      (hname : name ∉ active) (hnone : env[name]? = none) :
      Straight env active (.symbol kind name none)
  | composite {active : List String} {e : Expr} (hname : e.symbolName? = none)
      (h : ∀ c ∈ e.children, Straight env active c) : Straight env active e

section Straight

variable {env : Environment} {active active' : List String} {e : Expr} {a : Assembly}

theorem Straight.not_reenters (h : e.Straight env active) : ¬ e.Reenters env active := by
  induction h with
  | value hname _ ih =>
    rintro (hmem | hv | _ | ⟨hc, _⟩)
    · exact hname hmem
    · exact ih hv
    · cases hc
  | published hname hvalue _ ih =>
    intro hr
    cases hr with
    | here hmem => exact hname hmem
    | published hvalue' hv =>
      cases hvalue.symm.trans hvalue'
      exact ih hv
    | child hc => cases hc
  | unpublished hname hnone =>
    intro hr
    cases hr with
    | here hmem => exact hname hmem
    | published hvalue => cases hnone.symm.trans hvalue
    | child hc => cases hc
  | composite hname _ ih =>
    intro hr
    cases hr with
    | child hc hr => exact ih _ hc hr
    | _ => cases hname

/-- Evaluation ends, so it has a course if it re-enters no name. -/
theorem straight_of_not_reenters (h : ¬ e.Reenters env active) : e.Straight env active := by
  induction active, e using inductOnEvaluation env with
  | resolving active kind name bound hactive => exact absurd (.here hactive) h
  | value active kind name v hactive ih => exact .value hactive (ih fun hr => h (.value hr))
  | published active kind name v hactive hvalue ih =>
    exact .published hactive hvalue (ih fun hr => h (.published hvalue hr))
  | unpublished active kind name hactive hnone => exact .unpublished hactive hnone
  | composite active e hname ih =>
    exact .composite hname fun c hc => ih c hc fun hr => h (.child hc hr)

theorem Straight.child {c : Expr} (h : e.Straight env active) (hc : c ∈ e.children) :
    c.Straight env active := by
  cases h with
  | composite _ h => exact h c hc
  | _ => cases hc

theorem straight_number (x : Float) : (Expr.number x).Straight env active := .composite rfl nofun

theorem straight_binary {op : BinaryOp} {l r : Expr} (hl : l.Straight env active)
    (hr : r.Straight env active) : (Expr.binary op l r).Straight env active :=
  .composite rfl (List.forall_mem_cons.mpr ⟨hl, List.forall_mem_singleton.mpr hr⟩)

/-- Without re-entry it does not matter which names are being resolved. -/
theorem Straight.evaluate_subset (h : e.Straight env active) (hsub : active' ⊆ active)
    (a : Assembly) : e.evaluate a env active' = e.evaluate a env active := by
  induction h generalizing active' with
  | value hname _ ih =>
    rw [evaluate_value _ hname, evaluate_value _ fun h => hname (hsub h)]
    exact ih (List.cons_subset_cons _ hsub)
  | published hname hvalue _ ih =>
    rw [evaluate_published hname hvalue, evaluate_published (fun h => hname (hsub h)) hvalue]
    exact ih (List.cons_subset_cons _ hsub)
  | unpublished hname hnone =>
    rw [evaluate_unpublished hname hnone, evaluate_unpublished (fun h => hname (hsub h)) hnone]
  | composite hname _ ih =>
    rw [evaluate_composite hname, evaluate_composite hname,
      mapChildren_congr fun c hc => ih c hc hsub]

/-- What is true of all that evaluation leaves: it is to hold of the symbols that are left, which
have no value and are not being resolved, and of what nodes are put together to. -/
theorem Straight.every_evaluate {P : Expr → Prop} (h : e.Straight env active)
    (hsymbol : ∀ kind name, name ∉ active → env[name]? = none → P (.symbol kind name none))
    (hnode : ∀ e : Expr, e.symbolName? = none → (∀ c ∈ e.children, c.Every P) →
      (a.node e).Every P) : (e.evaluate a env active).Every P := by
  induction h with
  | value hname _ ih =>
    rw [evaluate_value _ hname]
    exact ih fun kind n hn => hsymbol kind n fun h => hn (List.mem_cons_of_mem _ h)
  | published hname hvalue _ ih =>
    rw [evaluate_published hname hvalue]
    exact ih fun kind n hn => hsymbol kind n fun h => hn (List.mem_cons_of_mem _ h)
  | unpublished hname hnone =>
    rw [evaluate_unpublished hname hnone, every_symbol]
    exact ⟨hsymbol _ _ hname hnone, by simp⟩
  | composite hname _ ih =>
    rw [evaluate_composite hname]
    refine hnode _ (by simpa using hname) ?_
    simp only [children_mapChildren, List.mem_map]
    rintro _ ⟨c, hc, rfl⟩
    exact ih c hc hsymbol

end Straight

end Expr

end Formulary
