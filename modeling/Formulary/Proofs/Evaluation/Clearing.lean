import Formulary.Proofs.Evaluation.Reentry

/-!
Binding a name and then converting removes it. Every symbol of the name has a value by then, in the
tree or in the table, and no value has the name in it if the name is not re-entered.
-/

namespace Formulary

namespace Expr

/-- What conversion may leave of a symbol: it has no value, and its name was not being resolved. -/
def Leftover (env : Environment) (active : List String) : Expr → Prop
  | .symbol _ name bound => bound = none ∧ env[name]? = none ∧ name ∉ active
  | _ => True

section Clearing

variable {env : Environment} {active : List String} {e : Expr} {name : String} {value : Expr}

theorem leftover_of_symbolName? (h : e.symbolName? = none) : e.Leftover env active := by
  cases e with
  | symbol => cases h
  | _ => trivial

theorem Straight.leftover (h : e.Straight env active) :
    (e.evaluate .plain env active).Every (Leftover env active) := by
  refine h.every_evaluate (fun _ _ hactive hnone => ⟨rfl, hnone, hactive⟩) ?_
  intro e hname hchildren
  rw [plain_node, every_composite hname]
  exact ⟨leftover_of_symbolName? hname, hchildren⟩

/-- Where nothing is published, a name that is bound is not left: it stands in its own value only,
where it would be re-entered. -/
theorem Straight.cleared_of_empty (hempty : ∀ n : String, env[n]? = none)
    (h : (e.rebind name (some value)).Straight env active) :
    ((e.rebind name (some value)).evaluate .plain env active).Every
      fun p => p.symbolName? ≠ some name := by
  induction e using inductOnParts generalizing active with
  | symbol kind n bound ih =>
    rw [rebind] at h ⊢
    split at h
    · rename_i heq
      subst heq
      rw [if_pos rfl]
      cases h with
      | value hname hv =>
        rw [evaluate_value _ hname]
        refine hv.leftover.imp fun p hp hn => ?_
        cases p with
        | symbol =>
          cases hn
          exact hp.2.2 (List.mem_cons_self ..)
        | _ => cases hn
      | composite hname => cases hname
    · rename_i hne
      rw [if_neg hne]
      cases bound with
      | none =>
        cases h with
        | published _ hvalue => cases (hempty n).symm.trans hvalue
        | unpublished hname hnone =>
          rw [rebindBound, evaluate_unpublished hname hnone, every_symbol]
          exact ⟨by simpa [symbolName?] using hne, by simp⟩
        | composite hname => cases hname
      | some w =>
        cases h with
        | value hname hw =>
          rw [rebindBound, evaluate_value _ hname]
          exact ih w rfl hw
        | composite hname => cases hname
  | composite e hname ih =>
    rw [rebind_composite hname] at h ⊢
    rw [converting_composite (by simpa using hname), mapChildren_mapChildren,
      every_composite (by simpa using hname)]
    refine ⟨by simp [hname], ?_⟩
    simp only [children_mapChildren, List.mem_map]
    rintro _ ⟨c, hc, rfl⟩
    exact ih c hc (h.child (by simpa using ⟨c, hc, rfl⟩))

/-- What is left after a name is bound and the expression converted: no symbol of the name, and no
symbol that has a value. -/
theorem cleared (htable : env[name]? = none → ∀ n : String, env[n]? = none)
    (h : ¬ (e.rebind name (some value)).Reenters env []) :
    ((e.rebind name (some value)).converting env).mentions name = false ∧
      ∀ u ∈ ((e.rebind name (some value)).converting env).uses,
        u.bound = none ∧ env[u.name]? = none := by
  have hstraight := straight_of_not_reenters h
  have hleft := hstraight.leftover
  constructor
  · rw [mentions_eq_false_iff]
    cases hname : env[name]? with
    | none => exact hstraight.cleared_of_empty (htable hname)
    | some v =>
      refine hleft.imp fun p hp hn => ?_
      cases p with
      | symbol =>
        cases hn
        cases hname.symm.trans hp.2.1
      | _ => cases hn
  · intro u hu
    obtain ⟨scope, -, hoccurs⟩ := exists_occurs_of_mem_uses hu
    obtain ⟨hbound, hnone, -⟩ := every_iff_occurs.mp hleft _ _ _ hoccurs
    exact ⟨hbound, hnone⟩

theorem converting_assign (name : String) (value e : Expr) :
    (∀ (env : Environment) (e' : Expr) (env' : Environment),
      e.assign name (some value) env = (e', env') → ¬ e'.Reenters env' [] →
        (e'.converting env').mentions name = false ∧
          ∀ u ∈ (e'.converting env').uses, u.bound = none ∧ env'[u.name]? = none) ∧
    ∀ (e' : Expr) (t : Unit),
      e.assign name (some value) () = (e', t) → ¬ e'.Reenters (SymbolTable.published t) [] →
        (e'.converting (SymbolTable.published t)).mentions name = false ∧
          ∀ u ∈ (e'.converting (SymbolTable.published t)).uses,
            u.bound = none ∧ (SymbolTable.published t)[u.name]? = none := by
  constructor
  · rintro env e' env' hrun h
    cases hrun
    refine cleared (fun hnone => ?_) h
    change (env.insert name value)[name]? = none at hnone
    simp at hnone
  · rintro e' t hrun h
    cases hrun
    exact cleared (fun _ n => Std.ExtTreeMap.getElem?_empty) h

/-- `n` stands inside the value of `X` as well. The table turns its value into a number, and without
one the `m` in it stays. -/
theorem converting_assign_nested :
    let e := Expr.binaryOf .addition (.symbol .unknown "X" (some (.named "n"))) (.named "n")
    let times (x : Expr) := Expr.binaryOf .multiplication x (.number 2)
    let step := e.assign "n" (some (times (.named "m"))) ((∅ : Environment).insert "m" (.number 3))
    let alone := e.assign "n" (some (times (.named "m"))) ()
    let r := Expr.binaryOf .addition (times (.number 3)) (times (.number 3))
    let r' := Expr.binaryOf .addition (times (.named "m")) (times (.named "m"))
    (¬ step.1.Reenters step.2 [] ∧ step.1.converting step.2 = r ∧ r.mentions "n" = false ∧
        ∀ u ∈ r.uses, u.bound = none ∧ step.2[u.name]? = none) ∧
      ¬ alone.1.Reenters ∅ [] ∧ alone.1.converting ∅ = r' ∧ r'.mentions "n" = false ∧
        ∀ u ∈ r'.uses, u.bound = none ∧ (∅ : Environment)[u.name]? = none := by
  intro e times step alone r r'
  have hbound {env : Environment} (hm : (Expr.named "m").Straight env ["n"])
      (hm' : (Expr.named "m").Straight env ["n", "X"]) : step.1.Straight env [] := by
    have hvalue {active : List String} (hm : (Expr.named "m").Straight env active) :
        (times (.named "m")).Straight env active := straight_binary hm (straight_number 2)
    exact straight_binary (.value (by simp) (.value (by decide) (hvalue hm')))
      (.value (by simp) (hvalue hm))
  have hm : step.2["m"]? = some (.number 3) :=
    (getElem?_update_of_ne (by decide)).trans Std.ExtTreeMap.getElem?_insert_self
  have hstep := (hbound (.published (by decide) hm (straight_number 3))
    (.published (by decide) hm (straight_number 3))).not_reenters
  have halone := (hbound (.unpublished (by decide) Std.ExtTreeMap.getElem?_empty)
    (.unpublished (by decide) Std.ExtTreeMap.getElem?_empty)).not_reenters
  obtain ⟨hwith, hwithout⟩ := converting_assign "n" (times (.named "m")) e
  have hr : step.1.converting step.2 = r := by decide +kernel
  have hr' : alone.1.converting ∅ = r' := by decide +kernel
  have hleft : (step.1.converting step.2).mentions "n" = false ∧
      ∀ u ∈ (step.1.converting step.2).uses, u.bound = none ∧ step.2[u.name]? = none :=
    hwith _ _ _ rfl hstep
  have hleft' : (alone.1.converting ∅).mentions "n" = false ∧
      ∀ u ∈ (alone.1.converting ∅).uses, u.bound = none ∧ (∅ : Environment)[u.name]? = none :=
    hwithout _ _ rfl halone
  rw [hr] at hleft
  rw [hr'] at hleft'
  exact ⟨⟨hstep, hr, hleft⟩, halone, hr', hleft'⟩

end Clearing

end Expr

end Formulary
