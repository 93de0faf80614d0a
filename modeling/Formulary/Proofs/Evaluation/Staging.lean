import Formulary.Proofs.Evaluation.Folding
import Formulary.Proofs.Evaluation.Reentry
import Formulary.Proofs.Grammar.Parsing
import Formulary.Proofs.Grammar.Trees

/-!
Evaluation in stages. What is left of an expression after a first evaluation evaluates to what the
expression itself does, if the second environment has the values of the first: after conversion
always, and after computation where no sum or product has merged numbers that later ones would come
between.
-/

namespace Formulary

namespace Expr

section Conversion

variable {env env' : Environment} {active : List String} {e : Expr}

/-- Conversion can come first: nothing is folded by it, and no symbol that it leaves has a value. -/
theorem Straight.evaluate_converted (h : e.Straight env active)
    (hnone : ∀ n : String, env[n]? = none → env'[n]? = none) (a : Assembly) :
    (e.evaluate .plain env active).evaluate a env' [] = e.evaluate a env active := by
  induction h with
  | value hname _ ih => rw [evaluate_value _ hname, evaluate_value _ hname, ih]
  | published hname hvalue _ ih =>
    rw [evaluate_published hname hvalue, evaluate_published hname hvalue, ih]
  | unpublished hname hnone' =>
    rw [evaluate_unpublished hname hnone', evaluate_unpublished hname hnone',
      evaluate_unpublished (by simp) (hnone _ hnone')]
  | composite hname _ ih =>
    rw [converting_composite hname, evaluate_composite (by simpa using hname),
      mapChildren_mapChildren, mapChildren_congr ih, evaluate_composite hname]

/-- Computing after conversion is computing, whether the environment is still there or not. Nothing
is left to convert a second time. -/
theorem compute_converting (h : ¬ e.Reenters env []) :
    (e.converting env).compute ∅ = e.compute env ∧
      (e.converting env).compute env = e.compute env ∧
      (e.converting env).converting env = e.converting env := by
  have hstraight := straight_of_not_reenters h
  have hself : ∀ n : String, env[n]? = none → env[n]? = none := fun _ hn => hn
  exact ⟨hstraight.evaluate_converted (by simp) .folding,
    hstraight.evaluate_converted hself .folding, hstraight.evaluate_converted hself .plain⟩

/-- `X` and `Y` have values of their own, in which `a` and `b` stand, and `b` stands in the value
that is published for `a`. -/
theorem compute_converting_nested :
    let env := ((∅ : Environment).insert "a" (.named "b")).insert "b" (.number 2)
    let e := Expr.symbol .unknown "X"
      (some (.binaryOf .addition (.symbol .unknown "Y" (some (.named "a"))) (.named "b")))
    ¬ e.Reenters env [] ∧ (e.converting env).compute ∅ = e.compute env ∧
      (e.converting env).compute env = e.compute env ∧
      (e.converting env).converting env = e.converting env := by
  intro env e
  have hb : env["b"]? = some (.number 2) := Std.ExtTreeMap.getElem?_insert_self
  have ha : env["a"]? = some (.named "b") := by
    rw [Std.ExtTreeMap.getElem?_insert, if_neg (by decide), Std.ExtTreeMap.getElem?_insert_self]
  have hY : (Expr.symbol .unknown "Y" (some (.named "a"))).Straight env ["X"] :=
    .value (by decide) (.published (by decide) ha (.published (by decide) hb (straight_number 2)))
  have hstraight : e.Straight env [] :=
    .value (by simp) (straight_binary hY (.published (by decide) hb (straight_number 2)))
  exact ⟨hstraight.not_reenters, compute_converting hstraight.not_reenters⟩

end Conversion

/-- Whether an expression has no sum and no product of a list in it. -/
def MergeFree (e : Expr) : Prop := e.Every fun p => p.merges = false

instance (e : Expr) : Decidable e.MergeFree :=
  inferInstanceAs (Decidable (e.Every fun p => p.merges = false))

section Stages

variable {env env' : Environment} {active : List String} {e : Expr}

theorem merges_mapChildren (f : Expr → Expr) : (e.mapChildren f).merges = e.merges := by
  cases e with
  | nary op es => cases op <;> rfl
  | _ => rfl

/-- A folded node that merges nothing evaluates to what the node does: either it is still there, or
all its children are numbers, which evaluate to themselves. -/
theorem evaluate_folding_node (hname : e.symbolName? = none) (hmerges : e.merges = false) :
    (Assembly.folding.node e).evaluate .folding env active =
      Assembly.folding.node (e.mapChildren (evaluate .folding env active)) := by
  rcases folding_node_cases hmerges with hself | ⟨⟨x, hx⟩, hnumbers⟩
  · rw [hself, evaluate_composite hname]
  · rw [hx, evaluate, mapChildren_eq_self, hx]
    intro c hc
    obtain ⟨y, rfl⟩ := hnumbers c hc
    rw [evaluate]

/-- Evaluation goes on where an evaluation with fewer values has stopped. -/
theorem Straight.evaluate_evaluate (h : e.Straight env' active) (he : e.MergeFree)
    (hle : ∀ (n : String) (v : Expr), env[n]? = some v → env'[n]? = some v)
    (hvalues : ∀ (n : String) (v : Expr), env'[n]? = some v → v.MergeFree) :
    (e.evaluate .folding env active).evaluate .folding env' [] =
      e.evaluate .folding env' active := by
  induction h with
  | value hname _ ih =>
    rw [evaluate_value _ hname, evaluate_value _ hname]
    exact ih ((every_symbol.mp he).2 _ rfl)
  | @published active kind name v hname hvalue hv ih =>
    rw [evaluate_published hname hvalue]
    cases hfirst : env[name]? with
    | some w =>
      cases hvalue.symm.trans (hle name w hfirst)
      rw [evaluate_published hname hfirst]
      exact ih (hvalues name v hvalue)
    | none =>
      -- The symbol is left over, and stands alone when its value is found.
      rw [evaluate_unpublished hname hfirst, evaluate_published (by simp) hvalue]
      exact hv.evaluate_subset (by simp) .folding
  | @unpublished active kind name hname hnone =>
    have hfirst : env[name]? = none := by
      cases hfirst : env[name]? with
      | none => rfl
      | some w => cases hnone.symm.trans (hle name w hfirst)
    rw [evaluate_unpublished hname hfirst, evaluate_unpublished hname hnone,
      evaluate_unpublished (by simp) hnone]
  | composite hname _ ih =>
    obtain ⟨hmerges, hchildren⟩ := (every_composite hname).mp he
    rw [evaluate_composite hname,
      evaluate_folding_node (by simpa using hname) (by rw [merges_mapChildren, hmerges]),
      mapChildren_mapChildren, mapChildren_congr fun c hc => ih c hc (hchildren c hc),
      evaluate_composite hname]

end Stages

end Expr

section Parsed

variable {p : Phrase} {ts : List Token} {e : Expr}

/-- The written language has operations of two operands only, and no sums or products of lists. -/
theorem Derives.mergeFree (h : Derives p ts e) : e.MergeFree :=
  h.every (fun _ _ => rfl) fun _ _ hmerges => hmerges

/-- What computes with some values and then with all of them computes with all of them at once. -/
theorem compute_compute {env env' : Environment} (he : e.MergeFree ∨ ∃ source, parse source = .ok e)
    (hle : ∀ (n : String) (v : Expr), env[n]? = some v → env'[n]? = some v)
    (hvalues : ∀ (n : String) (v : Expr), env'[n]? = some v → v.MergeFree)
    (h : ¬ e.Reenters env' []) : (e.compute env).compute env' = e.compute env' := by
  have hfree : e.MergeFree := by
    rcases he with he | ⟨source, hparse⟩
    · exact he
    · exact ((parse_iff_derives source e).mp hparse).mergeFree
  exact (Expr.straight_of_not_reenters h).evaluate_evaluate hfree hle hvalues

/-- The value of `a` is put in first and that of `b` in it later; `y` stays. -/
theorem compute_compute_nested :
    let env := (∅ : Environment).insert "a" (.binaryOf .addition (.named "b") (.number 1))
    let env' := env.insert "b" (.number 2)
    let e := Expr.binaryOf .addition
      (.symbol .unknown "X" (some (.binaryOf .multiplication (.named "a") (.named "y"))))
      (.call "max" [.named "b", .number 3])
    ¬ e.Reenters env' [] ∧ (e.compute env).compute env' = e.compute env' := by
  intro env env' e
  have hb : env'["b"]? = some (.number 2) := Std.ExtTreeMap.getElem?_insert_self
  have ha : env'["a"]? = some (.binaryOf .addition (.named "b") (.number 1)) := by
    rw [Std.ExtTreeMap.getElem?_insert, if_neg (by decide), Std.ExtTreeMap.getElem?_insert_self]
  have hy : env'["y"]? = none := by
    rw [Std.ExtTreeMap.getElem?_insert, if_neg (by decide), Std.ExtTreeMap.getElem?_insert,
      if_neg (by decide), Std.ExtTreeMap.getElem?_empty]
  have hsum : (Expr.binaryOf .addition (.named "b") (.number 1)).Straight env' ["a", "X"] :=
    Expr.straight_binary (.published (by decide) hb (Expr.straight_number 2))
      (Expr.straight_number 1)
  have hcall : (Expr.call "max" [.named "b", .number 3]).Straight env' [] := by
    refine .composite rfl (List.forall_mem_cons.mpr
      ⟨.published (by decide) hb (Expr.straight_number 2), ?_⟩)
    exact List.forall_mem_singleton.mpr (Expr.straight_number 3)
  have hstraight : e.Straight env' [] :=
    Expr.straight_binary (.value (by simp) (Expr.straight_binary (.published (by decide) ha hsum)
      (.unpublished (by decide) hy))) hcall
  have hle : ∀ (n : String) (v : Expr), env[n]? = some v → env'[n]? = some v := by
    intro n v hv
    rw [Std.ExtTreeMap.getElem?_insert] at hv ⊢
    split at hv
    · rename_i hn
      cases compare_eq_iff_eq.mp hn
      exact hv
    · simp at hv
  have hvalues : ∀ (n : String) (v : Expr), env'[n]? = some v → v.MergeFree := by
    intro n v hv
    rw [Std.ExtTreeMap.getElem?_insert, Std.ExtTreeMap.getElem?_insert] at hv
    split at hv
    · cases hv
      decide
    · split at hv
      · cases hv
        decide
      · simp at hv
  have h := hstraight.not_reenters
  exact ⟨h, compute_compute (.inl (by decide)) hle hvalues h⟩

end Parsed

end Formulary
