import Formulary.Proofs.Evaluation.Folding
import Formulary.Proofs.Evaluation.Reentry

/-!
Normal forms. What an expression computes to has nothing left to do at any of its nodes, and an
expression that has nothing left to do computes to itself.
-/

namespace Formulary

namespace Expr

section Reduced

variable {env : Environment} {active : List String} {e c : Expr} {es : List Expr}

/-- Folding leaves a node as it is exactly if nothing is left to do at it. -/
theorem folding_node_eq_self_iff (hname : e.symbolName? = none) :
    Assembly.folding.node e = e ↔ e.Reduced env := by
  cases e with
  | number x => exact iff_of_true rfl trivial
  | symbol => cases hname
  | term c a x =>
    change Fold.term c a x = _ ↔ c.number? = none ∨ a.number? = none ∨ x.number? = none
    unfold Fold.term
    split
    · simp [number?]
    · rename_i hne
      refine iff_of_true rfl ?_
      cases hc : c.number? <;> cases ha : a.number? <;> cases hx : x.number? <;> try simp
      rw [number?_eq_some_iff] at hc ha hx
      exact hne _ _ _ hc ha hx
  | unary op e =>
    change Fold.unary op e = _ ↔ e.number? = none
    cases e <;> simp [Fold.unary, number?]
  | binary op l r =>
    change Fold.binary op l r = _ ↔ op.kind = .equality ∨ l.number? = none ∨ r.number? = none
    unfold Fold.binary
    split
    · rename_i x y
      cases hkind : op.kind <;> simp [BinaryKind.evaluate?, number?]
    · rename_i hne
      refine iff_of_true rfl (.inr ?_)
      cases hl : l.number? <;> cases hr : r.number? <;> try simp
      rw [number?_eq_some_iff] at hl hr
      exact hne _ _ hl hr
  | nary op es =>
    cases op with
    | sum =>
      have hop : NaryOp.sum.merging? = some (0, (· + ·)) := rfl
      exact nary_eq_self_iff hop rfl (fun _ => zero_add_of_ne) es
    | product =>
      have hop : NaryOp.product.merging? = some (1, (· * ·)) := rfl
      exact nary_eq_self_iff hop rfl (fun x _ => one_mul_self x) es
    | sequence => exact iff_of_true rfl trivial
  | call name args => exact call_eq_self_iff name args

/-- What a node is folded to: nothing is left to do at it, and its children are children of the node
or numbers. -/
theorem folding_node_outcome (hname : e.symbolName? = none) :
    (Assembly.folding.node e).symbolName? = none ∧ (Assembly.folding.node e).Reduced env ∧
      ∀ c ∈ (Assembly.folding.node e).children, c ∈ e.children ∨ ∃ x, c = .number x := by
  have hnumber (x : Float) : (Expr.number x).symbolName? = none ∧ (Expr.number x).Reduced env ∧
      ∀ c ∈ (Expr.number x).children, c ∈ e.children ∨ ∃ x, c = .number x :=
    ⟨rfl, trivial, by simp [children]⟩
  cases hmerges : e.merges with
  | false =>
    rcases folding_node_cases hmerges with hself | ⟨⟨x, hx⟩, -⟩
    · rw [hself]
      exact ⟨hname, (folding_node_eq_self_iff hname).mp hself, fun c hc => .inl hc⟩
    · rw [hx]
      exact hnumber x
  | true =>
    cases e with
    | nary op es =>
      have hcases : (∃ x, Fold.nary op es = .number x) ∨
          ∃ es', Fold.nary op es = .nary op es' ∧ (Expr.nary op es').Reduced env ∧
            ∀ c ∈ es', c ∈ es ∨ ∃ x, c = .number x := by
        cases op with
        | sum | product => exact nary_cases rfl es
        | sequence => cases hmerges
      change (Fold.nary op es).symbolName? = none ∧ (Fold.nary op es).Reduced env ∧
        ∀ c ∈ (Fold.nary op es).children, c ∈ es ∨ ∃ x, c = .number x
      rcases hcases with ⟨x, hx⟩ | ⟨es', hes', hreduced, hmem⟩
      · rw [hx]
        exact hnumber x
      · rw [hes']
        exact ⟨rfl, hreduced, hmem⟩
    | _ => cases hmerges

theorem every_reduced_folding_node (hname : e.symbolName? = none)
    (hchildren : ∀ c ∈ e.children, c.Every (Reduced env)) :
    (Assembly.folding.node e).Every (Reduced env) := by
  obtain ⟨hname, hreduced, hmem⟩ := @folding_node_outcome env e hname
  rw [every_composite hname]
  refine ⟨hreduced, fun c hc => ?_⟩
  rcases hmem c hc with hc | ⟨x, rfl⟩
  · exact hchildren c hc
  · rw [every_number]
    trivial

theorem evaluate_of_reduced (h : e.Every (Reduced env)) :
    e.evaluate .folding env active = e := by
  induction e using inductOnParts generalizing active with
  | symbol kind name bound ih =>
    obtain ⟨⟨rfl, hnone⟩, -⟩ := every_symbol.mp h
    by_cases hname : name ∈ active
    · exact evaluate_active none hname
    · exact evaluate_unpublished hname hnone
  | composite e hname ih =>
    rw [every_composite hname] at h
    rw [evaluate_composite hname, mapChildren_eq_self fun c hc => ih c hc (h.2 c hc)]
    exact (folding_node_eq_self_iff hname).mpr h.1

theorem compute_normal (h : ¬ e.Reenters env []) :
    (e.compute env).Every (Reduced env) ∧ (e.compute env).compute env = e.compute env := by
  have hreduced : (e.compute env).Every (Reduced env) :=
    (straight_of_not_reenters h).every_evaluate (fun _ _ _ hnone => ⟨rfl, hnone⟩)
      fun _ => every_reduced_folding_node
  exact ⟨hreduced, evaluate_of_reduced hreduced⟩

/-- Three numbers of the sum become one, after a product that was published. -/
theorem compute_normal_sum :
    let product := Expr.nary .product [.number 2, .named "y"]
    let env := (∅ : Environment).insert "a" product
    let e := Expr.nary .sum [.number 1, .named "a", .unary .paren (.number 4),
      .symbol .unknown "X" (some (.call "max" [.number 2, .number 3]))]
    let r := Expr.nary .sum [product, .number 8]
    ¬ e.Reenters env [] ∧ e.compute env = r ∧ r.Every (Reduced env) ∧ r.compute env = r := by
  intro product env e r
  have ha : env["a"]? = some product := Std.ExtTreeMap.getElem?_insert_self
  have hy : env["y"]? = none := by
    rw [Std.ExtTreeMap.getElem?_insert, if_neg (by decide), Std.ExtTreeMap.getElem?_empty]
  have hproduct : product.Straight env ["a"] := by
    refine .composite rfl (List.forall_mem_cons.mpr ⟨straight_number 2, ?_⟩)
    exact List.forall_mem_singleton.mpr (.unpublished (by decide) hy)
  have hcall : (Expr.call "max" [.number 2, .number 3]).Straight env ["X"] := by
    refine .composite rfl (List.forall_mem_cons.mpr ⟨straight_number 2, ?_⟩)
    exact List.forall_mem_singleton.mpr (straight_number 3)
  have hstraight : e.Straight env [] := by
    refine .composite rfl ?_
    simp only [e, children, List.forall_mem_cons]
    exact ⟨straight_number 1, .published (by simp) ha hproduct,
      .composite rfl (List.forall_mem_singleton.mpr (straight_number 4)),
      .value (by simp) hcall, List.forall_mem_nil _⟩
  have hr : e.compute env = r := by decide +kernel
  have hnormal := compute_normal hstraight.not_reenters
  rw [hr] at hnormal
  exact ⟨hstraight.not_reenters, hr, hnormal⟩

end Reduced

end Expr

end Formulary
