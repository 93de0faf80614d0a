import Formulary.Proofs.Evaluation.Folding
import Formulary.Proofs.Grammar.Phrase

/-!
What the trees of phrases are made of: symbols without values, and nodes that merge nothing. The
written language has operations of two operands only, and no sums or products of lists.
-/

namespace Formulary

section Trees

variable {P : Expr → Prop} {p : Phrase} {ts : List Token} {e : Expr}

theorem Expr.Every.of_mem_arguments (h : e.Every P) : ∀ c ∈ e.arguments, c.Every P := by
  intro c hc
  unfold Expr.arguments at hc
  split at hc
  · exact ((Expr.every_composite rfl).mp h).2 c hc
  · cases List.mem_singleton.mp hc
    exact h

/-- What is true of unbound symbols and of all nodes that merge nothing is true of all parts of a
tree that was read. -/
theorem Derives.every (h : Derives p ts e) (hsymbol : ∀ kind name, P (.symbol kind name none))
    (hnode : ∀ e : Expr, e.symbolName? = none → e.merges = false → P e) : e.Every P := by
  have hcomposite {e : Expr} (hname : e.symbolName? = none) (hmerges : e.merges = false)
      (hchildren : ∀ c ∈ e.children, c.Every P) : e.Every P :=
    (Expr.every_composite hname).mpr ⟨hnode e hname hmerges, hchildren⟩
  have hnumber (x : Float) : (Expr.number x).Every P := Expr.every_number.mpr (hnode _ rfl rfl)
  induction h with
  | operation _ _ _ _ ihl ihr =>
    exact hcomposite rfl rfl (by simp [Expr.binaryOf, Expr.children, ihl, ihr])
  | pair _ _ _ ihl ihr => exact hcomposite rfl rfl (by simp [Expr.children, ihl, ihr])
  | more _ _ _ ihes ihr =>
    have hes := ((Expr.every_composite rfl).mp ihes).2
    refine hcomposite rfl rfl fun c hc => ?_
    rcases List.mem_append.mp hc with hc | hc
    · exact hes c hc
    · cases List.mem_singleton.mp hc
      exact ihr
  | elements _ ih | inner _ _ ih | unsigned _ ih => exact ih
  | sign _ _ _ ih => exact hcomposite rfl rfl (by simp [Expr.signed, Expr.children, ih, hnumber])
  | int _ => exact hnumber _
  | name _ => exact Expr.every_symbol.mpr ⟨hsymbol _ _, by simp⟩
  | paren _ _ _ ih | bracket _ _ _ ih => exact hcomposite rfl rfl (by simp [Expr.children, ih])
  | thunk _ _ _ => exact hcomposite rfl rfl (by simp [Expr.children])
  | call _ _ _ _ ih => exact hcomposite rfl rfl ih.of_mem_arguments

theorem isFree_of_every (h : e.Every fun p => p.isBound = false) : e.isFree = true := by
  induction e using Expr.inductOnParts with
  | symbol kind name bound ih =>
    have hbound : bound.isSome = false := (Expr.every_symbol.mp h).1
    simpa [Expr.isFree] using hbound
  | composite e hname ih =>
    rw [Expr.isFree_composite hname]
    exact fun c hc => ih c hc (((Expr.every_composite hname).mp h).2 c hc)

/-- No symbol has a value of its own in what is read. -/
theorem Derives.isFree (h : Derives p ts e) : e.isFree = true := by
  refine isFree_of_every (h.every (fun _ _ => rfl) fun e hname _ => ?_)
  cases e with
  | symbol => cases hname
  | _ => rfl

end Trees

end Formulary
