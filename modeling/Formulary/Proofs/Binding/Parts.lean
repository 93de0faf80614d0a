import Formulary.Expr.Walk
import Formulary.Proofs.Binding.Scope

/-!
Properties of all parts of an expression, wherever they stand: those inside the values of symbols
count as well.
-/

namespace Formulary.Expr

/-- Induction on expressions where all nodes but symbols are alike. -/
@[elab_as_elim]
theorem inductOnParts {motive : Expr → Prop}
    (symbol : ∀ kind name bound, (∀ v ∈ bound, motive v) → motive (.symbol kind name bound))
    (composite : ∀ e, e.symbolName? = none → (∀ c ∈ e.children, motive c) → motive e) (e : Expr) :
    motive e := by
  induction e with
  | symbol kind name bound ih => exact symbol kind name bound ih
  | number x => exact composite _ rfl (by simp [children])
  | term c a x ihc iha ihx => exact composite _ rfl (by simp [children, ihc, iha, ihx])
  | unary op e ih => exact composite _ rfl (by simp [children, ih])
  | binary op l r ihl ihr => exact composite _ rfl (by simp [children, ihl, ihr])
  | nary op es ih | call name es ih => exact composite _ rfl ih

/-- Whether an expression and all its parts have a property. -/
def Every (P : Expr → Prop) (e : Expr) : Prop := ∀ o ∈ e.occurrences [], P o.2

instance (P : Expr → Prop) [DecidablePred P] (e : Expr) : Decidable (e.Every P) :=
  inferInstanceAs (Decidable (∀ o ∈ e.occurrences [], P o.2))

section Every

variable {P Q : Expr → Prop} {e c : Expr} {kind : SymbolKind} {name : String} {bound : Option Expr}

theorem every_iff_occurs : e.Every P ↔ ∀ inner scope p, Occurs inner p scope e → P p := by
  constructor
  · intro h inner scope p hp
    obtain ⟨names, -, hshift⟩ := hp.shift
    exact h _ (mem_occurrences_iff.mpr (hshift []))
  · intro h o ho
    exact h o.1 [] o.2 (mem_occurrences_iff.mp ho)

theorem Every.imp (h : e.Every P) (hPQ : ∀ p, P p → Q p) : e.Every Q :=
  fun o ho => hPQ o.2 (h o ho)

theorem every_symbol :
    (Expr.symbol kind name bound).Every P ↔
      P (.symbol kind name bound) ∧ ∀ v ∈ bound, v.Every P := by
  simp only [every_iff_occurs]
  constructor
  · intro h
    refine ⟨h [] [] _ .here, ?_⟩
    rintro v rfl inner scope p hp
    obtain ⟨names, -, hshift⟩ := hp.shift
    exact h _ [] p (.value (hshift [name]))
  · rintro ⟨hself, hvalue⟩ inner scope p hp
    cases hp with
    | here => exact hself
    | child hc => cases hc
    | value hp => exact hvalue _ rfl inner _ p hp

theorem every_composite (hname : e.symbolName? = none) :
    e.Every P ↔ P e ∧ ∀ c ∈ e.children, c.Every P := by
  simp only [every_iff_occurs]
  constructor
  · intro h
    exact ⟨h [] [] e .here, fun c hc inner scope p hp => h inner scope p (.child hc hp)⟩
  · rintro ⟨hself, hchildren⟩ inner scope p hp
    cases hp with
    | here => exact hself
    | child hc hp => exact hchildren _ hc inner scope p hp
    | value => cases hname

theorem every_number {x : Float} : (Expr.number x).Every P ↔ P (.number x) := by
  rw [every_composite rfl]
  simp [children]

theorem mentionsList_eq_any (es : List Expr) : mentionsList name es = es.any (mentions name) := by
  induction es with
  | nil => rfl
  | cons e es ih => rw [mentionsList, ih, List.any_cons]

theorem mentions_composite (hname : e.symbolName? = none) :
    e.mentions name = e.children.any (mentions name) := by
  cases e with
  | symbol => cases hname
  | nary op es | call n es => exact mentionsList_eq_any es
  | _ => simp [mentions, children, Bool.or_assoc]

theorem isFree_composite (hname : e.symbolName? = none) :
    e.isFree = true ↔ ∀ c ∈ e.children, c.isFree = true := by
  cases e with
  | symbol => cases hname
  | _ => simp [isFree, children, and_assoc]

/-- An expression does not mention a name if none of its symbols has it. -/
theorem mentions_eq_false_iff :
    e.mentions name = false ↔ e.Every fun p => p.symbolName? ≠ some name := by
  induction e using inductOnParts with
  | symbol kind n bound ih =>
    rw [every_symbol]
    cases bound with
    | none => simp [mentions, mentionsBound, symbolName?]
    | some v => simp [mentions, mentionsBound, symbolName?, ih v rfl]
  | composite e hname ih =>
    rw [mentions_composite hname, every_composite hname, hname, List.any_eq_false]
    simp only [ne_eq, reduceCtorEq, not_false_eq_true, true_and, Bool.not_eq_true]
    exact forall₂_congr ih

end Every

end Formulary.Expr
