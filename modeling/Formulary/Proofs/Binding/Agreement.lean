import Formulary.Expr.Equality
import Formulary.Proofs.Zone.Evaluation
import Formulary.Zone.Formula

/-!
Runs of bindings and unbindings. A formula keeps a sound zone throughout, whether its steps succeed
or not, so that it agrees with the expression that it was made from under the table that the run has
left; and so does a tree that was bound in place.
-/

namespace Formulary

section Formula

variable {hasher : Hasher} {f : Formula} {env : Environment} {e : Expr}
  {steps : List (String × Option Expr)}

/-- Binds and unbinds names, one after the other. A step that fails is passed over. -/
def Formula.assignAll {τ : Type} [SymbolTable τ] (steps : List (String × Option Expr)) (f : Formula)
    (table : τ) : Formula × τ :=
  steps.foldl (fun s step => (s.1.assign step.1 step.2 s.2).2) (f, table)

theorem regular_empty (hasher : Hasher) : (Zone.empty hasher).Regular := by
  constructor <;> intro id _ h <;> simp [Zone.empty, Zone.record?, Zone.node?] at h

/-- A new formula has no values, so its zone is sound whatever has been published. -/
theorem sound_of_insert (he : e.isFree = true)
    (h : (Zone.insert e).run (.empty hasher) = .ok f.root f.zone) :
    f.zone.Sound env ∧ f.zone.Spells f.root e := by
  have hinsert := Zone.insertsAt_insertIn false he (regular_empty hasher)
  unfold Zone.InsertsAt at hinsert
  unfold Zone.insert at h
  rw [h] at hinsert
  obtain ⟨hgrows, hregular, hspells⟩ := hinsert
  have hnot {x : NodeId} {name : String} {id : NodeId} : ¬ f.zone.Binds x name id := by
    rintro ⟨r, hr, -, hbound⟩
    have hnone := hgrows.fresh x r (Nat.zero_le _) hr
    simp [hnone] at hbound
  refine ⟨⟨hregular, ?_, ?_, ?_⟩, hspells f.zone (.refl _)⟩
  · exact fun hbinds => absurd hbinds hnot
  · exact fun hbinds => absurd hbinds hnot
  · exact fun hbinds => absurd hbinds hnot

theorem sound_assignAll (hsound : f.zone.Sound env) (hspells : f.zone.Spells f.root e)
    (hsteps : ∀ s ∈ steps, ∀ v ∈ s.2, v.isFree = true) :
    (f.assignAll steps env).1.zone.Sound (f.assignAll steps env).2 ∧
      (f.assignAll steps env).1.zone.Spells (f.assignAll steps env).1.root e := by
  induction steps generalizing f env with
  | nil => exact ⟨hsound, hspells⟩
  | cons s steps ih =>
    have hstep : (f.assign s.1 s.2 env).2.1.zone.Sound (f.assign s.1 s.2 env).2.2 ∧
        ∀ id e, f.zone.Spells id e → (f.assign s.1 s.2 env).2.1.zone.Spells id e :=
      hsound.assign (hsteps s (by simp))
    exact ih hstep.1 (hstep.2 f.root e hspells) fun t ht => hsteps t (by simp [ht])

/-- Whatever is bound and unbound, in a tree in place or in a formula made from it, with any hasher,
the result is what the tree itself has under the table that is left. What is written does not
change. -/
theorem assignAll_agrees (he : e.isFree = true) (hsteps : ∀ s ∈ steps, ∀ v ∈ s.2, v.isFree = true) :
    (∀ e' env', e.assignAll steps env = (e', env') →
      e'.compute env' = e.compute env' ∧ e'.converting env' = e.converting env' ∧
        e'.text = e.text ∧ e'.tex = e.tex) ∧
    ∀ (hasher : Hasher) (f : Formula), (Zone.insert e).run (.empty hasher) = .ok f.root f.zone →
      ∀ f' env', f.assignAll steps env = (f', env') →
        f'.compute env' = .ok (e.compute env') ∧ f'.converting env' = .ok (e.converting env') ∧
          ∃ t, f'.toExpr = .ok t ∧ t.text = e.text ∧ t.tex = e.tex := by
  constructor
  · intro e' env' hrun
    obtain ⟨hbare, hpublished⟩ := Expr.published_assignAll (Expr.published_of_isFree he) hsteps
    rw [hrun, Expr.bare_of_isFree he] at hbare
    rw [hrun] at hpublished
    obtain rfl : e'.bare = e := hbare
    exact ⟨hpublished.evaluate_eq .folding, hpublished.evaluate_eq .plain,
      (Expr.text_bare e').symm, (Expr.tex_bare e').symm⟩
  · intro hasher f hinsert f' env' hrun
    obtain ⟨hsound, hspells⟩ := sound_of_insert he hinsert
    obtain ⟨hsound, hspells⟩ := sound_assignAll hsound hspells hsteps
    rw [hrun] at hsound hspells
    obtain ⟨t, ht, hbare⟩ := hsound.exists_toExpr hspells
    refine ⟨hsound.evaluate_eq hspells .folding, hsound.evaluate_eq hspells .plain, t, ht, ?_, ?_⟩
    · rw [← hbare, Expr.text_bare]
    · rw [← hbare, Expr.tex_bare]

/-- The formula refuses to bind `x` to what is bound to it; the tree does not. So the tables differ,
and each of the two has the value that the expression has with its own table. -/
theorem assignAll_agrees_cycle :
    let x : Expr := .symbol .unknown "x" none
    let e : Expr := .binaryOf .addition (.named "a") x
    let steps := [("a", some x), ("x", some (.unary .paren (.named "a")))]
    (e.assignAll steps (∅ : Environment)).1.compute (e.assignAll steps ∅).2 =
        .binaryOf .addition (.unary .paren (.named "a")) (.unary .paren x) ∧
      ∃ f : Formula, (Zone.insert e).run (.empty fun kind _ => .ofNat (Hasher.kindCode kind)) =
          .ok f.root f.zone ∧
        (f.assignAll steps (∅ : Environment)).1.compute (f.assignAll steps ∅).2 =
          .ok (.binaryOf .addition x x) := by
  intro x e steps
  have hsteps : ∀ s ∈ steps, ∀ v ∈ s.2, v.isFree = true := by
    simp [steps, x, Expr.named, Expr.isFree]
  obtain ⟨htree, hformula⟩ := @assignAll_agrees ∅ e steps rfl hsteps
  obtain ⟨f, hrun, hvalue⟩ : ∃ f : Formula,
      (Zone.insert e).run (.empty fun kind _ => .ofNat (Hasher.kindCode kind)) =
        .ok f.root f.zone ∧
      e.compute (f.assignAll steps (∅ : Environment)).2 = .binaryOf .addition x x :=
    ⟨⟨_, _⟩, rfl, by decide +kernel⟩
  have hvalue' : e.compute (e.assignAll steps (∅ : Environment)).2 =
      .binaryOf .addition (.unary .paren (.named "a")) (.unary .paren x) := by
    decide +kernel
  refine ⟨(htree _ _ rfl).1.trans hvalue', f, hrun, ?_⟩
  exact (hformula _ f hrun _ _ rfl).1.trans (congrArg Except.ok hvalue)

end Formula

end Formulary
