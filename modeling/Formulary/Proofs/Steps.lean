/-!
Steps that change a state and may fail: what two in sequence do, and which of them leave the state
as it was.
-/

namespace Formulary

section Sequence

variable {ε σ α β : Type} {step step' : EStateM ε σ α} {next next' : α → EStateM ε σ β}
  {err err' : ε} {a a' : α} {b : β} {s s' : σ}

theorem run_bind_eq_ok : (step >>= next).run s = .ok b s' ↔
    ∃ a t, step.run s = .ok a t ∧ (next a).run t = .ok b s' := by
  rw [EStateM.run_bind]
  cases step.run s <;> simp [and_assoc]

theorem run_bind_eq_error : (step >>= next).run s = .error err s' ↔
    step.run s = .error err s' ∨
      ∃ a t, step.run s = .ok a t ∧ (next a).run t = .error err s' := by
  rw [EStateM.run_bind]
  cases step.run s <;> simp [and_assoc]

theorem run_bind_of_ok (h : step.run s = .ok a s') :
    (step >>= next).run s = (next a).run s' := by
  rw [EStateM.run_bind, h]

theorem run_bind_congr (hstep : step.run s = step'.run s)
    (h : ∀ a t, step.run s = .ok a t → (next a).run t = (next' a).run t) :
    (step >>= next).run s = (step' >>= next').run s := by
  rw [EStateM.run_bind, EStateM.run_bind, ← hstep]
  cases hrun : step.run s with
  | ok a t => exact h a t hrun
  | error => rfl

theorem run_pure_eq_ok : (pure a : EStateM ε σ α).run s = .ok a' s' ↔ a = a' ∧ s = s' := by
  change EStateM.Result.ok a s = .ok a' s' ↔ _
  simp

theorem run_pure_ne_error : (pure a : EStateM ε σ α).run s ≠ .error err s' := nofun

theorem run_throw_eq_error :
    (throw err : EStateM ε σ α).run s = .error err' s' ↔ err = err' ∧ s = s' := by
  change EStateM.Result.error err s = .error err' s' ↔ _
  simp

theorem run_throw_ne_ok : (throw err : EStateM ε σ α).run s ≠ .ok a s' := nofun

end Sequence

section Unchanged

variable {ε σ α β : Type} {step : EStateM ε σ α} {next : α → EStateM ε σ β}

/-- Whether a step has changed nothing if it fails. -/
def Atomic (step : EStateM ε σ α) : Prop :=
  ∀ s err s', step.run s = .error err s' → s' = s

/-- Whether a step changes nothing, be it that it fails or not. -/
structure Looks (step : EStateM ε σ α) : Prop where
  atomic : Atomic step
  of_ok : ∀ s a s', step.run s = .ok a s' → s' = s

theorem Atomic.pure (a : α) : Atomic (pure a : EStateM ε σ α) := fun _ _ _ => nofun

theorem Looks.pure (a : α) : Looks (pure a : EStateM ε σ α) :=
  ⟨.pure a, fun _ _ _ h => (run_pure_eq_ok.mp h).2.symm⟩

theorem Looks.throw (err : ε) : Looks (throw err : EStateM ε σ α) :=
  ⟨fun _ _ _ h => (run_throw_eq_error.mp h).2.symm, fun _ _ _ h => absurd h run_throw_ne_ok⟩

theorem Looks.get : Looks (get : EStateM ε σ σ) :=
  ⟨fun _ _ _ => nofun, fun _ _ _ h => by cases h; rfl⟩

/-- A change may come after steps that change nothing, if nothing fails after the change. -/
theorem Looks.bind_atomic (hstep : Looks step) (hnext : ∀ a, Atomic (next a)) :
    Atomic (step >>= next) := by
  intro s err s' hrun
  rcases run_bind_eq_error.mp hrun with h | ⟨a, t, ht, h⟩
  · exact hstep.atomic s err s' h
  · obtain rfl := hstep.of_ok s a t ht
    exact hnext a t err s' h

theorem Looks.bind (hstep : Looks step) (hnext : ∀ a, Looks (next a)) : Looks (step >>= next) := by
  refine ⟨hstep.bind_atomic fun a => (hnext a).atomic, fun s b s' hrun => ?_⟩
  obtain ⟨a, t, ht, h⟩ := run_bind_eq_ok.mp hrun
  obtain rfl := hstep.of_ok s a t ht
  exact (hnext a).of_ok t b s' h

theorem Looks.mapM {f : α → EStateM ε σ β} (h : ∀ a, Looks (f a)) (as : List α) :
    Looks (as.mapM f) := by
  induction as with
  | nil => exact .pure []
  | cons a as ih =>
    rw [List.mapM_cons]
    exact (h a).bind fun b => ih.bind fun bs => .pure (b :: bs)

end Unchanged

end Formulary
