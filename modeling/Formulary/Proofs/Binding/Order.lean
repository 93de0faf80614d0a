import Formulary.Proofs.Evaluation.Composite

/-!
The order of bindings. Of two bindings of one name the later one counts alone, in the tree and in
the environment; bindings of names that do not stand in each other's values may change places, so a
run of such bindings has one outcome in whatever order its steps are taken.
-/

namespace Formulary

namespace Environment

variable (env : Environment) {n m : String} (x y : Option Expr)

theorem getElem?_update_self : (env.update n x)[n]? = x := by
  cases x <;> simp [update]

theorem update_update : (env.update n x).update n y = env.update n y := by
  refine Std.ExtTreeMap.ext_getElem? fun k => ?_
  by_cases hk : k = n
  · subst hk
    rw [getElem?_update_self, getElem?_update_self]
  · rw [Expr.getElem?_update_of_ne hk, Expr.getElem?_update_of_ne hk, Expr.getElem?_update_of_ne hk]

theorem update_comm (hne : n ≠ m) :
    (env.update n x).update m y = (env.update m y).update n x := by
  refine Std.ExtTreeMap.ext_getElem? fun k => ?_
  by_cases hn : k = n
  · subst hn
    rw [Expr.getElem?_update_of_ne hne, getElem?_update_self, getElem?_update_self]
  · by_cases hm : k = m
    · subst hm
      rw [getElem?_update_self, Expr.getElem?_update_of_ne hn, getElem?_update_self]
    · rw [Expr.getElem?_update_of_ne hm, Expr.getElem?_update_of_ne hn,
        Expr.getElem?_update_of_ne hn, Expr.getElem?_update_of_ne hm]

end Environment

namespace Expr

section Rebind

variable {e : Expr} {n m : String} {x y : Option Expr}

/-- A value that has just been put in is not looked into. -/
theorem rebind_rebind (e : Expr) : (e.rebind n x).rebind n y = e.rebind n y := by
  induction e using inductOnParts with
  | symbol kind k bound ih =>
    by_cases hk : k = n
    · simp only [rebind, if_pos hk]
    · cases bound with
      | none => simp only [rebind, if_neg hk, rebindBound]
      | some v => simp only [rebind, if_neg hk, rebindBound, ih v rfl]
  | composite e hname ih =>
    rw [rebind_composite hname, rebind_composite (by simpa using hname), mapChildren_mapChildren,
      mapChildren_congr ih, rebind_composite hname]

theorem rebind_of_not_mentions (h : e.mentions n = false) : e.rebind n x = e := by
  rw [mentions_eq_false_iff] at h
  induction e using inductOnParts with
  | symbol kind k bound ih =>
    obtain ⟨hk, hbound⟩ := every_symbol.mp h
    have hne : k ≠ n := fun heq => hk (congrArg some heq)
    cases bound with
    | none => simp only [rebind, if_neg hne, rebindBound]
    | some v => simp only [rebind, if_neg hne, rebindBound, ih v rfl (hbound v rfl)]
  | composite e hname ih =>
    rw [every_composite hname] at h
    rw [rebind_composite hname, mapChildren_eq_self fun c hc => ih c hc (h.2 c hc)]

/-- The second binding goes through the values that the first one has put in, and finds nothing
there. -/
theorem rebind_comm (hne : n ≠ m) (hx : ∀ v ∈ x, v.mentions m = false)
    (hy : ∀ w ∈ y, w.mentions n = false) (e : Expr) :
    (e.rebind n x).rebind m y = (e.rebind m y).rebind n x := by
  have hinside {k : String} {z z' : Option Expr} (hz : ∀ v ∈ z, v.mentions k = false) :
      rebindBound k z' z = z := by
    cases z with
    | none => rfl
    | some v => rw [rebindBound, rebind_of_not_mentions (hz v rfl)]
  induction e using inductOnParts with
  | symbol kind k bound ih =>
    by_cases hn : k = n
    · have hm : k ≠ m := hn ▸ hne
      simp only [rebind, if_pos hn, if_neg hm, hinside hx]
    · by_cases hm : k = m
      · simp only [rebind, if_neg hn, if_pos hm, hinside hy]
      · cases bound with
        | none => simp only [rebind, if_neg hn, if_neg hm, rebindBound]
        | some v => simp only [rebind, if_neg hn, if_neg hm, rebindBound, ih v rfl]
  | composite e hname ih =>
    rw [rebind_composite hname, rebind_composite (by simpa using hname), mapChildren_mapChildren,
      mapChildren_congr ih, rebind_composite hname, rebind_composite (by simpa using hname),
      mapChildren_mapChildren]

end Rebind

/-- Two steps of a run that set different names, neither of which stands in the other's value. -/
def Apart (s t : String × Option Expr) : Prop :=
  s.1 ≠ t.1 ∧ (∀ v ∈ s.2, v.mentions t.1 = false) ∧ ∀ w ∈ t.2, w.mentions s.1 = false

section Runs

variable {e : Expr} {env : Environment} {s t : String × Option Expr}
  {steps steps' : List (String × Option Expr)}

theorem Apart.symm (h : Apart s t) : Apart t s := ⟨h.1.symm, h.2.2, h.2.1⟩

theorem assignAll_cons (s : String × Option Expr) (steps : List (String × Option Expr)) (e : Expr)
    (env : Environment) :
    e.assignAll (s :: steps) env = (e.rebind s.1 s.2).assignAll steps (env.update s.1 s.2) :=
  rfl

theorem Apart.assignAll_swap (h : Apart s t) (steps : List (String × Option Expr)) :
    e.assignAll (s :: t :: steps) env = e.assignAll (t :: s :: steps) env := by
  obtain ⟨hne, hs, ht⟩ := h
  simp only [assignAll_cons]
  rw [rebind_comm hne hs ht, env.update_comm s.2 t.2 hne]

/-- The steps of a run may be taken in any order if each two of them are apart. -/
theorem assignAll_perm (hperm : steps.Perm steps') (hapart : steps.Pairwise Apart) :
    e.assignAll steps env = e.assignAll steps' env := by
  induction hperm generalizing e env with
  | nil => rfl
  | cons s _ ih => exact ih (List.pairwise_cons.mp hapart).2
  | swap s t steps =>
    have hts : Apart t s := (List.pairwise_cons.mp hapart).1 s (List.mem_cons_self ..)
    exact hts.assignAll_swap steps
  | trans hfirst _ ih ih' =>
    exact (ih hapart).trans (ih' (hapart.perm hfirst fun h => h.symm))

/-- Whatever the tree and the environment: of two bindings of a name, or of a binding and an
unbinding, the later one counts alone. Bindings of two names commute if neither name stands in the
other's value, and so do all steps of a run that are apart. -/
theorem assignAll_laws (e : Expr) (env : Environment) :
    (∀ (n : String) (x y : Option Expr),
      e.assignAll [(n, x), (n, y)] env = e.assignAll [(n, y)] env) ∧
    (∀ (n m : String) (v w : Expr), n ≠ m → v.mentions m = false → w.mentions n = false →
      e.assignAll [(n, some v), (m, some w)] env = e.assignAll [(m, some w), (n, some v)] env) ∧
    ∀ steps steps' : List (String × Option Expr), steps.Perm steps' → steps.Pairwise Apart →
      e.assignAll steps env = e.assignAll steps' env := by
  refine ⟨fun n x y => ?_, fun n m v w hne hv hw => ?_, fun _ _ => assignAll_perm⟩
  · simp only [assignAll_cons]
    rw [rebind_rebind, env.update_update]
  · have hapart : Apart (n, some v) (m, some w) :=
      ⟨hne, by simpa using hv, by simpa using hw⟩
    exact hapart.assignAll_swap []

/-- `x` stands inside the value of `y`, and `y` inside the value of `x` there; the new values
mention neither. -/
theorem assignAll_laws_nested :
    let e := Expr.symbol .coefficient "y" (some (.binaryOf .addition
      (.symbol .coefficient "x" (some (.named "y"))) (.named "z")))
    let v := Expr.binaryOf .multiplication (.named "z") (.number 2)
    let w := Expr.symbol .unknown "X" (some (.named "z"))
    let reached := (Expr.symbol .coefficient "y" (some w),
      ((∅ : Environment).insert "x" v).insert "y" w)
    ("x" ≠ "y" ∧ v.mentions "y" = false ∧ w.mentions "x" = false ∧
      e.assignAll [("y", some w), ("x", some v)] (∅ : Environment) = reached) ∧
    [("x", some v), ("y", some w), ("u", none)].Pairwise Apart ∧
      e.assignAll [("u", none), ("x", some v), ("y", some w)] (∅ : Environment) = reached := by
  intro e v w reached
  obtain ⟨-, hswap, hrun⟩ := assignAll_laws e ∅
  have hv : v.mentions "y" = false := by decide
  have hw : w.mentions "x" = false := by decide
  have hapart : [("x", some v), ("y", some w), ("u", none)].Pairwise Apart := by
    simp [Apart, v, w, binaryOf, named, mentions, mentionsBound]
  have herase : reached.2.erase "u" = reached.2 := by
    refine Std.ExtTreeMap.ext_getElem? fun k => ?_
    by_cases hk : "u" = k
    · simp [← hk, reached]
    · simp [Std.ExtTreeMap.getElem?_erase, hk]
  refine ⟨⟨by decide, hv, hw, ?_⟩, hapart, ?_⟩
  · exact (hswap _ _ v w (by decide) hv hw).symm
  · rw [← hrun _ _ ((List.Perm.cons _ (.swap ..)).trans (.swap ..)) hapart]
    exact Prod.ext rfl herase

end Runs

end Expr

end Formulary
