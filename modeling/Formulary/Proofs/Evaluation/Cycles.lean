import Mathlib.Logic.Relation
import Formulary.Proofs.Evaluation.Remainder

/-!
Names that stand in each other's values. Evaluation re-enters a name only if there is a cycle of
them, and a value that has just been computed closes a cycle only through its own name.
-/

namespace Formulary

namespace Environment

/-- Whether a name stands in the value of another. -/
def Refers (env : Environment) (n m : String) : Prop :=
  ∃ v, env[n]? = some v ∧ v.mentions m = true

/-- Whether no name leads back to itself from value to value. -/
def Acyclic (env : Environment) : Prop := ∀ n, ¬ Relation.TransGen env.Refers n n

variable {env env' : Environment} {active : List String} {e v : Expr} {n m : String}

theorem symbolName?_of_mem_children {c : Expr} (hc : c ∈ e.children) : e.symbolName? = none := by
  cases e with
  | symbol => cases hc
  | _ => rfl

/-- The names being resolved lead to all names of the expression that evaluation has come to, so one
that is met again leads to itself. -/
theorem exists_cycle_of_reenters (h : e.Reenters env active) (henv : env.IsFree)
    (he : e.isFree = true)
    (hactive : ∀ k ∈ active, ∀ m, e.mentions m = true → Relation.TransGen env.Refers k m) :
    ∃ n, Relation.TransGen env.Refers n n := by
  have hself {kind : SymbolKind} {k : String} {bound : Option Expr} :
      (Expr.symbol kind k bound).mentions k = true := by simp [Expr.mentions]
  induction h with
  | here h => exact ⟨_, hactive _ h _ hself⟩
  | value => cases he
  | @published active kind k v hvalue _ ih =>
    refine ih (henv k v hvalue) fun k' hk' m hm => ?_
    rcases List.mem_cons.mp hk' with rfl | hk'
    · exact .single ⟨v, hvalue, hm⟩
    · exact (hactive k' hk' k hself).tail ⟨v, hvalue, hm⟩
  | @child active e c hc _ ih =>
    have hname := symbolName?_of_mem_children hc
    refine ih ((Expr.isFree_composite hname).mp he c hc) fun k hk m hm => hactive k hk m ?_
    rw [Expr.mentions_composite hname]
    exact List.any_eq_true.mpr ⟨c, hc, hm⟩

theorem Acyclic.not_reenters (h : env.Acyclic) (henv : env.IsFree) (he : e.isFree = true) :
    ¬ e.Reenters env [] := by
  intro hreenters
  obtain ⟨n, hn⟩ := exists_cycle_of_reenters hreenters henv he (by simp)
  exact h n hn

theorem Acyclic.mono (h : env.Acyclic)
    (hle : ∀ (k : String) (v : Expr), env'[k]? = some v → env[k]? = some v) : env'.Acyclic := by
  have hrefers : env'.Refers ≤ env.Refers := fun k _ ⟨v, hvalue, hm⟩ => ⟨v, hle k v hvalue, hm⟩
  exact fun n hn => h n (Relation.TransGen.mono hrefers n n hn)

/-- What refers to a name with a value did so before: the new value mentions no such name. -/
theorem refers_of_insert (hv : ∀ m, v.mentions m = true → m ≠ n ∧ m ∉ env) {a b c : String}
    (hab : Refers (env.insert n v) a b) (hbc : Refers (env.insert n v) b c) : env.Refers a b := by
  obtain ⟨w, hw, hb⟩ := hab
  rw [Std.ExtTreeMap.getElem?_insert] at hw
  split at hw
  · cases hw
    obtain ⟨hne, hmem⟩ := hv b hb
    obtain ⟨u, hu, -⟩ := hbc
    rw [Std.ExtTreeMap.getElem?_insert,
      if_neg fun heq => hne (Std.LawfulEqCmp.compare_eq_iff_eq.mp heq).symm] at hu
    exact absurd (Std.ExtTreeMap.mem_iff_isSome_getElem?.mpr (by simp [hu])) hmem
  · exact ⟨w, hw, hb⟩

/-- A value that mentions neither its own name nor names that have values closes no cycle. -/
theorem Acyclic.insert (h : env.Acyclic) (hv : ∀ m, v.mentions m = true → m ≠ n ∧ m ∉ env) :
    Acyclic (env.insert n v) := by
  have hold {a b c : String} (hab : Relation.TransGen (Refers (env.insert n v)) a b)
      (hbc : Refers (env.insert n v) b c) : Relation.TransGen env.Refers a b := by
    induction hab generalizing c with
    | single hab => exact .single (refers_of_insert hv hab hbc)
    | tail _ hstep ih => exact (ih hstep).tail (refers_of_insert hv hstep hbc)
  intro k hk
  obtain ⟨c, hkc, -⟩ := Relation.TransGen.head'_iff.mp hk
  exact h k (hold hk hkc)

/-- What is computed without a cycle mentions no name that has a value. -/
theorem Acyclic.not_mem_of_mentions (h : env.Acyclic) (henv : env.IsFree) (he : e.isFree = true)
    (hm : (e.compute env).mentions m = true) : m ∉ env := fun hmem =>
  h.not_reenters henv he ((Expr.returns_iff henv he).mpr ⟨hm, .inl hmem⟩).reenters

end Environment

end Formulary
