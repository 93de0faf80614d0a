import Mathlib.Algebra.Order.BigOperators.Group.List
import Mathlib.Algebra.Order.Group.Nat
import Mathlib.Data.Finset.Card
import Formulary.Proofs.Evaluation.Composite

/-!
The names being resolved as a stack. An evaluation that keeps them in one place pushes a name before
it goes on with the name's value, and pops it afterwards. Whatever refers to what, it comes to an
end with the stack that it began with, and no stack on the way has a name twice.
-/

namespace Formulary

/-- The names being resolved, the innermost first, and all stacks of such names that there have
been, the latest first. -/
structure Resolver where
  active : List String
  history : List (List String)

namespace Resolver

def start : Resolver := ⟨[], []⟩

/-- A step of an evaluation. It fails if its calls would be nested too deeply. -/
abbrev Run := StateT Resolver Option

def enter (name : String) : Run Unit :=
  modify fun r => ⟨name :: r.active, (name :: r.active) :: r.history⟩

def leave : Run Unit := modify fun r => ⟨r.active.tail, r.history⟩

/-- Runs a step while a name is being resolved. -/
def resolving (name : String) (step : Run Expr) : Run Expr := do
  enter name
  let result ← step
  leave
  return result

/-- What a symbol stands for, if it does not stand for itself. -/
def valueOf? (env : Environment) (name : String) (bound : Option Expr) : Run (Option Expr) := do
  return if name ∈ (← get).active then none else bound.or env[name]?

/-- Evaluates an expression by calls that are nested `depth` deep at most. -/
def evaluate (a : Assembly) (env : Environment) : Nat → Expr → Run Expr
  | 0, _ => failure
  | depth + 1, e =>
    match e with
    | .symbol kind name bound => do
      match ← valueOf? env name bound with
      | some value => resolving name (evaluate a env depth value)
      | none => return .symbol kind name bound
    | e => do return a.node (e.withChildren (← e.children.mapM (evaluate a env depth)))

/-- A step gives a result and changes the stack `active` to `active'`. All stacks on the way have a
property. -/
def Leads {α : Type} (P : List String → Prop) (active : List String) (step : Run α) (result : α)
    (active' : List String) : Prop :=
  ∀ history, ∃ seen, step.run ⟨active, history⟩ = some (result, ⟨active', seen ++ history⟩) ∧
    ∀ s ∈ seen, P s

section Leads

variable {α β : Type} {P : List String → Prop} {active active' active'' : List String}
  {name : String} {env : Environment} {bound : Option Expr}

theorem Leads.pure (result : α) : Leads P active (pure result) result active :=
  fun _ => ⟨[], rfl, by simp⟩

theorem Leads.bind {step : Run α} {next : α → Run β} {x : α} {y : β}
    (h : Leads P active step x active') (h' : Leads P active' (next x) y active'') :
    Leads P active (step >>= next) y active'' := by
  intro history
  obtain ⟨first, hrun, hfirst⟩ := h history
  obtain ⟨second, hrun', hsecond⟩ := h' (first ++ history)
  refine ⟨second ++ first, ?_, ?_⟩
  · rw [StateT.run_bind, hrun, List.append_assoc]
    exact hrun'
  · simp only [List.mem_append]
    rintro s (hs | hs)
    · exact hsecond s hs
    · exact hfirst s hs

theorem leads_enter (hpush : P (name :: active)) :
    Leads P active (enter name) () (name :: active) :=
  fun _ => ⟨[name :: active], rfl, by simpa using hpush⟩

theorem leads_leave : Leads P (name :: active) leave () active := fun _ => ⟨[], rfl, by simp⟩

/-- What is pushed is popped again. -/
theorem Leads.resolving {step : Run Expr} {result : Expr} (hpush : P (name :: active))
    (h : Leads P (name :: active) step result (name :: active)) :
    Leads P active (resolving name step) result active :=
  (leads_enter hpush).bind (h.bind (leads_leave.bind (.pure result)))

theorem leads_valueOf? :
    Leads P active (valueOf? env name bound) (if name ∈ active then none else bound.or env[name]?)
      active :=
  fun _ => ⟨[], rfl, by simp⟩

/-- Siblings each give what they would give alone. -/
theorem Leads.mapM {step : Expr → Run Expr} {result : Expr → Expr} {es : List Expr}
    (h : ∀ e ∈ es, Leads P active (step e) (result e) active) :
    Leads P active (es.mapM step) (es.map result) active := by
  induction es with
  | nil => exact .pure []
  | cons e es ih =>
    rw [List.mapM_cons]
    exact (h e (by simp)).bind ((ih fun e he => h e (by simp [he])).bind (.pure _))

end Leads

section Evaluate

variable {P : List String → Prop} {N : String → Prop} {a : Assembly} {env : Environment}
  {active : List String} {depth : Nat} {e : Expr}

theorem evaluate_composite (hname : e.symbolName? = none) :
    evaluate a env (depth + 1) e = do
      return a.node (e.withChildren (← e.children.mapM (evaluate a env depth))) := by
  cases e with
  | symbol => cases hname
  | _ => rfl

theorem leads_symbol {kind : SymbolKind} {name : String} {bound : Option Expr} {result : Expr}
    (value? : Option Expr)
    (hvalue : (if name ∈ active then none else bound.or env[name]?) = value?)
    (h : Leads P active
      (match value? with
        | some v => resolving name (evaluate a env depth v)
        | none => return .symbol kind name bound) result active) :
    Leads P active (evaluate a env (depth + 1) (.symbol kind name bound)) result active := by
  subst hvalue
  exact leads_valueOf?.bind h

/-- An evaluation that is deep enough gives what the recursion on the expression gives, and the
stack is afterwards what it was. Names are pushed only if they are not on the stack, and only names
that stand in the expression or in the environment. -/
theorem leads_evaluate
    (hpush : ∀ active name, P active → name ∉ active → N name → P (name :: active))
    (henv : ∀ (n : String) (v : Expr), env[n]? = some v → ∀ m, v.mentions m = true → N m)
    (he : ∀ m, e.mentions m = true → N m) (hactive : P active)
    (hdepth : env.work active e < depth) :
    Leads P active (evaluate a env depth e) (e.evaluate a env active) active := by
  induction depth generalizing e active with
  | zero => exact absurd hdepth (Nat.not_lt_zero _)
  | succ depth ih =>
    cases hname : e.symbolName? with
    | none =>
      rw [evaluate_composite hname, Expr.evaluate_composite hname]
      refine (Leads.mapM fun c hc => ih ?_ hactive ?_).bind (.pure _)
      · intro m hm
        refine he m ?_
        rw [Expr.mentions_composite hname]
        exact List.any_eq_true.mpr ⟨c, hc, hm⟩
      · have := env.work_child_lt active (Expr.sizeOf_lt_of_mem_children hc)
        omega
    | some =>
      cases e with
      | symbol kind name bound =>
        by_cases hmem : name ∈ active
        · rw [Expr.evaluate_active bound hmem]
          exact leads_symbol none (if_pos hmem) (.pure _)
        have hP : P (name :: active) :=
          hpush active name hactive hmem (he name (by simp [Expr.mentions]))
        cases bound with
        | some v =>
          have hv : env.work (name :: active) v < env.work active (.symbol kind name (some v)) :=
            env.work_bound_lt name active (Expr.sizeOf_value_lt kind name v)
          rw [Expr.evaluate_value v hmem]
          refine leads_symbol (some v) (by simp [hmem]) (.resolving hP (ih ?_ hP (by omega)))
          exact fun m hm => he m (by simp [Expr.mentions, Expr.mentionsBound, hm])
        | none =>
          cases hvalue : env[name]? with
          | some v =>
            have hv := env.work_value_lt (.symbol kind name none) hmem hvalue
            rw [Expr.evaluate_published hmem hvalue]
            exact leads_symbol (some v) (by simp [hmem, hvalue])
              (.resolving hP (ih (henv name v hvalue) hP (by omega)))
          | none =>
            rw [Expr.evaluate_unpublished hmem hvalue]
            exact leads_symbol none (by simp [hmem, hvalue]) (.pure _)
      | _ => cases hname

end Evaluate

/-- The names that the symbols of an expression and of the values of an environment have. -/
def namesIn (env : Environment) (e : Expr) : Finset String :=
  ((e.uses ++ env.toList.flatMap fun v => v.2.uses).map Expr.Use.name).toFinset

theorem mem_uses_of_mentions {e : Expr} {name : String} (h : e.mentions name = true) :
    ∃ u ∈ e.uses, u.name = name := by
  have hnot : ¬ e.Every fun p => p.symbolName? ≠ some name := by
    rw [← Expr.mentions_eq_false_iff, h]
    simp
  simp only [Expr.Every, not_forall, not_not] at hnot
  obtain ⟨⟨scope, p⟩, hp, hname⟩ := hnot
  cases p with
  | symbol kind n bound =>
    cases hname
    exact ⟨_, List.mem_filterMap.mpr ⟨_, hp, rfl⟩, rfl⟩
  | _ => cases hname

section Total

variable {env : Environment} {e : Expr}

theorem mem_namesIn_of_mentions {name : String} (h : e.mentions name = true) :
    name ∈ namesIn env e := by
  obtain ⟨u, hu, rfl⟩ := mem_uses_of_mentions h
  simp only [namesIn, List.mem_toFinset, List.mem_map, List.mem_append]
  exact ⟨u, .inl hu, rfl⟩

theorem mem_namesIn_of_value {name n : String} {v : Expr} (hv : env[n]? = some v)
    (h : v.mentions name = true) : name ∈ namesIn env e := by
  obtain ⟨u, hu, rfl⟩ := mem_uses_of_mentions h
  simp only [namesIn, List.mem_toFinset, List.mem_map, List.mem_append, List.mem_flatMap]
  exact ⟨u, .inr ⟨(n, v), Std.ExtTreeMap.mem_toList_iff_getElem?_eq_some.mpr hv, hu⟩, rfl⟩

/-- A whole evaluation, however deep its calls may be nested from some depth on: it ends with the
result and with no name on the stack. All stacks on the way hold distinct names, so none is higher
than there are names. -/
def Ends (a : Assembly) (env : Environment) (e result : Expr) : Prop :=
  ∃ least, ∀ depth ≥ least, ∃ seen,
    (evaluate a env depth e).run start = some (result, ⟨[], seen⟩) ∧
      ∀ s ∈ seen, s.Nodup ∧ s.length ≤ (namesIn env e).card

theorem ends_evaluate (a : Assembly) (env : Environment) (e : Expr) :
    Ends a env e (e.evaluate a env []) := by
  refine ⟨env.work [] e + 1, fun depth hdepth => ?_⟩
  have h : Leads (fun s => s.Nodup ∧ ∀ n ∈ s, n ∈ namesIn env e) [] (evaluate a env depth e)
      (e.evaluate a env []) [] := by
    refine leads_evaluate (N := (· ∈ namesIn env e)) ?_
      (fun n v hv m hm => mem_namesIn_of_value hv hm) (fun m hm => mem_namesIn_of_mentions hm)
      (by simp) (by omega)
    rintro active name ⟨hnodup, hnames⟩ hname hN
    exact ⟨List.nodup_cons.mpr ⟨hname, hnodup⟩, List.forall_mem_cons.mpr ⟨hN, hnames⟩⟩
  obtain ⟨seen, hrun, hseen⟩ := h []
  refine ⟨seen, by rw [start, hrun, List.append_nil], fun s hs => ?_⟩
  obtain ⟨hnodup, hnames⟩ := hseen s hs
  refine ⟨hnodup, ?_⟩
  rw [← List.toFinset_card_of_nodup hnodup]
  exact Finset.card_le_card fun n hn => hnames n (List.mem_toFinset.mp hn)

/-- Evaluation always ends. Expressions that are evaluated one after the other leave the stack as it
was, each of them, so that each gives what it gives alone. -/
theorem evaluation_ends (env : Environment) (e : Expr) :
    Ends .folding env e (e.compute env) ∧ Ends .plain env e (e.converting env) ∧
      ∀ (a : Assembly) (es : List Expr) (r : Resolver), ∃ least, ∀ depth ≥ least, ∃ seen,
        (es.mapM (evaluate a env depth)).run r =
          some (es.map (Expr.evaluate a env r.active), ⟨r.active, seen ++ r.history⟩) := by
  refine ⟨ends_evaluate .folding env e, ends_evaluate .plain env e, fun a es r => ?_⟩
  refine ⟨(es.map (env.work r.active)).sum + 1, fun depth hdepth => ?_⟩
  have h : Leads (fun _ => True) r.active (es.mapM (evaluate a env depth))
      (es.map (Expr.evaluate a env r.active)) r.active := by
    refine .mapM fun e he => ?_
    have hle := List.single_le_sum (l := es.map (env.work r.active)) (by simp) _
      (List.mem_map_of_mem he)
    exact leads_evaluate (N := fun _ => True) (by simp) (by simp) (by simp) trivial (by omega)
  obtain ⟨seen, hrun, -⟩ := h r.history
  exact ⟨seen, hrun⟩

end Total

end Resolver

end Formulary
