import Formulary.Evaluation.Resolution
import Formulary.Proofs.Binding.Bare

/-!
Binding in place. The values that binding puts into a tree are those that it publishes, and none
stands inside a value of its own name, so the tree computes to what it computes to without them.
-/

namespace Formulary

namespace Expr

section Evaluate

variable {a : Assembly} {env : Environment} {active : List String} {kind : SymbolKind}
  {name : String}

theorem evaluate_active (bound : Option Expr) (h : name ∈ active) :
    (Expr.symbol kind name bound).evaluate a env active = .symbol kind name bound := by
  cases bound <;> rw [evaluate, if_pos h]

theorem evaluate_value (value : Expr) (h : name ∉ active) :
    (Expr.symbol kind name (some value)).evaluate a env active =
      value.evaluate a env (name :: active) := by
  rw [evaluate, if_neg h]

theorem evaluate_published {value : Expr} (h : name ∉ active) (hvalue : env[name]? = some value) :
    (Expr.symbol kind name none).evaluate a env active =
      value.evaluate a env (name :: active) := by
  rw [evaluate, if_neg h]
  split
  · rename_i v hv
    rw [Option.some.inj (hv.symm.trans hvalue)]
  · rename_i hv
    simp [hvalue] at hv

theorem evaluate_unpublished (h : name ∉ active) (hnone : env[name]? = none) :
    (Expr.symbol kind name none).evaluate a env active = .symbol kind name none := by
  rw [evaluate, if_neg h]
  split
  · rename_i v hv
    simp [hnone] at hv
  · rfl

end Evaluate

mutual

/-- Whether every value in a tree is the one that is published for its name, and is outside all
values of that name. The tree stands in the values of the names in `chain`. -/
def Published (env : Environment) (chain : List String) : Expr → Prop
  | .number _ => True
  | .symbol _ name bound => PublishedValue env chain name bound
  | .term c a x => Published env chain c ∧ Published env chain a ∧ Published env chain x
  | .unary _ e => Published env chain e
  | .binary _ l r => Published env chain l ∧ Published env chain r
  | .nary _ es | .call _ es => PublishedList env chain es

def PublishedValue (env : Environment) (chain : List String) (name : String) :
    Option Expr → Prop
  | none => True
  | some e => name ∉ chain ∧ env[name]? = some e.bare ∧ Published env (name :: chain) e

def PublishedList (env : Environment) (chain : List String) : List Expr → Prop
  | [] => True
  | e :: es => Published env chain e ∧ PublishedList env chain es

end

section Published

variable {env : Environment} {chain : List String} {e : Expr} {es : List Expr} {name : String}
  {value : Option Expr}

@[simp] theorem publishedList_iff :
    PublishedList env chain es ↔ ∀ e ∈ es, Published env chain e := by
  induction es with
  | nil => simp [PublishedList]
  | cons e es ih => simp [PublishedList, ih]

theorem published_of_isFree (h : e.isFree = true) : Published env chain e := by
  induction e with
  | number => trivial
  | symbol kind name bound =>
    obtain rfl := Option.isNone_iff_eq_none.mp h
    trivial
  | term c a x ihc iha ihx =>
    simp only [isFree, Bool.and_eq_true] at h
    exact ⟨ihc h.1.1, iha h.1.2, ihx h.2⟩
  | unary op e ih => exact ih h
  | binary op l r ihl ihr =>
    simp only [isFree, Bool.and_eq_true] at h
    exact ⟨ihl h.1, ihr h.2⟩
  | nary op es ih | call name es ih =>
    simp only [isFree, areFree_iff] at h
    simp only [Published, publishedList_iff]
    exact fun e he => ih e he (h e he)

/-- Published values can be left out: they are found again by their names. -/
theorem Published.evaluate_eq (h : Published env chain e) (a : Assembly) :
    e.evaluate a env chain = e.bare.evaluate a env chain := by
  induction e generalizing chain with
  | number => rfl
  | symbol kind name bound ih =>
    cases bound with
    | none => rfl
    | some e =>
      obtain ⟨hchain, hvalue, hpublished⟩ := h
      rw [bare, evaluate_value e hchain, evaluate_published hchain hvalue]
      exact ih e rfl hpublished
  | term c a x ihc iha ihx =>
    obtain ⟨hc, ha, hx⟩ := h
    rw [bare, evaluate, evaluate, ihc hc, iha ha, ihx hx]
  | unary op e ih => rw [bare, evaluate, evaluate, ih h]
  | binary op l r ihl ihr =>
    obtain ⟨hl, hr⟩ := h
    rw [bare, evaluate, evaluate, ihl hl, ihr hr]
  | nary op es ih | call name es ih =>
    simp only [Published, publishedList_iff] at h
    rw [bare, bareList_eq_map, evaluate, evaluate, List.map_map]
    congr 1
    exact List.map_congr_left fun e he => ih e he (h e he)

theorem rebindList_eq_map (es : List Expr) :
    rebindList name value es = es.map (rebind name value) := by
  induction es with
  | nil => rfl
  | cons e es ih => rw [rebindList, ih, List.map_cons]

/-- Binding changes values only. -/
theorem bare_rebind (e : Expr) : (e.rebind name value).bare = e.bare := by
  induction e with
  | number => rfl
  | symbol kind n bound =>
    rw [rebind]
    split <;> rfl
  | term c a x ihc iha ihx => simp only [rebind, bare, ihc, iha, ihx]
  | unary op e ih => simp only [rebind, bare, ih]
  | binary op l r ihl ihr => simp only [rebind, bare, ihl, ihr]
  | nary op es ih | call n es ih =>
    simp only [rebind, bare, rebindList_eq_map, bareList_eq_map, List.map_map]
    congr 1
    exact List.map_congr_left ih

theorem getElem?_update_of_ne {n : String} (h : n ≠ name) :
    (env.update name value)[n]? = env[n]? := by
  have hcompare : compare name n ≠ .eq := by
    intro heq
    exact h (Std.LawfulEqCmp.compare_eq_iff_eq.mp heq).symm
  cases value with
  | none => simp [Environment.update, Std.ExtTreeMap.getElem?_erase, hcompare]
  | some v => simp [Environment.update, Std.ExtTreeMap.getElem?_insert, hcompare]

/-- Binding a name and publishing it keeps all values published. A tree inside a value of the name
is never reached, for that value is replaced as a whole. -/
theorem Published.rebind (h : Published env chain e) (hchain : name ∉ chain)
    (hvalue : ∀ v ∈ value, v.isFree = true) :
    Published (env.update name value) chain (e.rebind name value) := by
  induction e generalizing chain with
  | number => trivial
  | symbol kind n bound ih =>
    rw [Expr.rebind]
    split
    · rename_i heq
      subst heq
      cases value with
      | none => trivial
      | some v =>
        have hfree := hvalue v rfl
        refine ⟨hchain, ?_, published_of_isFree hfree⟩
        rw [bare_of_isFree hfree]
        simp [Environment.update]
    · rename_i hne
      cases bound with
      | none => trivial
      | some e =>
        obtain ⟨hn, hpublished, he⟩ := h
        refine ⟨hn, ?_, ih e rfl he ?_⟩
        · rw [bare_rebind, getElem?_update_of_ne hne]
          exact hpublished
        · simp [hchain, Ne.symm hne]
  | term c a x ihc iha ihx =>
    obtain ⟨hc, ha, hx⟩ := h
    exact ⟨ihc hc hchain, iha ha hchain, ihx hx hchain⟩
  | unary op e ih => exact ih h hchain
  | binary op l r ihl ihr =>
    obtain ⟨hl, hr⟩ := h
    exact ⟨ihl hl hchain, ihr hr hchain⟩
  | nary op es ih | call n es ih =>
    simp only [Published, publishedList_iff] at h
    simp only [Expr.rebind, Published, publishedList_iff, rebindList_eq_map, List.mem_map]
    rintro _ ⟨e, he, rfl⟩
    exact ih e he (h e he) hchain

end Published

/-- Binds and unbinds names, one after the other. -/
def assignAll {τ : Type} [SymbolTable τ] (steps : List (String × Option Expr)) (e : Expr)
    (table : τ) : Expr × τ :=
  steps.foldl (fun s step => s.1.assign step.1 step.2 s.2) (e, table)

/-- What a run of bindings keeps: the tree apart from its values, and that these are published. -/
theorem published_assignAll {steps : List (String × Option Expr)} {e : Expr} {env : Environment}
    (h : Published env [] e) (hsteps : ∀ s ∈ steps, ∀ v ∈ s.2, v.isFree = true) :
    (assignAll steps e env).1.bare = e.bare ∧
      Published (assignAll steps e env).2 [] (assignAll steps e env).1 := by
  induction steps generalizing e env with
  | nil => exact ⟨rfl, h⟩
  | cons s steps ih =>
    have hstep : Published (env.update s.1 s.2) [] (e.rebind s.1 s.2) :=
      h.rebind (by simp) (hsteps s (by simp))
    obtain ⟨hbare, hpublished⟩ := ih hstep fun t ht => hsteps t (by simp [ht])
    exact ⟨hbare.trans (bare_rebind e), hpublished⟩

end Expr

end Formulary
