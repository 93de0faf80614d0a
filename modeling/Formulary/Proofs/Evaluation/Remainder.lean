import Formulary.Proofs.Evaluation.NormalForm

/-!
The symbols that computation leaves. Folding loses no symbol, so the names that are left are those
that it came to without a value, and those that it came to inside their own values.
-/

namespace Formulary

/-- Whether no symbol has a value of its own in the values of an environment. -/
def Environment.IsFree (env : Environment) : Prop :=
  ∀ (n : String) (v : Expr), env[n]? = some v → v.isFree = true

namespace Expr

/-- Whether evaluation of an expression, while the names in `active` are being resolved, comes to a
symbol of the given name while this one is being resolved. -/
inductive Returns (env : Environment) (name : String) : List String → Expr → Prop
  | here {active : List String} {kind : SymbolKind} {bound : Option Expr} (h : name ∈ active) :
      Returns env name active (.symbol kind name bound)
  | value {active : List String} {kind : SymbolKind} {k : String} {v : Expr} (hk : k ∉ active)
      (h : Returns env name (k :: active) v) : Returns env name active (.symbol kind k (some v))
  | published {active : List String} {kind : SymbolKind} {k : String} {v : Expr} (hk : k ∉ active)
      (hvalue : env[k]? = some v) (h : Returns env name (k :: active) v) :
      Returns env name active (.symbol kind k none)
  | child {active : List String} {e c : Expr} (hc : c ∈ e.children)
      (h : Returns env name active c) : Returns env name active e

section Returns

variable {env : Environment} {active : List String} {e : Expr} {name : String}

theorem Returns.reenters (h : e.Returns env name active) : e.Reenters env active := by
  induction h with
  | here h => exact .here h
  | value _ _ ih => exact .value ih
  | published _ hvalue _ ih => exact .published hvalue ih
  | child hc _ ih => exact .child hc ih

/-- Evaluation without re-entry is that which returns to no name. -/
theorem reenters_iff : e.Reenters env active ↔ ∃ name, e.Returns env name active := by
  refine ⟨fun h => ?_, fun ⟨_, h⟩ => h.reenters⟩
  induction h with
  | here h => exact ⟨_, .here h⟩
  | @value active kind k v _ ih =>
    obtain ⟨name, ih⟩ := ih
    by_cases hk : k ∈ active
    · exact ⟨k, .here hk⟩
    · exact ⟨name, .value hk ih⟩
  | @published active kind k v hvalue _ ih =>
    obtain ⟨name, ih⟩ := ih
    by_cases hk : k ∈ active
    · exact ⟨k, .here hk⟩
    · exact ⟨name, .published hk hvalue ih⟩
  | child hc _ ih =>
    obtain ⟨name, ih⟩ := ih
    exact ⟨name, .child hc ih⟩

end Returns

section Folding

variable {e c : Expr} {es : List Expr} {op : NaryOp} {name : String}

theorem mem_place {x : Float} (hc : c ∈ es) : c ∈ Fold.place op x es := by
  cases op <;> simp [Fold.place, hc]

theorem mem_children_nary (hc : c ∈ es) (hnumber : c.number? = none) :
    c ∈ (Fold.nary op es).children := by
  have hmem : c ∈ Fold.symbolic es := mem_symbolic.mpr ⟨hc, hnumber⟩
  unfold Fold.nary
  split
  · exact hc
  · simp only
    split
    · rename_i hempty
      rw [List.isEmpty_iff.mp hempty] at hmem
      cases hmem
    · split
      · exact hmem
      · exact mem_place hmem

/-- Folding takes nothing but numbers from among the children of a node. -/
theorem mem_children_folding_node (hc : c ∈ e.children) (hnumber : c.number? = none) :
    c ∈ (Assembly.folding.node e).children := by
  cases hmerges : e.merges with
  | false =>
    rcases folding_node_cases hmerges with hself | ⟨-, hnumbers⟩
    · rwa [hself]
    · obtain ⟨x, rfl⟩ := hnumbers c hc
      cases hnumber
  | true =>
    cases e with
    | nary op es => exact mem_children_nary hc hnumber
    | _ => cases hmerges

theorem mentions_folding_node (hname : e.symbolName? = none) :
    (Assembly.folding.node e).mentions name = e.mentions name := by
  obtain ⟨hnode, -, hmem⟩ := @folding_node_outcome ∅ e hname
  rw [Bool.eq_iff_iff, mentions_composite hnode, mentions_composite hname, List.any_eq_true,
    List.any_eq_true]
  constructor
  · rintro ⟨c, hc, hmentions⟩
    rcases hmem c hc with hc | ⟨x, rfl⟩
    · exact ⟨c, hc, hmentions⟩
    · cases hmentions
  · rintro ⟨c, hc, hmentions⟩
    refine ⟨c, mem_children_folding_node hc ?_, hmentions⟩
    cases c with
    | number => cases hmentions
    | _ => rfl

theorem isFree_folding_node (hname : e.symbolName? = none)
    (h : ∀ c ∈ e.children, c.isFree = true) : (Assembly.folding.node e).isFree = true := by
  obtain ⟨hnode, -, hmem⟩ := @folding_node_outcome ∅ e hname
  rw [isFree_composite hnode]
  intro c hc
  rcases hmem c hc with hc | ⟨x, rfl⟩
  · exact h c hc
  · rfl

end Folding

section Remainder

variable {env : Environment} {active : List String} {e : Expr} {name : String}

theorem isFree_evaluate (henv : env.IsFree) (he : e.isFree = true) :
    (e.evaluate .folding env active).isFree = true := by
  induction active, e using inductOnEvaluation env with
  | resolving active kind k bound hk => rwa [evaluate_active bound hk]
  | value active kind k v hk ih => cases he
  | published active kind k v hk hvalue ih =>
    rw [evaluate_published hk hvalue]
    exact ih (henv k v hvalue)
  | unpublished active kind k hk hnone =>
    rw [evaluate_unpublished hk hnone]
    rfl
  | composite active e hname ih =>
    rw [isFree_composite hname] at he
    rw [evaluate_composite hname]
    refine isFree_folding_node (by simpa using hname) ?_
    simp only [children_mapChildren, List.forall_mem_map]
    exact fun c hc => ih c hc (he c hc)

theorem mentions_symbol {kind : SymbolKind} {k : String} :
    (Expr.symbol kind k none).mentions name = true ↔ k = name := by
  simp [mentions, mentionsBound]

/-- A name that has a value, or is being resolved, is left exactly if evaluation returns to it. -/
theorem returns_iff (henv : env.IsFree) (he : e.isFree = true) :
    e.Returns env name active ↔
      (e.evaluate .folding env active).mentions name = true ∧ (name ∈ env ∨ name ∈ active) := by
  induction active, e using inductOnEvaluation env with
  | resolving active kind k bound hk =>
    obtain rfl := Option.isNone_iff_eq_none.mp he
    rw [evaluate_active none hk, mentions_symbol]
    constructor
    · intro h
      cases h with
      | here h => exact ⟨rfl, .inr h⟩
      | published hk' => exact absurd hk hk'
      | child hc => cases hc
    · rintro ⟨rfl, -⟩
      exact .here hk
  | value active kind k v hk ih => cases he
  | published active kind k v hk hvalue ih =>
    have hmem : k ∈ env := Std.ExtTreeMap.mem_iff_isSome_getElem?.mpr (by simp [hvalue])
    have hname : (name ∈ env ∨ name ∈ k :: active) ↔ (name ∈ env ∨ name ∈ active) := by
      rw [List.mem_cons]
      refine ⟨?_, fun h => h.imp_right .inr⟩
      rintro (h | rfl | h)
      · exact .inl h
      · exact .inl hmem
      · exact .inr h
    rw [evaluate_published hk hvalue, ← hname, ← ih (henv k v hvalue)]
    constructor
    · intro h
      cases h with
      | here h => exact absurd h hk
      | published _ hvalue' h =>
        cases hvalue.symm.trans hvalue'
        exact h
      | child hc => cases hc
    · exact .published hk hvalue
  | unpublished active kind k hk hnone =>
    rw [evaluate_unpublished hk hnone, mentions_symbol]
    have hmem : k ∉ env := fun h => by
      simp [Std.ExtTreeMap.mem_iff_isSome_getElem?, hnone] at h
    constructor
    · intro h
      cases h with
      | here h => exact absurd h hk
      | published _ hvalue => cases hnone.symm.trans hvalue
      | child hc => cases hc
    · rintro ⟨rfl, h | h⟩
      · exact absurd h hmem
      · exact absurd h hk
  | composite active e hname ih =>
    rw [isFree_composite hname] at he
    rw [evaluate_composite hname, mentions_folding_node (by simpa using hname),
      mentions_composite (by simpa using hname), children_mapChildren, List.any_eq_true]
    constructor
    · intro h
      cases h with
      | child hc h =>
        obtain ⟨hmentions, hname⟩ := (ih _ hc (he _ hc)).mp h
        exact ⟨⟨_, List.mem_map_of_mem hc, hmentions⟩, hname⟩
      | _ => cases hname
    · rintro ⟨⟨_, hmapped, hmentions⟩, hname⟩
      obtain ⟨c, hc, rfl⟩ := List.mem_map.mp hmapped
      exact .child hc ((ih c hc (he c hc)).mpr ⟨hmentions, hname⟩)

end Remainder

end Expr

end Formulary
