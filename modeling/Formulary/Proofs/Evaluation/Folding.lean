import Formulary.Proofs.Decimal.Identities
import Formulary.Proofs.Evaluation.Composite

/-!
What folding makes of one node whose children are evaluated: a number if all children are numbers
that have a value together, else the node itself, where a sum or a product has its numbers merged
into one. Such a node is reduced, and a reduced node is not changed by folding.
-/

namespace Formulary

section Arity

variable {f : Builtin} {xs : List Float}

/-- A function has a value exactly if it is given as many numbers as it accepts. -/
theorem Builtin.evaluate?_isSome (hf : f ∈ all) (xs : List Float) :
    (f.evaluate? xs).isSome = f.arity.accepts xs.length := by
  have hunary (name : String) (g : Float → Float) :
      ((ofUnary name g).evaluate? xs).isSome = (ofUnary name g).arity.accepts xs.length := by
    rcases xs with _ | ⟨x, _ | ⟨y, xs⟩⟩ <;> simp [ofUnary, Arity.accepts]
  have hmerge (name : String) (g : Float → Float → Float) :
      ((ofMerge name g).evaluate? xs).isSome = (ofMerge name g).arity.accepts xs.length := by
    cases xs <;> simp [ofMerge, merge?, Arity.accepts]
  have hlogarithm : (logarithm? xs).isSome = Arity.accepts ⟨1, some 2⟩ xs.length := by
    rcases xs with _ | ⟨x, _ | ⟨y, _ | ⟨z, xs⟩⟩⟩ <;> simp [logarithm?, Arity.accepts]
  revert f
  simp only [all, List.forall_mem_cons, hunary, hmerge, hlogarithm, List.not_mem_nil,
    false_implies, implies_true, and_self]

end Arity

namespace Expr

section Numbers

variable {e : Expr} {es : List Expr} {x : Float} {xs : List Float}

theorem number?_eq_some_iff : e.number? = some x ↔ e = .number x := by
  cases e <;> simp [number?]

theorem mapM_number?_eq_some_iff : es.mapM number? = some xs ↔ es = xs.map .number := by
  induction es generalizing xs with
  | nil => cases xs <;> simp
  | cons e es ih =>
    cases xs <;> simp [List.mapM_cons, Option.bind_eq_some_iff, number?_eq_some_iff, ih]

theorem mapM_number?_eq_none_iff : es.mapM number? = none ↔ ∃ e ∈ es, e.number? = none := by
  induction es with
  | nil => simp
  | cons e es ih =>
    rw [List.exists_mem_cons_iff, ← ih]
    cases he : e.number? <;> cases hes : es.mapM number? <;> simp [List.mapM_cons, he, hes]

end Numbers

/-- Sums and products of lists. Their numbers are merged, so their elements change places. -/
def merges : Expr → Bool
  | .nary .sum _ | .nary .product _ => true
  | _ => false

/-- Whether the numbers of a list are merged: other elements are left, and one number at most, which
is not the identity and is placed as given. -/
def Gathered (identity : Float) (place : Float → List Expr → List Expr) (es : List Expr) : Prop :=
  ∃ rest, rest ≠ [] ∧ (∀ e ∈ rest, e.number? = none) ∧
    (es = rest ∨ ∃ x, (x == identity) = false ∧ es = place x rest)

/-- Whether nothing is left to do at a node itself. -/
def Reduced (env : Environment) : Expr → Prop
  | .number _ => True
  | .symbol _ name bound => bound = none ∧ env[name]? = none
  | .term c a x => c.number? = none ∨ a.number? = none ∨ x.number? = none
  | .unary _ e => e.number? = none
  | .binary op l r => op.kind = .equality ∨ l.number? = none ∨ r.number? = none
  | .nary .sum es => Gathered 0 (fun x rest => rest ++ [.number x]) es
  | .nary .product es => Gathered 1 (fun x rest => .number x :: rest) es
  | .nary .sequence _ => True
  | .call name args =>
    ∀ f, Builtin.find? name = some f → f.arity.accepts args.length = true →
      ∃ e ∈ args, e.number? = none

section Fold

variable {env : Environment} {active : List String} {e c : Expr} {es rest : List Expr} {op : NaryOp}
  {x identity : Float} {merge : Float → Float → Float}

/-- A node that merges nothing is folded only if all its children are numbers. -/
theorem folding_node_cases (h : e.merges = false) :
    Assembly.folding.node e = e ∨
      (∃ x, Assembly.folding.node e = .number x) ∧ ∀ c ∈ e.children, ∃ x, c = .number x := by
  cases e with
  | number | symbol => exact .inl rfl
  | term c a x =>
    change Fold.term c a x = _ ∨ (∃ y, Fold.term c a x = _) ∧ _
    unfold Fold.term
    split
    · exact .inr ⟨⟨_, rfl⟩, by simp [children]⟩
    · exact .inl rfl
  | unary op e =>
    change Fold.unary op e = _ ∨ (∃ y, Fold.unary op e = _) ∧ _
    unfold Fold.unary
    split
    · exact .inr ⟨⟨_, rfl⟩, by simp [children]⟩
    · exact .inl rfl
  | binary op l r =>
    change Fold.binary op l r = _ ∨ (∃ y, Fold.binary op l r = _) ∧ _
    unfold Fold.binary
    split
    · split
      · exact .inr ⟨⟨_, rfl⟩, by simp [children]⟩
      · exact .inl rfl
    · exact .inl rfl
  | nary op es =>
    cases op with
    | sequence => exact .inl rfl
    | sum | product => cases h
  | call name args =>
    change Fold.call name args = _ ∨ (∃ y, Fold.call name args = _) ∧ _
    unfold Fold.call
    split
    · rename_i xs f hxs hf
      split
      · refine .inr ⟨⟨_, rfl⟩, ?_⟩
        rw [mapM_number?_eq_some_iff] at hxs
        simp [children, hxs]
      · exact .inl rfl
    · exact .inl rfl

theorem numbers_eq_nil (h : ∀ e ∈ rest, e.number? = none) : Fold.numbers rest = [] :=
  List.filterMap_eq_nil_iff.mpr h

theorem symbolic_eq_self (h : ∀ e ∈ rest, e.number? = none) : Fold.symbolic rest = rest :=
  List.filter_eq_self.mpr fun e he => by rw [h e he]; rfl

theorem mem_symbolic : e ∈ Fold.symbolic es ↔ e ∈ es ∧ e.number? = none := by
  simp [Fold.symbolic]

theorem numbers_place (h : ∀ e ∈ rest, e.number? = none) :
    Fold.numbers (Fold.place op x rest) = [x] := by
  have hnumbers := numbers_eq_nil h
  cases op with
  | product => exact congrArg (x :: ·) hnumbers
  | sum | sequence => exact List.filterMap_append.trans (by rw [← Fold.numbers, hnumbers]; rfl)

theorem symbolic_place (h : ∀ e ∈ rest, e.number? = none) :
    Fold.symbolic (Fold.place op x rest) = rest := by
  have hsymbolic := symbolic_eq_self h
  cases op with
  | product => exact hsymbolic
  | sum | sequence =>
    refine (List.filter_append ..).trans ?_
    rw [← Fold.symbolic, hsymbolic]
    exact List.append_nil _

/-- The numbers of a list are merged, or there is nothing but numbers. -/
theorem nary_cases (hop : op.merging? = some (identity, merge)) (es : List Expr) :
    (∃ x, Fold.nary op es = .number x) ∨
      ∃ es', Fold.nary op es = .nary op es' ∧ Gathered identity (Fold.place op) es' ∧
        ∀ c ∈ es', c ∈ es ∨ ∃ x, c = .number x := by
  have hrest : ∀ e ∈ Fold.symbolic es, e.number? = none := fun e he => (mem_symbolic.mp he).2
  have hmem : ∀ e ∈ Fold.symbolic es, e ∈ es ∨ ∃ x, e = .number x :=
    fun e he => .inl (mem_symbolic.mp he).1
  unfold Fold.nary
  rw [hop]
  simp only
  split
  · exact .inl ⟨_, rfl⟩
  · rename_i hne
    rw [List.isEmpty_iff] at hne
    split
    · exact .inr ⟨_, rfl, ⟨_, hne, hrest, .inl rfl⟩, hmem⟩
    · rename_i hx
      refine .inr ⟨_, rfl, ⟨_, hne, hrest, .inr ⟨_, by simpa using hx, rfl⟩⟩, ?_⟩
      cases op <;> simpa [Fold.place, or_imp, forall_and] using hmem

theorem nary_eq_self_iff (hop : op.merging? = some (identity, merge))
    (hidentity : (identity == identity) = true)
    (hmerge : ∀ x : Float, (x == identity) = false → merge identity x = x) (es : List Expr) :
    Fold.nary op es = .nary op es ↔ Gathered identity (Fold.place op) es := by
  constructor
  · intro h
    rcases nary_cases hop es with ⟨x, hx⟩ | ⟨es', hes', hgathered, -⟩
    · cases hx.symm.trans h
    · cases hes'.symm.trans h
      exact hgathered
  · rintro ⟨rest, hne, hrest, rfl | ⟨x, hx, rfl⟩⟩
    · unfold Fold.nary
      rw [hop]
      simp [numbers_eq_nil hrest, symbolic_eq_self hrest, hne, hidentity]
    · unfold Fold.nary
      rw [hop]
      simp [numbers_place hrest, symbolic_place hrest, hne, hmerge x hx, hx]

theorem call_eq_self_iff (name : String) (args : List Expr) :
    Fold.call name args = .call name args ↔
      ∀ f, Builtin.find? name = some f → f.arity.accepts args.length = true →
        ∃ e ∈ args, e.number? = none := by
  unfold Fold.call
  split
  · rename_i xs f hxs hf
    have hlength : args.length = xs.length := by
      rw [mapM_number?_eq_some_iff] at hxs
      simp [hxs]
    have hsome := Builtin.evaluate?_isSome (List.mem_of_find?_eq_some hf) xs
    rw [← hlength] at hsome
    split
    · rename_i x hx
      rw [hx] at hsome
      refine iff_of_false nofun fun h => ?_
      have hnone := mapM_number?_eq_none_iff.mpr (h f hf hsome.symm)
      cases hxs.symm.trans hnone
    · rename_i hnone
      rw [hnone] at hsome
      refine iff_of_true rfl fun g hg haccepts => ?_
      cases hf.symm.trans hg
      cases hsome.trans haccepts
  · rename_i hne
    refine iff_of_true rfl fun f hf _ => mapM_number?_eq_none_iff.mp ?_
    cases hxs : args.mapM number? with
    | none => rfl
    | some xs => exact (hne xs f hxs hf).elim

end Fold

end Expr

end Formulary
