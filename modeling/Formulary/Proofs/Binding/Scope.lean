import Formulary.Expr.Equality
import Formulary.Proofs.Binding.Bare

/-!
Where the parts of an expression stand. A part stands in the values of symbols, and a symbol is
shadowed if one of these has its name. Where symbols of one name and one shadow mark have one value,
a value means the same wherever it stands: none of its symbols is shadowed in one place and open in
another.
-/

namespace Formulary.Expr

/-- Whether `p` stands somewhere in an expression that stands in the values of symbols of the names
`scope`. Those that `p` itself stands in are `inner`. -/
inductive Occurs (inner : List String) (p : Expr) : List String → Expr → Prop
  | here : Occurs inner p inner p
  | child {scope : List String} {e c : Expr} (hc : c ∈ e.children) (h : Occurs inner p scope c) :
      Occurs inner p scope e
  | value {scope : List String} {kind : SymbolKind} {name : String} {v : Expr}
      (h : Occurs inner p (name :: scope) v) : Occurs inner p scope (.symbol kind name (some v))

mutual

/-- All parts of an expression, each with the names of the symbols in whose values it stands. -/
def occurrences (scope : List String) : Expr → List (List String × Expr)
  | .number x => [(scope, .number x)]
  | .symbol kind name bound =>
    (scope, .symbol kind name bound) :: occurrencesBound (name :: scope) bound
  | .term c a x =>
    (scope, .term c a x) :: (occurrences scope c ++ occurrences scope a ++ occurrences scope x)
  | .unary op e => (scope, .unary op e) :: occurrences scope e
  | .binary op l r => (scope, .binary op l r) :: (occurrences scope l ++ occurrences scope r)
  | .nary op es => (scope, .nary op es) :: occurrencesList scope es
  | .call name es => (scope, .call name es) :: occurrencesList scope es

def occurrencesBound (scope : List String) : Option Expr → List (List String × Expr)
  | none => []
  | some e => occurrences scope e

def occurrencesList (scope : List String) : List Expr → List (List String × Expr)
  | [] => []
  | e :: es => occurrences scope e ++ occurrencesList scope es

end

/-- A symbol of an expression. It is shadowed if it stands in the value of a symbol of its name. -/
structure Use where
  kind : SymbolKind
  name : String
  bound : Option Expr
  shadowed : Bool
  deriving DecidableEq

def use? : List String × Expr → Option Use
  | (scope, .symbol kind name bound) => some ⟨kind, name, bound, decide (name ∈ scope)⟩
  | _ => none

/-- All symbols of an expression, with those in values. -/
def uses (e : Expr) : List Use := (e.occurrences []).filterMap use?

/-- Whether every name is that of symbols of one kind. -/
def OneKind (e : Expr) : Prop :=
  ∀ u ∈ e.uses, ∀ u' ∈ e.uses, u.name = u'.name → u.kind = u'.kind

/-- Whether all symbols of one name that are shadowed, and all that are not, have one value, or
none. -/
def Coherent (e : Expr) : Prop :=
  ∀ u ∈ e.uses, ∀ u' ∈ e.uses, u.name = u'.name → u.shadowed = u'.shadowed → u.bound = u'.bound

instance (e : Expr) : Decidable e.OneKind := by
  unfold OneKind
  infer_instance

instance (e : Expr) : Decidable e.Coherent := by
  unfold Coherent
  infer_instance

section Occurs

variable {inner mid scope scope' : List String} {p q e c v : Expr} {es : List Expr}
  {kind kind' : SymbolKind} {name n : String} {bound bound' : Option Expr}

theorem mem_occurrencesList {o : List String × Expr} :
    o ∈ occurrencesList scope es ↔ ∃ e ∈ es, o ∈ occurrences scope e := by
  induction es with
  | nil => simp [occurrencesList]
  | cons e es ih => simp [occurrencesList, ih]

theorem mem_occurrences_self (scope : List String) (e : Expr) :
    (scope, e) ∈ occurrences scope e := by
  cases e <;> simp [occurrences]

theorem occurrences_subset_of_mem_children (hc : c ∈ e.children) :
    occurrences scope c ⊆ occurrences scope e := by
  intro o ho
  cases e with
  | number | symbol => cases hc
  | term c a x =>
    simp only [children, List.mem_cons, List.not_mem_nil, or_false] at hc
    rcases hc with rfl | rfl | rfl <;> simp [occurrences, ho]
  | unary op e =>
    obtain rfl := List.mem_singleton.mp hc
    simp [occurrences, ho]
  | binary op l r =>
    simp only [children, List.mem_cons, List.not_mem_nil, or_false] at hc
    rcases hc with rfl | rfl <;> simp [occurrences, ho]
  | nary op es | call name es =>
    exact List.mem_cons_of_mem _ (mem_occurrencesList.mpr ⟨c, hc, ho⟩)

theorem mem_occurrences_iff : (inner, p) ∈ occurrences scope e ↔ Occurs inner p scope e := by
  constructor
  · intro h
    induction e generalizing scope with
    | number x =>
      cases List.mem_singleton.mp h
      exact .here
    | symbol kind name bound ih =>
      rcases List.mem_cons.mp h with h | h
      · cases h
        exact .here
      · cases bound with
        | none => cases h
        | some v => exact .value (ih v rfl h)
    | term c a x ihc iha ihx =>
      simp only [occurrences, List.mem_cons, List.mem_append] at h
      rcases h with h | (h | h) | h
      · cases h
        exact .here
      · exact .child (by simp [children]) (ihc h)
      · exact .child (by simp [children]) (iha h)
      · exact .child (by simp [children]) (ihx h)
    | unary op e ih =>
      rcases List.mem_cons.mp h with h | h
      · cases h
        exact .here
      · exact .child (by simp [children]) (ih h)
    | binary op l r ihl ihr =>
      simp only [occurrences, List.mem_cons, List.mem_append] at h
      rcases h with h | h | h
      · cases h
        exact .here
      · exact .child (by simp [children]) (ihl h)
      · exact .child (by simp [children]) (ihr h)
    | nary op es ih | call name es ih =>
      rcases List.mem_cons.mp h with h | h
      · cases h
        exact .here
      · obtain ⟨e, he, h⟩ := mem_occurrencesList.mp h
        exact .child he (ih e he h)
  · intro h
    induction h with
    | here => exact mem_occurrences_self inner p
    | child hc _ ih => exact occurrences_subset_of_mem_children hc ih
    | value _ ih => exact List.mem_cons_of_mem _ ih

theorem Occurs.mem_uses (h : Occurs scope (.symbol kind name bound) [] e) :
    ⟨kind, name, bound, decide (name ∈ scope)⟩ ∈ e.uses :=
  List.mem_filterMap.mpr ⟨_, mem_occurrences_iff.mpr h, rfl⟩

theorem exists_occurs_of_mem_uses {u : Use} (h : u ∈ e.uses) :
    ∃ scope, u.shadowed = decide (u.name ∈ scope) ∧
      Occurs scope (.symbol u.kind u.name u.bound) [] e := by
  obtain ⟨⟨scope, p⟩, hp, huse⟩ := List.mem_filterMap.mp h
  cases p with
  | symbol =>
    cases huse
    exact ⟨scope, rfl, mem_occurrences_iff.mp hp⟩
  | _ => cases huse

theorem Occurs.trans (h : Occurs inner p mid q) (h' : Occurs mid q scope e) :
    Occurs inner p scope e := by
  induction h' with
  | here => exact h
  | child hc _ ih => exact .child hc ih
  | value _ ih => exact .value ih

theorem Occurs.of_mem_children (h : Occurs mid q scope e) (hc : c ∈ q.children) :
    Occurs mid c scope e :=
  (Occurs.child hc .here).trans h

/-- Where the whole stands makes no difference to where a part stands in it. -/
theorem Occurs.shift (h : Occurs inner p scope e) :
    ∃ names, inner = names ++ scope ∧ ∀ scope', Occurs (names ++ scope') p scope' e := by
  induction h with
  | here => exact ⟨[], rfl, fun _ => .here⟩
  | child hc _ ih =>
    obtain ⟨names, rfl, h⟩ := ih
    exact ⟨names, rfl, fun scope' => .child hc (h scope')⟩
  | @value scope kind name v _ ih =>
    obtain ⟨names, rfl, h⟩ := ih
    refine ⟨names ++ [name], by simp, fun scope' => .value ?_⟩
    rw [List.append_assoc]
    exact h (name :: scope')

theorem Occurs.sizeOf_le (h : Occurs inner p scope e) : sizeOf p ≤ sizeOf e := by
  induction h with
  | here => exact Nat.le_refl _
  | child hc _ ih => exact Nat.le_trans ih (Nat.le_of_lt (sizeOf_lt_of_mem_children hc))
  | value _ ih => exact Nat.le_trans ih (Nat.le_of_lt (sizeOf_value_lt ..))

/-- A part that stands in the value of a symbol stands in that of an open symbol of its name: the
outermost one. -/
theorem Occurs.exists_binder (h : Occurs inner p scope e) (hn : n ∈ inner) :
    n ∈ scope ∨ ∃ outer kind v, n ∉ outer ∧ Occurs outer (.symbol kind n (some v)) scope e ∧
      Occurs inner p (n :: outer) v := by
  induction h with
  | here => exact .inl hn
  | child hc _ ih =>
    rcases ih with hn | ⟨outer, kind, v, hopen, hsymbol, hp⟩
    · exact .inl hn
    · exact .inr ⟨outer, kind, v, hopen, .child hc hsymbol, hp⟩
  | @value scope kind name v hp ih =>
    rcases ih with hn | ⟨outer, kind, v, hopen, hsymbol, hp⟩
    · by_cases hscope : n ∈ scope
      · exact .inl hscope
      · obtain rfl : n = name := by simpa [hscope] using hn
        exact .inr ⟨scope, kind, v, hscope, .here, hp⟩
    · exact .inr ⟨outer, kind, v, hopen, .value hsymbol, hp⟩

theorem Coherent.bound_eq (he : e.Coherent) (h : Occurs scope (.symbol kind name bound) [] e)
    (h' : Occurs scope' (.symbol kind' name bound') [] e) (hscope : name ∈ scope ↔ name ∈ scope') :
    bound = bound' :=
  he _ h.mem_uses _ h'.mem_uses rfl (decide_eq_decide.mpr hscope)

/-- Whether an expression has a symbol of the name that is not shadowed in it. -/
def HasOpen (name : String) (e : Expr) : Prop :=
  ∃ scope kind bound, name ∉ scope ∧ Occurs scope (.symbol kind name bound) [] e

theorem HasOpen.child (h : c.HasOpen n) (hc : c ∈ e.children) : e.HasOpen n := by
  obtain ⟨scope, kind, bound, hscope, hsymbol⟩ := h
  exact ⟨scope, kind, bound, hscope, .child hc hsymbol⟩

theorem HasOpen.value (h : v.HasOpen n) (hname : n ≠ name) :
    (Expr.symbol kind name (some v)).HasOpen n := by
  obtain ⟨scope, k, bound, hscope, hsymbol⟩ := h
  obtain ⟨names, rfl, hshift⟩ := hsymbol.shift
  refine ⟨names ++ [name], k, bound, ?_, .value (hshift [name])⟩
  simpa [hname] using hscope

theorem hasOpen_symbol (kind : SymbolKind) (name : String) (bound : Option Expr) :
    (Expr.symbol kind name bound).HasOpen name :=
  ⟨[], kind, bound, by simp, .here⟩

/-- An open symbol of a value that stands in two places is shadowed in both or in neither. If it
were shadowed in one of them only, it would have, in the other one, the value of the symbol that
shadows it, and this value has the whole in it. -/
theorem Coherent.mem_of_mem (he : e.Coherent) (h : Occurs scope (.symbol kind name (some v)) [] e)
    (h' : Occurs scope' (.symbol kind' name (some v)) [] e) (hv : v.HasOpen n) (hname : n ≠ name)
    (hn : n ∈ scope) : n ∈ scope' := by
  refine Decidable.byContradiction fun hscope' => ?_
  obtain ⟨names, k, bound, hnames, hsymbol⟩ := hv
  obtain ⟨_, rfl, hshift⟩ := hsymbol.shift
  rw [List.append_nil] at hnames
  have hopen : Occurs _ (.symbol k n bound) [] e := ((hshift (name :: scope')).value).trans h'
  rcases h.exists_binder hn with hnil | ⟨outer, k', w, houter, hbinder, hinside⟩
  · cases hnil
  have hbound : bound = some w := by
    refine he.bound_eq hopen hbinder (iff_of_false ?_ houter)
    simp [hnames, hname, hscope']
  subst hbound
  have hlt : sizeOf w < sizeOf v :=
    Nat.lt_of_lt_of_le (sizeOf_value_lt k n w) hsymbol.sizeOf_le
  have hgt : sizeOf v < sizeOf w :=
    Nat.lt_of_lt_of_le (sizeOf_value_lt kind name v) hinside.sizeOf_le
  exact Nat.lt_asymm hlt hgt

end Occurs

end Formulary.Expr
