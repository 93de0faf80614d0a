import Formulary.Proofs.Zone.Digest

/-!
What is shadowed where. Shadowed symbols are nodes, and a later value may refer to one of them from
where nothing shadows it. Bindings to numbers do not, and symbols that are in no value of their name
are never shadowed.
-/

namespace Formulary.Zone

/-- Whether references lead from a node to another one, and none of them is one of a symbol of the
name. -/
def LeadsOutside (z : Zone) (name : String) : NodeId → NodeId → Prop :=
  Relation.ReflTransGen fun x y => ¬ z.Names x name ∧ z.Refers x y

/-- Whether the shadowed symbols of a name that a node leads to outside all values of the name are
bound to a number already. -/
def ShadowsAgree (z : Zone) (name : String) (c : Float) (x : NodeId) : Prop :=
  ∀ y kind bound, z.LeadsOutside name x y → z.record? y = some (.symbol kind name bound true) →
    ∃ i, bound = some i ∧ z.record? i = some (.number c)

section ShadowsAgree

variable {z : Zone} {x : NodeId} {r : Record} {name : String} {c : Float} {kind : SymbolKind}
  {bound : Option NodeId} {shadowed : Bool}

theorem shadowsAgree_iff_of_name? (hr : z.record? x = some r) (hname : r.name? ≠ some name) :
    z.ShadowsAgree name c x ↔ ∀ y ∈ r.references, z.ShadowsAgree name c y := by
  have hunnamed : ¬ z.Names x name := by
    rintro ⟨s, hs, hname'⟩
    obtain rfl := Option.some.inj (hr.symm.trans hs)
    exact hname hname'
  constructor
  · intro h y hy w kind bound hw
    exact h w kind bound (.head ⟨hunnamed, r, hr, hy⟩ hw)
  · intro h w kind bound hw hsymbol
    rcases Relation.ReflTransGen.cases_head hw with rfl | ⟨y, ⟨-, s, hs, hy⟩, hyw⟩
    · exact absurd ⟨_, hsymbol, rfl⟩ hunnamed
    · obtain rfl := Option.some.inj (hr.symm.trans hs)
      exact h y hy w kind bound hyw hsymbol

theorem shadowsAgree_iff_of_symbol (hr : z.record? x = some (.symbol kind name bound shadowed)) :
    z.ShadowsAgree name c x ↔
      (shadowed = true → ∃ i, bound = some i ∧ z.record? i = some (.number c)) := by
  constructor
  · rintro h rfl
    exact h x kind bound .refl hr
  · intro h w kind' bound' hw hsymbol
    rcases Relation.ReflTransGen.cases_head hw with rfl | ⟨y, ⟨hunnamed, -⟩, -⟩
    · cases hr.symm.trans hsymbol
      exact h rfl
    · exact absurd ⟨_, hr, rfl⟩ hunnamed

end ShadowsAgree

/-- Whether a node leads to no shadowed symbol but through values of its name. -/
def Sheltered (z : Zone) (x : NodeId) : Prop :=
  ∀ name y r, z.LeadsOutside name x y → z.record? y = some r → r.name? = some name →
    r.isShadowed = false

section Sheltered

variable {z z' : Zone} {x y id : NodeId} {r : Record} {name n : String} {c : Float}
  {bound : Option NodeId} {scope : List String} {p : Expr}

/-- What references from outside the values of a name keep is so wherever they lead. -/
@[elab_as_elim]
theorem LeadsOutside.keeps {motive : NodeId → Prop} (h : z.LeadsOutside name x y) (hx : motive x)
    (hstep : ∀ a b, ¬ z.Names a name → z.Refers a b → motive a → motive b) : motive y := by
  induction h with
  | refl => exact hx
  | tail _ href ih => exact hstep _ _ href.1 href.2 ih

theorem Sheltered.shadowsAgree (h : z.Sheltered x) (name : String) (c : Float) :
    z.ShadowsAgree name c x := by
  intro y kind bound hy hsymbol
  cases h name y _ hy hsymbol rfl

/-- What the node of an expression refers to is the node of one, which stands in the same values, or
in those and one more: that of the symbol. -/
theorem Represents.exists_of_refers (h : z.Represents scope x p) (href : z.Refers x y) :
    ∃ scope' q, z.Represents scope' y q ∧
      ∀ n, ¬ z.Names x n → n ∈ scope' → n ∈ scope := by
  obtain ⟨s, hs, hdepicts⟩ := represents_iff.mp h
  obtain ⟨r, hr, hy⟩ := href
  obtain rfl := Option.some.inj (hs.symm.trans hr)
  rcases List.mem_append.mp hy with hy | hy
  · obtain ⟨c, -, hc⟩ := hdepicts.exists_of_mem_children hy
    exact ⟨scope, c, hc, fun _ _ hn => hn⟩
  · obtain ⟨kind, name, v, -, hname, hv⟩ := hdepicts.exists_of_bound? (by simpa using hy)
    refine ⟨name :: scope, v, hv, fun n hn hmem => ?_⟩
    refine (List.mem_cons.mp hmem).resolve_left ?_
    rintro rfl
    exact hn ⟨s, hs, hname⟩

/-- In a new formula a symbol is shadowed by the symbols that lead to it. -/
theorem Represents.sheltered (h : z.Represents [] x p) : z.Sheltered x := by
  intro name y r hy hr hname
  have hscope : ∃ scope q, z.Represents scope y q ∧ name ∉ scope := by
    refine hy.keeps ?_ ?_
    · exact ⟨[], p, h, by simp⟩
    · rintro a b hunnamed href ⟨scope, q, hq, hscope⟩
      obtain ⟨scope', q', hq', hsubset⟩ := hq.exists_of_refers href
      exact ⟨scope', q', hq', fun hmem => hscope (hsubset name hunnamed hmem)⟩
  obtain ⟨scope, q, hq, hscope⟩ := hscope
  obtain ⟨s, hs, hdepicts⟩ := represents_iff.mp hq
  obtain rfl := Option.some.inj (hs.symm.trans hr)
  cases hdepicts with
  | symbol kind n hi =>
    obtain rfl : n = name := Option.some.inj hname
    simp [Record.isShadowed, hscope]
  | _ => cases hname

theorem Sheltered.extends (h : z.Sheltered x) (hz : z.Consistent) (hx : x.index < z.size)
    (hextends : z.Extends z') : z'.Sheltered x := by
  intro name y r hy hr hname
  have hold : z.LeadsOutside name x y ∧ y.index < z.size := by
    refine hy.keeps ?_ ?_
    · exact ⟨.refl, hx⟩
    · rintro a b hunnamed ⟨s, hs, hb⟩ ⟨hlead, ha⟩
      rw [hextends.record?_eq ha] at hs
      have href : z.Refers a b := ⟨s, hs, hb⟩
      refine ⟨hlead.tail ⟨?_, href⟩, hz.refers_lt_size href⟩
      rintro ⟨s', hs', hname'⟩
      exact hunnamed ⟨s', hextends.record? hs', hname'⟩
  rw [hextends.record?_eq hold.2] at hr
  exact h name y r hold.1 hr hname

theorem names_setAll : (z.setAll name bound).Names x n ↔ z.Names x n := by
  unfold Names
  rw [record?_setAll]
  cases z.record? x with
  | none => simp
  | some r =>
    simp only [Option.map_some, Option.some.injEq, exists_eq_left']
    split <;> simp

/-- Where the new value leads nowhere, all that is reached was reached before. -/
theorem Sheltered.setAll (h : z.Sheltered x)
    (hbound : ∀ id ∈ bound, ∃ c, z.record? id = some (.number c)) :
    (z.setAll name bound).Sheltered x := by
  intro n y r' hy hr' hname
  have hold : z.LeadsOutside n x y ∨ ∃ c, z.record? y = some (.number c) := by
    refine hy.keeps ?_ ?_
    · exact .inl .refl
    · intro a b hunnamed href ha
      rw [names_setAll] at hunnamed
      rcases refers_of_setAll href with href | ⟨hb, -⟩
      · rcases ha with hlead | ⟨c, ha⟩
        · exact .inl (hlead.tail ⟨hunnamed, href⟩)
        · obtain ⟨s, hs, hb⟩ := href
          obtain rfl := Option.some.inj (ha.symm.trans hs)
          cases hb
      · exact .inr (hbound b hb)
  rw [record?_setAll] at hr'
  obtain ⟨r, hr, rfl⟩ := Option.map_eq_some_iff.mp hr'
  have hname' : r.name? = some n := by
    split at hname
    · rwa [Record.name?_setBound] at hname
    · exact hname
  have hshadowed : r.isShadowed = false := by
    rcases hold with hlead | ⟨c, hy⟩
    · exact h n y r hlead hr hname'
    · obtain rfl := Option.some.inj (hy.symm.trans hr)
      cases hname'
  split
  · rwa [Record.isShadowed_setBound]
  · exact hshadowed

end Sheltered

/-- Whether a zone has no shadowed symbols at all. -/
def Unshadowed (z : Zone) : Prop := ∀ x r, z.record? x = some r → r.isShadowed = false

/-- Whether a step adds no shadowed symbols. -/
def AddsUnshadowed {α : Type} (step : ZoneM α) : Prop :=
  ∀ z : Zone, z.Unshadowed → (leave step z).Unshadowed

section Unshadowed

variable {α β : Type} {z : Zone} {adopt : Bool} {scope : List String} {e : Expr} {name : String}
  {bound : Option NodeId} {r : Record}

theorem Unshadowed.sheltered (h : z.Unshadowed) (x : NodeId) : z.Sheltered x :=
  fun _ y r _ hr _ => h y r hr

theorem Unshadowed.setAll (h : z.Unshadowed) : (z.setAll name bound).Unshadowed := by
  intro x r' hr'
  rw [record?_setAll] at hr'
  obtain ⟨r, hr, rfl⟩ := Option.map_eq_some_iff.mp hr'
  have hshadowed := h x r hr
  split
  · rwa [Record.isShadowed_setBound]
  · exact hshadowed

theorem AddsUnshadowed.pure (a : α) : AddsUnshadowed (pure a) := fun _ h => h

theorem AddsUnshadowed.bind {step : ZoneM α} {next : α → ZoneM β} (hstep : AddsUnshadowed step)
    (hnext : ∀ a, AddsUnshadowed (next a)) : AddsUnshadowed (step >>= next) := by
  intro z hz
  rcases leave_bind_cases step next z with h | ⟨a, h⟩
  · rw [h]
    exact hstep z hz
  · rw [h]
    exact hnext a _ (hstep z hz)

theorem addsUnshadowed_internWith (adopt : Bool) (hr : r.isShadowed = false) :
    AddsUnshadowed (internWith adopt r) := by
  intro z h
  rcases internWith_cases adopt r z with ⟨err, hrun⟩ | ⟨id, -, -, hrun⟩ | ⟨-, -, hrun⟩
  · rwa [leave_of_error hrun]
  · rwa [leave_of_ok hrun]
  · rw [leave_of_ok hrun]
    intro x s hs
    rw [record?_push] at hs
    split at hs
    · cases hs
      exact hr
    · exact h x s hs

theorem addsUnshadowed_insertList {es : List Expr}
    (h : ∀ e ∈ es, AddsUnshadowed (insertIn adopt scope e)) :
    AddsUnshadowed (insertList adopt scope es) := by
  induction es with
  | nil => exact .pure []
  | cons e es ih =>
    refine (h e (by simp)).bind fun id => ?_
    exact (ih fun f hf => h f (by simp [hf])).bind fun ids => .pure (id :: ids)

theorem addsUnshadowed_insertIn (adopt : Bool)
    (h : ∀ inner kind n bound, Expr.Occurs inner (.symbol kind n bound) scope e → n ∉ inner) :
    AddsUnshadowed (insertIn adopt scope e) := by
  induction e generalizing scope with
  | number x => exact addsUnshadowed_internWith adopt rfl
  | symbol kind name bound ih =>
    have hname : name ∉ scope := h _ _ _ _ .here
    have hbound : AddsUnshadowed (insertBound adopt (name :: scope) bound) := by
      cases bound with
      | none => exact .pure none
      | some v =>
        have hv := ih v rfl fun inner kind n bound hsymbol => h inner kind n bound (.value hsymbol)
        exact hv.bind fun i => .pure (some i)
    exact hbound.bind fun i => addsUnshadowed_internWith adopt (by simp [Record.isShadowed, hname])
  | term c a x ihc iha ihx =>
    have hc := ihc fun _ _ _ _ hp => h _ _ _ _ (.child (by simp [Expr.children]) hp)
    have ha := iha fun _ _ _ _ hp => h _ _ _ _ (.child (by simp [Expr.children]) hp)
    have hx := ihx fun _ _ _ _ hp => h _ _ _ _ (.child (by simp [Expr.children]) hp)
    exact hc.bind fun _ => ha.bind fun _ => hx.bind fun _ => addsUnshadowed_internWith adopt rfl
  | unary op e ih =>
    have he := ih fun _ _ _ _ hp => h _ _ _ _ (.child (by simp [Expr.children]) hp)
    exact he.bind fun _ => addsUnshadowed_internWith adopt rfl
  | binary op l r ihl ihr =>
    have hl := ihl fun _ _ _ _ hp => h _ _ _ _ (.child (by simp [Expr.children]) hp)
    have hr := ihr fun _ _ _ _ hp => h _ _ _ _ (.child (by simp [Expr.children]) hp)
    exact hl.bind fun _ => hr.bind fun _ => addsUnshadowed_internWith adopt rfl
  | nary op es ih | call name es ih =>
    have hes (e) (he : e ∈ es) := ih e he fun _ _ _ _ hp => h _ _ _ _ (.child he hp)
    exact (addsUnshadowed_insertList hes).bind fun _ => addsUnshadowed_internWith adopt rfl

theorem addsUnshadowed_of_uses (adopt : Bool) (h : ∀ u ∈ e.uses, u.shadowed = false) :
    AddsUnshadowed (insertIn adopt [] e) := by
  refine addsUnshadowed_insertIn adopt fun inner kind n bound hsymbol => ?_
  simpa using h _ hsymbol.mem_uses

end Unshadowed

end Formulary.Zone
