import Formulary.Proofs.Zone.Unfolding

/-!
Trees and values of the nodes of a sound zone. The tree of a node is what the node spells, with the
values in it that are published; so the node evaluates to what the expression that it spells
evaluates to in the environment.
-/

namespace Formulary.Zone

section Build

variable {z : Zone} {env : Environment} {active : List String} {name : String}
  {x y id : NodeId} {ids : List NodeId} {depth : Nat} {e : Expr} {es : List Expr} {r : Record}

theorem refers_of_mem_children {c : NodeId} (hr : z.record? id = some r) (hc : c ∈ r.children) :
    z.Refers id c :=
  ⟨r, hr, List.mem_append_left _ hc⟩

theorem record?_of_outline? (h : z.outline? id = some r) (hname : r.name? = none) :
    z.record? id = some r := by
  obtain ⟨r', hr', rfl⟩ := Option.map_eq_some_iff.mp h
  rw [hr']
  cases r' with
  | symbol => cases hname
  | _ => rfl

theorem exists_record?_of_outline? {kind : SymbolKind} {name : String} {shadowed : Bool}
    (h : z.outline? id = some (.symbol kind name none shadowed)) :
    ∃ bound, z.record? id = some (.symbol kind name bound shadowed) := by
  obtain ⟨r, hr, houtline⟩ := Option.map_eq_some_iff.mp h
  rw [hr]
  cases r with
  | symbol kind' name' bound shadowed' =>
    cases houtline
    exact ⟨bound, rfl⟩
  | _ => cases houtline

/-- What a node refers to leads to fewer nodes, for it does not lead back. -/
theorem Sound.rank_lt (hz : z.Sound env) (href : z.Refers x y) : z.rank y < z.rank x :=
  Zone.rank_lt href (hz.not_refers_of_leadsTo href)

/-- Whether no symbol of a name that is being resolved, and that has a value, is ahead. -/
def Guarded (z : Zone) (active : List String) (id : NodeId) : Prop :=
  ∀ name ∈ active, ∀ y i, z.LeadsTo id y → ¬ z.Binds y name i

theorem guarded_nil : z.Guarded [] id := by
  intro name hname
  cases hname

theorem Guarded.of_refers (h : z.Guarded active x) (href : z.Refers x y) :
    z.Guarded active y :=
  fun name hname p i hp => h name hname p i (.head href hp)

/-- The value of a symbol does not lead back to it. -/
theorem Guarded.of_binds (h : z.Guarded active x) (hz : z.Sound env) (hx : z.Binds x name id) :
    z.Guarded (name :: active) id := by
  intro n hn y i hy
  rcases List.mem_cons.mp hn with rfl | hn
  · exact hz.acyclic hx hy
  · exact h.of_refers hx.refers n hn y i hy

/-- Whether a node has a tree, which is the given expression but for published values in it. -/
def BuildsPublished (env : Environment) (z : Zone) (active : List String) (depth : Nat)
    (id : NodeId) (e : Expr) : Prop :=
  ∃ t, z.build? depth id = some t ∧ t.bare = e ∧ Expr.Published env active t

theorem exists_mapM_of_spellsAll
    (hbuild : ∀ i ∈ ids, ∀ e, z.Spells i e → BuildsPublished env z active depth i e)
    (h : z.SpellsAll ids es) :
    ∃ ts, ids.mapM (z.build? depth) = some ts ∧ ts.map Expr.bare = es ∧
      ∀ t ∈ ts, Expr.Published env active t := by
  induction es generalizing ids with
  | nil =>
    obtain rfl := h
    exact ⟨[], rfl, rfl, by simp⟩
  | cons e es ih =>
    obtain ⟨i, is, rfl, he, hes⟩ := h
    obtain ⟨t, ht, rfl, hpublished⟩ := hbuild i (by simp) e he
    obtain ⟨ts, hts, rfl, hall⟩ := ih (fun j hj => hbuild j (by simp [hj])) hes
    have hmapM : (i :: is).mapM (z.build? depth) = some (t :: ts) := by
      simp [List.mapM_cons, ht, hts]
    exact ⟨t :: ts, hmapM, rfl, List.forall_mem_cons.mpr ⟨hpublished, hall⟩⟩

/-- A symbol has a tree if its value has one. Its name is not being resolved then. -/
theorem Sound.buildsPublished_symbol {kind : SymbolKind} (hz : z.Sound env)
    (h : z.outline? id = some (.symbol kind name none false)) (hactive : z.Guarded active id)
    (hvalue : ∀ {i v}, z.Binds id name i → z.Spells i v →
      BuildsPublished env z (name :: active) depth i v) :
    BuildsPublished env z active (depth + 1) id (.symbol kind name none) := by
  obtain ⟨bound, hr⟩ := exists_record?_of_outline? h
  rw [BuildsPublished, build?, hr]
  cases bound with
  | none => exact ⟨.symbol kind name none, rfl, rfl, trivial⟩
  | some i =>
    have hbinds : z.Binds id name i := ⟨_, hr, rfl, rfl⟩
    have hname : name ∉ active := fun hname => hactive name hname id i .refl hbinds
    obtain ⟨v, hpublished, hv⟩ := hz.published hbinds
    obtain ⟨t, ht, rfl, htree⟩ := hvalue hbinds hv
    exact ⟨.symbol kind name (some t), by simp [Record.assemble?, ht], rfl,
      hname, hpublished, htree⟩

/-- Every node has a tree, which is what it spells but for the values in it; and these are published
for the names that they stand for. -/
theorem Sound.buildsPublished (hz : z.Sound env) (h : z.Spells id e)
    (hactive : z.Guarded active id) (hdepth : z.rank id ≤ depth) :
    BuildsPublished env z active depth id e := by
  induction depth generalizing active id e with
  | zero => exact absurd hdepth (Nat.not_le_of_lt (rank_pos h.lt_size))
  | succ depth ih =>
    have hrank {i : NodeId} (href : z.Refers id i) : z.rank i ≤ depth :=
      Nat.le_of_lt_succ (Nat.lt_of_lt_of_le (hz.rank_lt href) hdepth)
    have hstep {i : NodeId} {f : Expr} (href : z.Refers id i) (hf : z.Spells i f) :
        BuildsPublished env z active depth i f :=
      ih hf (hactive.of_refers href) (hrank href)
    cases e with
    | number x =>
      rw [BuildsPublished, build?, record?_of_outline? h rfl]
      exact ⟨.number x, rfl, rfl, trivial⟩
    | symbol kind name bound =>
      obtain ⟨rfl, h⟩ := h
      refine hz.buildsPublished_symbol h hactive fun hbinds hv => ?_
      exact ih hv (hactive.of_binds hz hbinds) (hrank hbinds.refers)
    | term c a x =>
      obtain ⟨i, j, k, h, hc, ha, hx⟩ := h
      have hr := record?_of_outline? h rfl
      obtain ⟨c, htc, rfl, hpc⟩ := hstep (refers_of_mem_children hr (by simp [Record.children])) hc
      obtain ⟨a, hta, rfl, hpa⟩ := hstep (refers_of_mem_children hr (by simp [Record.children])) ha
      obtain ⟨x, htx, rfl, hpx⟩ := hstep (refers_of_mem_children hr (by simp [Record.children])) hx
      rw [BuildsPublished, build?, hr]
      exact ⟨.term c a x, by simp [Record.assemble?, htc, hta, htx], rfl, hpc, hpa, hpx⟩
    | unary op e =>
      obtain ⟨i, h, he⟩ := h
      have hr := record?_of_outline? h rfl
      obtain ⟨e, hte, rfl, hpe⟩ := hstep (refers_of_mem_children hr (by simp [Record.children])) he
      rw [BuildsPublished, build?, hr]
      exact ⟨.unary op e, by simp [Record.assemble?, hte], rfl, hpe⟩
    | binary op l r =>
      obtain ⟨i, j, h, hl, hr'⟩ := h
      have hr := record?_of_outline? h rfl
      obtain ⟨l, htl, rfl, hpl⟩ := hstep (refers_of_mem_children hr (by simp [Record.children])) hl
      obtain ⟨r, htr, rfl, hpr⟩ := hstep (refers_of_mem_children hr (by simp [Record.children])) hr'
      rw [BuildsPublished, build?, hr]
      exact ⟨.binary op l r, by simp [Record.assemble?, htl, htr], rfl, hpl, hpr⟩
    | nary op es =>
      obtain ⟨ids, h, hes⟩ := h
      have hr := record?_of_outline? h rfl
      obtain ⟨es, htes, rfl, hpes⟩ := exists_mapM_of_spellsAll
        (fun i (hi : i ∈ ids) e he => hstep (refers_of_mem_children hr hi) he) hes
      rw [BuildsPublished, build?, hr]
      exact ⟨.nary op es, by simp [Record.assemble?, htes], by simp [Expr.bare],
        Expr.publishedList_iff.mpr hpes⟩
    | call name es =>
      obtain ⟨ids, h, hes⟩ := h
      have hr := record?_of_outline? h rfl
      obtain ⟨es, htes, rfl, hpes⟩ := exists_mapM_of_spellsAll
        (fun i (hi : i ∈ ids) e he => hstep (refers_of_mem_children hr hi) he) hes
      rw [BuildsPublished, build?, hr]
      exact ⟨.call name es, by simp [Record.assemble?, htes], by simp [Expr.bare],
        Expr.publishedList_iff.mpr hpes⟩

theorem Sound.evaluate_eq (hz : z.Sound env) (h : z.Spells id e) (a : Assembly) :
    z.evaluate a env id = .ok (e.evaluate a env []) := by
  obtain ⟨t, ht, rfl, hpublished⟩ := hz.buildsPublished h guarded_nil (z.rank_le_size id)
  rw [evaluate_of_build? a env ht h.lt_size, hpublished.evaluate_eq]

theorem Sound.exists_toExpr (hz : z.Sound env) (h : z.Spells id e) :
    ∃ t, z.toExpr id = .ok t ∧ t.bare = e := by
  obtain ⟨t, ht, hbare, -⟩ := hz.buildsPublished h guarded_nil (z.rank_le_size id)
  refine ⟨t, ?_, hbare⟩
  rw [toExpr, ht]
  exact if_pos h.lt_size

end Build

end Formulary.Zone
