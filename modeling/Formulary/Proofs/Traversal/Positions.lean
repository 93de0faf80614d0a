import Mathlib.Data.Set.Card
import Formulary.Proofs.Traversal.PostOrder

/-!
Where the nodes of a tree are. A walk comes to every path that leads to a node of the tree, to each
just once, and to a path only after all that go on from it.
-/

namespace Formulary.Expr

/-- The node that child numbers lead to from the root of a tree, the last step first. -/
def at? (e : Expr) : List Nat → Option Expr
  | [] => some e
  | i :: path => (e.at? path).bind fun parent => parent.children[i]?

section Places

variable {e : Expr} {es : List Expr} {path t : List Nat} {i j start : Nat} {p : Place}

theorem at?_append_singleton (e : Expr) (path : List Nat) (i : Nat) :
    e.at? (path ++ [i]) = e.children[i]?.bind fun c => c.at? path := by
  induction path with
  | nil => cases h : e.children[i]? <;> simp [at?, h]
  | cons j path ih =>
    rw [List.cons_append, at?, ih, Option.bind_assoc]
    rfl

theorem mem_placesFromAll_iff : p ∈ placesFromAll path start es ↔
    ∃ (i : Nat) (c : Expr), es[i]? = some c ∧ p ∈ c.placesFrom ((start + i) :: path) := by
  induction es generalizing start with
  | nil => simp [placesFromAll]
  | cons e es ih =>
    rw [placesFromAll, List.mem_append, ih]
    constructor
    · rintro (hp | ⟨i, c, hc, hp⟩)
      · exact ⟨0, e, rfl, hp⟩
      · exact ⟨i + 1, c, hc, by rwa [Nat.add_assoc, Nat.add_comm 1] at hp⟩
    · rintro ⟨_ | i, c, hc, hp⟩
      · obtain rfl : e = c := Option.some.inj hc
        exact .inl hp
      · exact .inr ⟨i, c, hc, by rwa [Nat.add_assoc, Nat.add_comm 1]⟩

/-- The places of a tree are the nodes that paths lead to. -/
theorem mem_placesFrom_iff :
    p ∈ e.placesFrom path ↔ ∃ steps, p.path = steps ++ path ∧ e.at? steps = some p.node := by
  induction e using inductOnChildren generalizing path with
  | node e ih =>
    rw [placesFrom_eq, List.mem_append, mem_placesFromAll_iff, List.mem_singleton]
    constructor
    · rintro (⟨i, c, hc, hp⟩ | rfl)
      · obtain ⟨steps, hpath, hnode⟩ := (ih c (List.mem_of_getElem? hc)).mp hp
        refine ⟨steps ++ [i], by simpa using hpath, ?_⟩
        rwa [at?_append_singleton, hc]
      · exact ⟨[], rfl, rfl⟩
    · -- Steps are listed from below, so the one to a child of the root is the last.
      rintro ⟨steps, hpath, hnode⟩
      rcases List.eq_nil_or_concat steps with rfl | ⟨steps, i, rfl⟩
      · obtain ⟨v, f⟩ := p
        obtain rfl : v = path := hpath
        exact .inr (congrArg _ (Option.some.inj hnode).symm)
      · rw [List.concat_eq_append, at?_append_singleton, Option.bind_eq_some_iff] at hnode
        obtain ⟨c, hc, hnode⟩ := hnode
        refine .inl ⟨i, c, hc, (ih c (List.mem_of_getElem? hc)).mpr ⟨steps, ?_, hnode⟩⟩
        simpa using hpath

theorem mem_placesFrom_nil_iff : p ∈ e.placesFrom [] ↔ e.at? p.path = some p.node := by
  simp [mem_placesFrom_iff]

theorem suffix_of_mem_placesFrom (h : p ∈ e.placesFrom path) : path <:+ p.path := by
  obtain ⟨steps, hpath, -⟩ := mem_placesFrom_iff.mp h
  exact ⟨steps, hpath.symm⟩

theorem exists_suffix_of_mem_placesFromAll (h : p ∈ placesFromAll path start es) :
    ∃ i, start ≤ i ∧ i :: path <:+ p.path := by
  obtain ⟨i, c, -, hp⟩ := mem_placesFromAll_iff.mp h
  exact ⟨start + i, Nat.le_add_right start i, suffix_of_mem_placesFrom hp⟩

/-- What is below a node is below one of its children only. -/
theorem eq_of_suffix (hi : i :: path <:+ t) (hj : j :: path <:+ t) : i = j := by
  have hsuffix := List.suffix_of_suffix_length_le hi hj (by simp)
  exact (List.cons.inj (hsuffix.eq_of_length (by simp))).1

theorem pairwise_placesFromAll
    (h : ∀ e ∈ es, ∀ path, (e.placesFrom path).Pairwise fun p q => ¬ p.path <:+ q.path) :
    (placesFromAll path start es).Pairwise fun p q => ¬ p.path <:+ q.path := by
  induction es generalizing start with
  | nil => exact .nil
  | cons e es ih =>
    rw [placesFromAll, List.pairwise_append]
    refine ⟨h e (by simp) _, ih fun e he => h e (by simp [he]), ?_⟩
    intro p hp q hq hpq
    obtain ⟨j, hj, hsuffix⟩ := exists_suffix_of_mem_placesFromAll hq
    have : start = j := eq_of_suffix ((suffix_of_mem_placesFrom hp).trans hpq) hsuffix
    omega

/-- No place is listed before one that is below it, and none twice. -/
theorem pairwise_placesFrom (e : Expr) (path : List Nat) :
    (e.placesFrom path).Pairwise fun p q => ¬ p.path <:+ q.path := by
  induction e using inductOnChildren generalizing path with
  | node e ih =>
    rw [placesFrom_eq, List.pairwise_append]
    refine ⟨pairwise_placesFromAll ih, List.pairwise_singleton _ _, ?_⟩
    intro p hp q hq hpq
    obtain rfl := List.mem_singleton.mp hq
    obtain ⟨i, -, hsuffix⟩ := exists_suffix_of_mem_placesFromAll hp
    have hlength := (hsuffix.trans hpq).length_le
    simp only [List.length_cons] at hlength
    omega

/-- A tree has as many places as paths lead to nodes of it. -/
theorem ncard_paths (e : Expr) :
    {path | (e.at? path).isSome}.ncard = (e.placesFrom []).length := by
  have hnodup : ((e.placesFrom []).map Place.path).Nodup := by
    refine (pairwise_placesFrom e []).map Place.path ?_
    rintro p q h heq
    exact h (heq ▸ List.suffix_refl p.path)
  have hpaths : {path | (e.at? path).isSome} = ((e.placesFrom []).map Place.path).toFinset := by
    ext path
    simp only [Set.mem_ofPred_eq, List.coe_toFinset, List.mem_map, mem_placesFrom_nil_iff,
      Option.isSome_iff_exists]
    constructor
    · rintro ⟨c, hc⟩
      exact ⟨⟨path, c⟩, hc, rfl⟩
    · rintro ⟨p, hp, rfl⟩
      exact ⟨p.node, hp⟩
  rw [hpaths, Set.ncard_coe_finset, List.toFinset_card_of_nodup hnodup, List.length_map]

end Places

/-- A walk over a tree ends. It has then been at every node of the tree, at each just once, and at
none before those below it, in the order of the recursion on the tree; so it counts the nodes, and
lists each name where it first comes to it. -/
theorem walk_in_postOrder (e : Expr) :
    (∃ w, (Walk.start e).Visits (e.placesFrom []) w ∧ w.next? = none) ∧
      (∀ p, p ∈ e.placesFrom [] ↔ e.at? p.path = some p.node) ∧
      (e.placesFrom []).Pairwise (fun p q => ¬ p.path <:+ q.path) ∧
      (e.placesFrom []).map Place.node = e.postOrder ∧ e.visits = e.postOrder ∧
      e.nodeCount = {path | (e.at? path).isSome}.ncard ∧
      e.names = (e.postOrder.filterMap symbolName?).eraseDups ∧ e.names.Nodup := by
  have hend : (⟨[], some []⟩ : Walk).next? = none := by simp [Walk.next?, Walk.settle]
  refine ⟨⟨_, e.visits_places, hend⟩, fun p => mem_placesFrom_nil_iff, pairwise_placesFrom e [],
    map_node_placesFrom e [], visits_eq_postOrder e, ?_, names_eq_eraseDups e, names_nodup e⟩
  rw [nodeCount, visits_eq_postOrder, ncard_paths, ← map_node_placesFrom e [], List.length_map]

/-- Equal siblings are told apart, and an empty sum is a leaf. -/
example :
    let e := call "f" [.nary .sum [], .nary .sum [], named "a", named "a"]
    e.nodeCount = 5 ∧ e.names = ["a"] := by
  decide +kernel

end Formulary.Expr
