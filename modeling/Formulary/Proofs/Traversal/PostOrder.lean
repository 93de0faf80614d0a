import Mathlib.Data.List.Induction
import Mathlib.Data.List.Nodup
import Formulary.Expr.Walk
import Formulary.Proofs.Binding.Parts

/-!
What a walk over a tree visits: the places as the recursion on the tree lists them, children before
parents. A node is told to be done by the place of its last child; no place below a node is visited
before the node is expanded, so none is taken for that one.
-/

namespace Formulary.Expr

mutual

/-- The nodes of a tree by recursion: those of its children from left to right, and then itself. -/
def postOrder : Expr → List Expr
  | .number x => [.number x]
  | .symbol kind name bound => [.symbol kind name bound]
  | .term c a x => c.postOrder ++ (a.postOrder ++ x.postOrder) ++ [.term c a x]
  | .unary op e => e.postOrder ++ [.unary op e]
  | .binary op l r => l.postOrder ++ r.postOrder ++ [.binary op l r]
  | .nary op es => postOrderAll es ++ [.nary op es]
  | .call name es => postOrderAll es ++ [.call name es]

def postOrderAll : List Expr → List Expr
  | [] => []
  | e :: es => e.postOrder ++ postOrderAll es

end

mutual

/-- The places of the tree at the end of a path, in the order of `postOrder`. -/
def placesFrom (path : List Nat) : Expr → List Place
  | .number x => [⟨path, .number x⟩]
  | .symbol kind name bound => [⟨path, .symbol kind name bound⟩]
  | .term c a x =>
    c.placesFrom (0 :: path) ++ (a.placesFrom (1 :: path) ++ x.placesFrom (2 :: path)) ++
      [⟨path, .term c a x⟩]
  | .unary op e => e.placesFrom (0 :: path) ++ [⟨path, .unary op e⟩]
  | .binary op l r =>
    l.placesFrom (0 :: path) ++ r.placesFrom (1 :: path) ++ [⟨path, .binary op l r⟩]
  | .nary op es => placesFromAll path 0 es ++ [⟨path, .nary op es⟩]
  | .call name es => placesFromAll path 0 es ++ [⟨path, .call name es⟩]

/-- The places of siblings, of which the first is the child with the number `start`. -/
def placesFromAll (path : List Nat) (start : Nat) : List Expr → List Place
  | [] => []
  | e :: es => e.placesFrom (start :: path) ++ placesFromAll path (start + 1) es

end

/-- Induction on trees where the nodes differ in their children only. -/
@[elab_as_elim]
theorem inductOnChildren {motive : Expr → Prop}
    (node : ∀ e, (∀ c ∈ e.children, motive c) → motive e) (e : Expr) : motive e := by
  induction e using inductOnParts with
  | symbol kind name bound => exact node _ (by simp [children])
  | composite e _ ih => exact node e ih

section PostOrder

variable {e : Expr}

theorem postOrderAll_eq_flatMap (es : List Expr) : postOrderAll es = es.flatMap postOrder := by
  induction es with
  | nil => rfl
  | cons e es ih => rw [postOrderAll, ih, List.flatMap_cons]

theorem postOrder_eq (e : Expr) : e.postOrder = e.children.flatMap postOrder ++ [e] := by
  cases e <;> simp [postOrder, children, postOrderAll_eq_flatMap]

theorem placesFrom_eq (path : List Nat) (e : Expr) :
    e.placesFrom path = placesFromAll path 0 e.children ++ [⟨path, e⟩] := by
  cases e <;> simp [placesFrom, placesFromAll, children]

theorem map_node_placesFromAll {es : List Expr} (path : List Nat) (start : Nat)
    (h : ∀ e ∈ es, ∀ path, (e.placesFrom path).map Place.node = e.postOrder) :
    (placesFromAll path start es).map Place.node = es.flatMap postOrder := by
  induction es generalizing start with
  | nil => rfl
  | cons e es ih =>
    rw [placesFromAll, List.map_append, List.flatMap_cons, h e (by simp),
      ih (start + 1) fun e he => h e (by simp [he])]

theorem map_node_placesFrom (e : Expr) (path : List Nat) :
    (e.placesFrom path).map Place.node = e.postOrder := by
  induction e using inductOnChildren generalizing path with
  | node e ih =>
    rw [placesFrom_eq, postOrder_eq, List.map_append, map_node_placesFromAll path 0 ih]
    rfl

theorem totalOf_eq_length (es : List Expr) (h : ∀ e ∈ es, e.total = e.postOrder.length) :
    totalOf es = (es.flatMap postOrder).length := by
  induction es with
  | nil => rfl
  | cons e es ih =>
    rw [totalOf, h e (by simp), ih fun e he => h e (by simp [he]), List.flatMap_cons,
      List.length_append]

theorem total_eq_length (e : Expr) : e.total = e.postOrder.length := by
  induction e with
  | number | symbol => rfl
  | term c a x ihc iha ihx => simp [total, postOrder, ihc, iha, ihx, Nat.add_assoc]
  | unary op e ih => simp [total, postOrder, ih]
  | binary op l r ihl ihr => simp [total, postOrder, ihl, ihr, Nat.add_assoc]
  | nary op es ih | call name es ih =>
    rw [total, postOrder, totalOf_eq_length es ih, ← postOrderAll_eq_flatMap]
    simp

end PostOrder

namespace Walk

/-- Whether a place is below the node that a path leads to. -/
def Below (path : List Nat) (place : Option (List Nat)) : Prop :=
  ∃ v ∈ place, ∃ i, i :: path <:+ v

section Below

variable {path : List Nat} {place : Option (List Nat)} {i j : Nat}

theorem Below.of_cons (h : Below (i :: path) place) : Below path place := by
  obtain ⟨v, hv, j, hj⟩ := h
  exact ⟨v, hv, i, (List.suffix_cons j (i :: path)).trans hj⟩

/-- Siblings are not below each other. -/
theorem not_below_sibling : ¬ Below (i :: path) (some (j :: path)) := by
  rintro ⟨v, hv, k, hk⟩
  obtain rfl : j :: path = v := Option.some.inj hv
  have hlength := hk.length_le
  simp only [List.length_cons] at hlength
  omega

theorem below_child : Below path (some (i :: path)) := ⟨_, rfl, i, List.suffix_refl _⟩

end Below

section Settle

variable {top : Place} {rest stack : List Place} {visited : Option (List Nat)}

theorem settle_leaf (h : top.children = []) : settle visited (top :: rest) = top :: rest := by
  rw [settle]
  split
  · rfl
  · rename_i hlast
    simp [h] at hlast

theorem settle_done {last : Place} (h : top.children.getLast? = some last)
    (hvisited : visited = some last.path) : settle visited (top :: rest) = top :: rest := by
  rw [settle]
  split
  · rfl
  · rename_i hlast
    cases hlast.symm.trans h
    rw [if_pos hvisited]

theorem settle_expand {last : Place} (h : top.children.getLast? = some last)
    (hvisited : visited ≠ some last.path) :
    settle visited (top :: rest) = settle visited (top.children ++ top :: rest) := by
  conv => lhs; rw [settle]
  split
  · rename_i hlast
    cases hlast.symm.trans h
  · rename_i hlast
    cases hlast.symm.trans h
    rw [if_neg hvisited]

end Settle

/-- Whether a walk visits some places one after the other, and has then come to another walk. -/
inductive Visits : Walk → List Place → Walk → Prop
  | done (w : Walk) : Visits w [] w
  | next {w w' : Walk} {rest : List Place} {p : Place} {ps : List Place}
    (h : w.next? = some (p.node, ⟨rest, some p.path⟩)) (hrest : Visits ⟨rest, some p.path⟩ ps w') :
    Visits w (p :: ps) w'

section Visits

variable {w w' w'' : Walk} {ps qs : List Place} {top : Place} {rest stack : List Place}
  {visited : Option (List Nat)}

theorem Visits.append (h : Visits w ps w') (h' : Visits w' qs w'') : Visits w (ps ++ qs) w'' := by
  induction h with
  | done => exact h'
  | next hnext _ ih => exact .next hnext (ih h')

theorem visits_settled (h : settle visited (top :: rest) = top :: rest) :
    Visits ⟨top :: rest, visited⟩ [top] ⟨rest, some top.path⟩ :=
  .next (by rw [next?, h]) (.done _)

/-- What a walk goes on to visit depends on its stack only as far as it is settled. -/
theorem Visits.congr (h : Visits ⟨rest, visited⟩ ps w)
    (hsettle : settle visited stack = settle visited rest) (hps : ps ≠ []) :
    Visits ⟨stack, visited⟩ ps w := by
  cases h with
  | done => exact absurd rfl hps
  | next hnext hrest => exact .next (by rwa [next?, hsettle]) hrest

/-- The nodes that are taken from a walk are those of the places that it visits. -/
theorem Visits.take (h : Visits w ps w') (count : Nat) :
    w.take (ps.length + count) = ps.map Place.node ++ w'.take count := by
  induction h with
  | done w => rw [List.length_nil, Nat.zero_add, List.map_nil, List.nil_append]
  | next hnext _ ih =>
    rw [List.length_cons, Nat.add_right_comm, Walk.take, hnext, List.map_cons, List.cons_append,
      ← ih]

end Visits

/-- The places of siblings, which are the children of the node at a path from the given one on. -/
def siblings (path : List Nat) (start : Nat) (es : List Expr) : List Place :=
  es.mapIdx fun i c => ⟨(i + start) :: path, c⟩

section Siblings

variable {path : List Nat} {start : Nat} {e : Expr} {es : List Expr}

theorem siblings_cons :
    siblings path start (e :: es) = ⟨start :: path, e⟩ :: siblings path (start + 1) es := by
  rw [siblings, List.mapIdx_cons, Nat.zero_add, siblings]
  refine congrArg _ (List.mapIdx_eq_mapIdx_iff.mpr fun i hi => ?_)
  rw [Nat.add_assoc, Nat.add_comm 1 start]

theorem exists_path_of_getLast? {last : Place} (h : (siblings path start es).getLast? = some last) :
    ∃ i, last.path = i :: path := by
  obtain ⟨i, hi, hlast⟩ := List.mem_mapIdx.mp (List.mem_of_getLast? h)
  exact ⟨i + start, by rw [← hlast]⟩

end Siblings

section Runs

variable {path : List Nat} {es : List Expr} {visited : Option (List Nat)}

/-- A walk does with siblings one after the other what it does with each, and has then visited the
last. -/
theorem visits_siblings (start : Nat) (rest : List Place)
    (hes : ∀ e ∈ es, ∀ path rest visited, ¬ Below path visited →
      Visits ⟨⟨path, e⟩ :: rest, visited⟩ (e.placesFrom path) ⟨rest, some path⟩)
    (hvisited : ¬ Below path visited ∨ ∃ i, visited = some (i :: path)) :
    Visits ⟨siblings path start es ++ rest, visited⟩ (placesFromAll path start es)
      ⟨rest, ((siblings path start es).getLast?.map Place.path).or visited⟩ := by
  induction es generalizing start visited with
  | nil => exact .done _
  | cons e es ih =>
    have hnot : ¬ Below (start :: path) visited := by
      rcases hvisited with h | ⟨i, rfl⟩
      · exact fun hbelow => h hbelow.of_cons
      · exact not_below_sibling
    have hlast : ((siblings path start (e :: es)).getLast?.map Place.path).or visited =
        ((siblings path (start + 1) es).getLast?.map Place.path).or (some (start :: path)) := by
      rw [siblings_cons, List.getLast?_cons]
      cases (siblings path (start + 1) es).getLast? <;> rfl
    rw [hlast, siblings_cons, List.cons_append, placesFromAll]
    refine (hes e (by simp) _ _ _ hnot).append ?_
    exact ih (start + 1) (fun e he => hes e (by simp [he])) (.inr ⟨start, rfl⟩)

/-- A walk visits the tree on top of its stack in post-order, and this first, unless it comes from
below it. -/
theorem visits_tree (e : Expr) (path : List Nat) (rest : List Place)
    (visited : Option (List Nat)) (hvisited : ¬ Below path visited) :
    Visits ⟨⟨path, e⟩ :: rest, visited⟩ (e.placesFrom path) ⟨rest, some path⟩ := by
  induction e using inductOnChildren generalizing path rest visited with
  | node e ih =>
    set top : Place := ⟨path, e⟩
    have hsiblings : top.children = siblings path 0 e.children := rfl
    rw [placesFrom_eq]
    cases hlast : top.children.getLast? with
    | none =>
      have hnil : top.children = [] := List.getLast?_eq_none_iff.mp hlast
      have hleaf : e.children = [] := by simpa [hsiblings, siblings] using hnil
      rw [hleaf]
      exact visits_settled (settle_leaf hnil)
    | some last =>
      obtain ⟨i, hi⟩ := exists_path_of_getLast? (hsiblings ▸ hlast)
      have hne : visited ≠ some last.path := by
        rintro rfl
        exact hvisited (hi ▸ below_child)
      -- The node stays below its children, and is found done once the last of them is visited.
      have hchildren := visits_siblings 0 (top :: rest) ih (.inl hvisited)
      rw [← hsiblings, hlast, Option.map_some, Option.some_or] at hchildren
      exact (hchildren.append (visits_settled (settle_done hlast rfl))).congr
        (settle_expand hlast hne) (by simp)

end Runs

end Walk

/-- A walk over a whole tree visits its places, and has then nothing left to visit. -/
theorem visits_places (e : Expr) : (Walk.start e).Visits (e.placesFrom []) ⟨[], some []⟩ :=
  Walk.visits_tree e [] [] none (by rintro ⟨v, hv, -⟩; cases hv)

/-- A walk over the whole tree lists it. -/
theorem visits_eq_postOrder (e : Expr) : e.visits = e.postOrder := by
  have htotal : e.total = (e.placesFrom []).length := by
    rw [total_eq_length, ← map_node_placesFrom e [], List.length_map]
  have h := e.visits_places.take 0
  rw [Nat.add_zero, ← htotal, Walk.take, List.append_nil] at h
  exact h.trans (map_node_placesFrom e [])

section Names

variable {e : Expr} {name : String}

theorem eraseDups_concat (names : List String) (n : String) :
    (names ++ [n]).eraseDups =
      if n ∈ names.eraseDups then names.eraseDups else names.eraseDups ++ [n] := by
  rw [List.eraseDups_append]
  by_cases hn : n ∈ names <;> simp [List.removeAll, List.eraseDups_cons, hn]

theorem nodup_eraseDups (names : List String) : names.eraseDups.Nodup := by
  induction names using List.reverseRecOn with
  | nil => exact .nil
  | append_singleton names n ih =>
    rw [eraseDups_concat]
    split
    · exact ih
    · rename_i hn
      rw [← List.concat_eq_append]
      exact List.Nodup.concat hn ih

theorem foldl_seen_eq_eraseDups (names seen : List String) :
    names.foldl (fun seen n => if n ∈ seen then seen else seen ++ [n]) seen.eraseDups =
      (seen ++ names).eraseDups := by
  induction names generalizing seen with
  | nil => rw [List.append_nil, List.foldl_nil]
  | cons n names ih =>
    rw [List.foldl_cons, ← eraseDups_concat, ih, List.append_assoc, List.singleton_append]

/-- The names of a tree are those of its symbols, each where it comes first in the post-order. -/
theorem names_eq_eraseDups (e : Expr) :
    e.names = (e.postOrder.filterMap symbolName?).eraseDups := by
  rw [names, visits_eq_postOrder]
  exact foldl_seen_eq_eraseDups _ []

theorem names_nodup (e : Expr) : e.names.Nodup := by
  rw [names_eq_eraseDups]
  exact nodup_eraseDups _

theorem mem_names_iff : name ∈ e.names ↔ ∃ p ∈ e.postOrder, p.symbolName? = some name := by
  rw [names_eq_eraseDups, List.mem_eraseDups, List.mem_filterMap]

/-- Where no symbol has a value of its own, the names of a tree are those that it mentions. -/
theorem mem_names_iff_mentions (h : e.isFree = true) :
    name ∈ e.names ↔ e.mentions name = true := by
  rw [mem_names_iff]
  induction e using inductOnParts with
  | symbol kind n bound ih =>
    obtain rfl := Option.isNone_iff_eq_none.mp h
    simp [postOrder, symbolName?, mentions, mentionsBound]
  | composite e hname ih =>
    rw [isFree_composite hname] at h
    rw [mentions_composite hname, List.any_eq_true, postOrder_eq]
    simp only [List.mem_append, List.mem_singleton, List.mem_flatMap, or_and_right, exists_or]
    rw [or_iff_left (by simp [hname])]
    constructor
    · rintro ⟨p, ⟨c, hc, hp⟩, hn⟩
      exact ⟨c, hc, (ih c hc (h c hc)).mp ⟨p, hp, hn⟩⟩
    · rintro ⟨c, hc, hn⟩
      obtain ⟨p, hp, hn⟩ := (ih c hc (h c hc)).mpr hn
      exact ⟨p, ⟨c, hc, hp⟩, hn⟩

end Names

end Formulary.Expr
