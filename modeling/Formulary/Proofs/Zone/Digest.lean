import Formulary.Proofs.Binding.Scope
import Formulary.Proofs.Zone.Sharing

/-!
Hashes of expressions. What a zone hashes for an expression can be read off the expression and the
place that it stands in, whatever else is in the zone; and nodes of one zone have different hashes.
-/

namespace Formulary

namespace Expr

mutual

/-- What is hashed of the node of an expression: its kind, and its payload with the hashes of its
children in place of them. -/
def content (hasher : Hasher) (scope : List String) : Expr → NodeKind × Payload UInt64
  | .number x => (.number, .bits x.toBits)
  | .symbol kind name _ => (.symbol kind, if name ∈ scope then .shadowed name else .name name)
  | .term c a x =>
    (.term, .children
      [hasher.uncurry (content hasher scope c), hasher.uncurry (content hasher scope a),
        hasher.uncurry (content hasher scope x)])
  | .unary op e => (.unary op, .children [hasher.uncurry (content hasher scope e)])
  | .binary op l r =>
    (if op.implicit then .signed op.kind else .binary op.kind, .children
      [hasher.uncurry (content hasher scope l), hasher.uncurry (content hasher scope r)])
  | .nary op es => (.nary op, .children (digests hasher scope es))
  | .call name es => (.call, .call name (digests hasher scope es))

def digests (hasher : Hasher) (scope : List String) : List Expr → List UInt64
  | [] => []
  | e :: es => hasher.uncurry (content hasher scope e) :: digests hasher scope es

end

/-- The hash of the node of an expression. -/
def digest (hasher : Hasher) (scope : List String) (e : Expr) : UInt64 :=
  hasher.uncurry (content hasher scope e)

theorem digests_eq_map (hasher : Hasher) (scope : List String) (es : List Expr) :
    digests hasher scope es = es.map (digest hasher scope) := by
  induction es with
  | nil => rfl
  | cons e es ih => rw [digests, ih, List.map_cons, digest]

/-- What symbols are bound to does not enter into what is hashed. -/
theorem content_bare (hasher : Hasher) (scope : List String) (e : Expr) :
    e.bare.content hasher scope = e.content hasher scope := by
  induction e with
  | number | symbol => rfl
  | term c a x ihc iha ihx => simp only [bare, content, ihc, iha, ihx]
  | unary op e ih => simp only [bare, content, ih]
  | binary op l r ihl ihr => simp only [bare, content, ihl, ihr]
  | nary op es ih | call name es ih =>
    have hes : (es.map bare).map (digest hasher scope) = es.map (digest hasher scope) := by
      rw [List.map_map]
      refine List.map_congr_left fun e he => ?_
      rw [Function.comp_apply, digest, ih e he, digest]
    simp only [bare, bareList_eq_map, content, digests_eq_map, hes]

end Expr

/-- Whether a hasher is injective on what is hashed of the parts of an expression. -/
def Hasher.Distinguishes (hasher : Hasher) (e : Expr) : Prop :=
  ∀ o ∈ e.occurrences [], ∀ o' ∈ e.occurrences [],
    o.2.digest hasher o.1 = o'.2.digest hasher o'.1 →
      o.2.content hasher o.1 = o'.2.content hasher o'.1

instance (hasher : Hasher) (e : Expr) : Decidable (hasher.Distinguishes e) := by
  unfold Hasher.Distinguishes
  infer_instance

/-- The nodes in a payload. -/
def Payload.nodes {α : Type} : Payload α → List α
  | bits _ | name _ | shadowed _ => []
  | children es | call _ es => es

theorem map_inj_of_mem {α β : Type} {f : α → β} {as bs : List α}
    (hf : ∀ a ∈ as, ∀ b ∈ bs, f a = f b → a = b) (h : as.map f = bs.map f) : as = bs := by
  induction as generalizing bs with
  | nil => exact (List.map_eq_nil_iff.mp h.symm).symm
  | cons a as ih =>
    cases bs with
    | nil => cases h
    | cons b bs =>
      obtain ⟨hab, h⟩ := List.cons.inj h
      rw [hf a (by simp) b (by simp) hab,
        ih (fun a ha b hb => hf a (by simp [ha]) b (by simp [hb])) h]

theorem exists_mem_of_forall₂ {α β : Type} {R : α → β → Prop} {as : List α} {bs : List β} {a : α}
    (h : as.Forall₂ R bs) (ha : a ∈ as) : ∃ b ∈ bs, R a b := by
  induction h with
  | nil => cases ha
  | @cons a' b as bs hab _ ih =>
    rcases List.mem_cons.mp ha with rfl | ha
    · exact ⟨b, List.mem_cons_self .., hab⟩
    · obtain ⟨b', hb', hab'⟩ := ih ha
      exact ⟨b', List.mem_cons_of_mem _ hb', hab'⟩

theorem Payload.eq_of_map {α β : Type} {f : α → β} {p q : Payload α}
    (hf : ∀ a ∈ p.nodes, ∀ b ∈ q.nodes, f a = f b → a = b) (h : p.map f = q.map f) : p = q := by
  cases p with
  | children es =>
    cases q with
    | children es' => exact congrArg children (map_inj_of_mem hf (Payload.children.inj h))
    | _ => cases h
  | call name es =>
    cases q with
    | call name' es' =>
      obtain ⟨rfl, hes⟩ := Payload.call.inj h
      exact congrArg (call name) (map_inj_of_mem hf hes)
    | _ => cases h
  | _ =>
    cases q with
    | children | call => cases h
    | _ => simp_all [Payload.map]

theorem Record.nodes_payload (r : Record) : r.payload.nodes = r.children := by
  cases r with
  | symbol kind name bound shadowed => cases shadowed <;> rfl
  | _ => rfl

namespace Zone

/-- Whether a record is that of an expression, the parts of which have the nodes that the record
refers to. -/
inductive Depicts (z : Zone) (scope : List String) : Record → Expr → Prop
  | number (x : Float) : Depicts z scope (.number x) (.number x)
  | symbol (kind : SymbolKind) (name : String) {i : Option NodeId} {bound : Option Expr}
      (hi : z.RepresentsBound (name :: scope) i bound) :
    Depicts z scope (.symbol kind name i (decide (name ∈ scope))) (.symbol kind name bound)
  | term {i j k : NodeId} {c a x : Expr} (hc : z.Represents scope i c) (ha : z.Represents scope j a)
      (hx : z.Represents scope k x) : Depicts z scope (.term i j k) (.term c a x)
  | unary (op : UnaryOp) {i : NodeId} {e : Expr} (he : z.Represents scope i e) :
    Depicts z scope (.unary op i) (.unary op e)
  | binary (op : BinaryOp) {i j : NodeId} {l r : Expr} (hl : z.Represents scope i l)
      (hr : z.Represents scope j r) : Depicts z scope (.binary op i j) (.binary op l r)
  | nary (op : NaryOp) {ids : List NodeId} {es : List Expr} (hes : z.RepresentsAll scope ids es) :
    Depicts z scope (.nary op ids) (.nary op es)
  | call (name : String) {ids : List NodeId} {es : List Expr}
      (hes : z.RepresentsAll scope ids es) : Depicts z scope (.call name ids) (.call name es)

section Depicts

variable {z z' : Zone} {scope scope' : List String} {id : NodeId} {ids : List NodeId} {r : Record}
  {p : Expr} {es : List Expr}

theorem represents_iff :
    z.Represents scope id p ↔ ∃ r, z.record? id = some r ∧ z.Depicts scope r p := by
  constructor
  · intro h
    cases p with
    | number x => exact ⟨_, h, .number x⟩
    | symbol kind name bound =>
      obtain ⟨i, hr, hi⟩ := h
      exact ⟨_, hr, .symbol kind name hi⟩
    | term c a x =>
      obtain ⟨i, j, k, hr, hc, ha, hx⟩ := h
      exact ⟨_, hr, .term hc ha hx⟩
    | unary op e =>
      obtain ⟨i, hr, he⟩ := h
      exact ⟨_, hr, .unary op he⟩
    | binary op l r =>
      obtain ⟨i, j, hr, hl, hright⟩ := h
      exact ⟨_, hr, .binary op hl hright⟩
    | nary op es =>
      obtain ⟨ids, hr, hes⟩ := h
      exact ⟨_, hr, .nary op hes⟩
    | call name es =>
      obtain ⟨ids, hr, hes⟩ := h
      exact ⟨_, hr, .call name hes⟩
  · rintro ⟨r, hr, h⟩
    cases h with
    | number x => exact hr
    | symbol kind name hi => exact ⟨_, hr, hi⟩
    | term hc ha hx => exact ⟨_, _, _, hr, hc, ha, hx⟩
    | unary op he => exact ⟨_, hr, he⟩
    | binary op hl hright => exact ⟨_, _, hr, hl, hright⟩
    | nary op hes => exact ⟨_, hr, hes⟩
    | call name hes => exact ⟨_, hr, hes⟩

/-- A record is that of an expression in another zone and place as well, if the nodes that it refers
to stand for the same there, and what shadows the expression is the same. -/
theorem Depicts.mono (h : z.Depicts scope r p)
    (hname : ∀ kind name bound, p = .symbol kind name bound → (name ∈ scope ↔ name ∈ scope'))
    (hchild : ∀ c ∈ p.children, ∀ i, z.Represents scope i c → z'.Represents scope' i c)
    (hvalue : ∀ kind name v, p = .symbol kind name (some v) →
      ∀ i, z.Represents (name :: scope) i v → z'.Represents (name :: scope') i v) :
    z'.Depicts scope' r p := by
  cases h with
  | number x => exact .number x
  | symbol kind name hi =>
    rw [decide_eq_decide.mpr (hname kind name _ rfl)]
    refine .symbol kind name (representsBound_mono (fun v hv => hvalue kind name v ?_) hi)
    rw [Option.mem_def.mp hv]
  | term hc ha hx =>
    exact .term (hchild _ (by simp [Expr.children]) _ hc) (hchild _ (by simp [Expr.children]) _ ha)
      (hchild _ (by simp [Expr.children]) _ hx)
  | unary op he => exact .unary op (hchild _ (by simp [Expr.children]) _ he)
  | binary op hl hr =>
    exact .binary op (hchild _ (by simp [Expr.children]) _ hl)
      (hchild _ (by simp [Expr.children]) _ hr)
  | nary op hes => exact .nary op (representsAll_mono hchild hes)
  | call name hes => exact .call name (representsAll_mono hchild hes)

theorem Depicts.extends (h : z.Depicts scope r p) (hz : z.Extends z') : z'.Depicts scope r p :=
  h.mono (fun _ _ _ _ => Iff.rfl) (fun _ _ _ hi => hi.extends hz) fun _ _ _ _ _ hi => hi.extends hz

theorem Represents.lt_size (h : z.Represents scope id p) : id.index < z.size := by
  obtain ⟨r, hr⟩ := exists_record?_of_represents h
  exact lt_size_of_record? hr

theorem representsAll_iff :
    z.RepresentsAll scope ids es ↔ ids.Forall₂ (fun i e => z.Represents scope i e) es := by
  induction es generalizing ids with
  | nil =>
    rw [List.forall₂_nil_right_iff]
    exact Iff.rfl
  | cons e es ih =>
    rw [List.forall₂_cons_right_iff]
    simp only [RepresentsAll, ih]
    grind

/-- The children of a record are the nodes of those of its expression. -/
theorem Depicts.forall₂_children (h : z.Depicts scope r p) :
    r.children.Forall₂ (fun i c => z.Represents scope i c) p.children := by
  cases h with
  | number x => exact .nil
  | symbol kind name hi => exact .nil
  | term hc ha hx => exact .cons hc (.cons ha (.cons hx .nil))
  | unary op he => exact .cons he .nil
  | binary op hl hr => exact .cons hl (.cons hr .nil)
  | nary op hes | call name hes => exact representsAll_iff.mp hes

theorem Depicts.exists_of_mem_children (h : z.Depicts scope r p) (hid : id ∈ r.children) :
    ∃ c ∈ p.children, z.Represents scope id c :=
  exists_mem_of_forall₂ h.forall₂_children hid

/-- The value of a record is the node of that of its symbol, which stands in one more value. -/
theorem Depicts.exists_of_bound? (h : z.Depicts scope r p) (hid : r.bound? = some id) :
    ∃ kind name v, p = .symbol kind name (some v) ∧ r.name? = some name ∧
      z.Represents (name :: scope) id v := by
  cases h with
  | @symbol kind name i bound hi =>
    obtain rfl : i = some id := hid
    cases bound with
    | none => cases hi
    | some v =>
      obtain ⟨j, hj, hv⟩ := hi
      obtain rfl := Option.some.inj hj
      exact ⟨kind, name, v, rfl, rfl, hv⟩
  | _ => cases hid

/-- The record of an expression refers to nodes of the zone only. -/
theorem Depicts.missing?_eq_none (h : z.Depicts scope r p) : z.missing? r = none := by
  refine List.find?_eq_none.mpr fun c hc => ?_
  rw [decide_eq_true_eq, Nat.not_le]
  rcases List.mem_append.mp hc with hc | hc
  · obtain ⟨_, -, hc⟩ := h.exists_of_mem_children hc
    exact hc.lt_size
  · obtain ⟨_, _, _, -, -, hc⟩ := h.exists_of_bound? (by simpa using hc)
    exact hc.lt_size

end Depicts

section Hashes

variable {z : Zone} {scope : List String} {i j id : NodeId} {r s : Record} {p : Expr}

theorem Consistent.hashOf_eq (hz : z.Consistent) (hr : z.record? id = some r) :
    z.hashOf id = z.hasher r.kind (r.payload.map z.hashOf) := by
  rw [hashOf, hz.weighed hr]
  rfl

/-- The index leads from a hash to one node. -/
theorem Consistent.eq_of_hashOf (hz : z.Consistent) (hi : i.index < z.size) (hj : j.index < z.size)
    (h : z.hashOf i = z.hashOf j) : i = j := by
  obtain ⟨n, hn⟩ := exists_node? hi
  obtain ⟨m, hm⟩ := exists_node? hj
  rw [hashOf, hashOf, weight?_of_node? hn, weight?_of_node? hm] at h
  have hindex := hz.indexed.mpr ⟨_, weight?_of_node? hn, h⟩
  exact Option.some.inj (hindex.symm.trans (hz.indexed.mpr ⟨_, weight?_of_node? hm, rfl⟩))

/-- Records whose contents are hashed alike, and that refer to nodes of the zone, have one
payload. -/
theorem Consistent.payload_eq (hz : z.Consistent) (hr : ∀ c ∈ r.children, c.index < z.size)
    (hs : ∀ c ∈ s.children, c.index < z.size)
    (h : r.payload.map z.hashOf = s.payload.map z.hashOf) : r.payload = s.payload := by
  refine Payload.eq_of_map ?_ h
  rw [Record.nodes_payload, Record.nodes_payload]
  intro i hi j hj
  exact hz.eq_of_hashOf (hr i hi) (hs j hj)

theorem map_hashOf_of_representsAll {es : List Expr} {ids : List NodeId} {hasher : Hasher}
    (h : z.RepresentsAll scope ids es)
    (hes : ∀ e ∈ es, ∀ id, z.Represents scope id e → z.hashOf id = e.digest hasher scope) :
    ids.map z.hashOf = Expr.digests hasher scope es := by
  induction es generalizing ids with
  | nil =>
    obtain rfl := h
    rfl
  | cons e es ih =>
    obtain ⟨i, is, rfl, he, h⟩ := h
    rw [List.map_cons, Expr.digests_eq_map, List.map_cons, hes e (by simp) i he,
      ih h fun f hf => hes f (by simp [hf]), Expr.digests_eq_map]

/-- What is hashed of the record of an expression is what the expression says, if this is so for its
children. -/
theorem Depicts.content_eq_of (h : z.Depicts scope r p)
    (hchildren : ∀ c ∈ p.children, ∀ id, z.Represents scope id c →
      z.hashOf id = c.digest z.hasher scope) :
    (r.kind, r.payload.map z.hashOf) = p.content z.hasher scope := by
  cases h with
  | number x => rfl
  | symbol kind name hi =>
    by_cases hname : name ∈ scope <;>
      simp [Record.kind, Record.payload, Payload.map, Expr.content, hname]
  | term hc ha hx =>
    have hc' := hchildren _ (by simp [Expr.children]) _ hc
    have ha' := hchildren _ (by simp [Expr.children]) _ ha
    have hx' := hchildren _ (by simp [Expr.children]) _ hx
    simp [Record.kind, Record.payload, Record.children, Payload.map, Expr.content, Expr.digest, hc',
      ha', hx']
  | unary op he =>
    have he' := hchildren _ (by simp [Expr.children]) _ he
    simp [Record.kind, Record.payload, Record.children, Payload.map, Expr.content, Expr.digest, he']
  | binary op hl hr =>
    obtain ⟨kind, implicit⟩ := op
    have hl' := hchildren _ (by simp [Expr.children]) _ hl
    have hr' := hchildren _ (by simp [Expr.children]) _ hr
    cases implicit <;>
      simp [Record.kind, Record.payload, Record.children, Payload.map, Expr.content, Expr.digest,
        hl', hr']
  | nary op hes | call name hes =>
    have hmap := map_hashOf_of_representsAll hes fun e he => hchildren e he
    simp [Record.kind, Record.payload, Record.children, Payload.map, Expr.content, hmap]

/-- The hash of the node of an expression is the same in all zones with one hasher. -/
theorem Represents.hashOf_eq {id : NodeId} {p : Expr} (h : z.Represents scope id p)
    (hz : z.Consistent) :
    z.hashOf id = p.digest z.hasher scope := by
  obtain ⟨r, hr, hdepicts⟩ := represents_iff.mp h
  rw [hz.hashOf_eq hr, Expr.digest, ← hdepicts.content_eq_of fun c hc i hi => hi.hashOf_eq hz]
  rfl
termination_by sizeOf p
decreasing_by exact Expr.sizeOf_lt_of_mem_children hc

theorem Depicts.content_eq (h : z.Depicts scope r p) (hz : z.Consistent) :
    (r.kind, r.payload.map z.hashOf) = p.content z.hasher scope :=
  h.content_eq_of fun _ _ _ hi => hi.hashOf_eq hz

end Hashes

section History

variable {hasher : Hasher} {ops others : List Operation} {z z' : Zone} {i j : NodeId} {e e' : Expr}

theorem hasher_after (hasher : Hasher) (ops : List Operation) :
    (after hasher ops).hasher = hasher :=
  after_keeps (motive := fun z => z.hasher = hasher) hasher rfl
    (fun _ _ hz hadds => hadds.extends.hasher_eq.trans hz) (fun _ _ _ hz _ => hz) ops

/-- The hash and the kind of an inserted node are functions of the expression. -/
theorem exists_weight?_of_insert (h : (insert e).run (after hasher ops) = .ok i z) :
    ∃ w, z.weight? i = some w ∧ w.hash = e.digest hasher [] ∧ w.kind = (e.content hasher []).1 := by
  obtain ⟨hz, -, he⟩ := represents_of_insert h
  obtain ⟨r, hr, hdepicts⟩ := represents_iff.mp he
  have hhasher : z.hasher = hasher := by
    rw [eq_after_of_insert h, hasher_after]
  have hcontent := hdepicts.content_eq hz
  rw [hhasher] at hcontent
  refine ⟨z.weigh r, hz.weighed hr, ?_, ?_⟩
  · rw [Expr.digest, ← hcontent, ← hhasher]
    rfl
  · rw [← hcontent]
    rfl

/-- Two zones with one hasher, whatever else has been done to them before and is done afterwards,
give an expression nodes of one hash and one kind. Values of its symbols may even differ. -/
theorem hash_independent_of_zone (he : e.bare = e'.bare)
    (h : (insert e).run (after hasher ops) = .ok i z)
    (h' : (insert e').run (after hasher others) = .ok j z') (later later' : List Operation) :
    ∃ w w', (z.applyAll later).weight? i = some w ∧ (z'.applyAll later').weight? j = some w' ∧
      w.hash = w'.hash ∧ w.kind = w'.kind := by
  have hcontent : e.content hasher [] = e'.content hasher [] := by
    rw [← Expr.content_bare, he, Expr.content_bare]
  obtain ⟨w, hw, hhash, hkind⟩ := exists_weight?_of_insert h
  obtain ⟨w', hw', hhash', hkind'⟩ := exists_weight?_of_insert h'
  refine ⟨w, w', weight?_applyAll hw later, weight?_applyAll hw' later', ?_, ?_⟩
  · rw [hhash, hhash', Expr.digest, Expr.digest, hcontent]
  · rw [hkind, hkind', hcontent]

/-- A sum that is the third node of one zone and the fourth of another one, where `a` has a
value. -/
theorem hash_independent_of_zone_moved :
    let a : Option Expr → Expr := .symbol .coefficient "a"
    let sum (v : Option Expr) : Expr := .binaryOf .addition (a v) (.number 1)
    let ops : List Operation := [.insert (.number 2)]
    ∃ i j z z' w w', (insert (sum none)).run (after Hasher.structural []) = .ok i z ∧
      (insert (sum (some (.number 2)))).run (after Hasher.structural ops) = .ok j z' ∧ i ≠ j ∧
      z.weight? i = some w ∧ (z'.applyAll [.assign "a" none]).weight? j = some w' ∧
      w.hash = w'.hash ∧ w.kind = w'.kind := by
  intro a sum ops
  obtain ⟨z, h⟩ : ∃ z, (insert (sum none)).run (after Hasher.structural []) = .ok ⟨2⟩ z := by
    dsimp only [a, sum]
    exact ⟨_, rfl⟩
  obtain ⟨z', h'⟩ : ∃ z', (insert (sum (some (.number 2)))).run (after Hasher.structural ops) =
      .ok ⟨3⟩ z' := by
    dsimp only [a, sum, ops]
    exact ⟨_, rfl⟩
  have hbare : (sum none).bare = (sum (some (.number 2))).bare := rfl
  obtain ⟨w, w', hw, hw', hhash, hkind⟩ :=
    hash_independent_of_zone hbare h h' [] [.assign "a" none]
  exact ⟨⟨2⟩, ⟨3⟩, z, z', w, w', h, h', by decide, hw, hw', hhash, hkind⟩

end History

end Zone

end Formulary
