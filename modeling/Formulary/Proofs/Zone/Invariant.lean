import Formulary.Proofs.Binding.Tree
import Formulary.Proofs.Zone.Insertion
import Formulary.Proofs.Zone.Reach
import Formulary.Zone.Binding

/-!
What binding and unbinding keep of a zone. The nodes that symbols are bound to spell the values that
are published for their names, and no bound symbol is reached from the value of its own name.
-/

namespace Formulary.Zone

/-- Whether a node is a symbol of the given name that is bound to the node `id`. -/
def Binds (z : Zone) (x : NodeId) (name : String) (id : NodeId) : Prop :=
  ∃ r, z.record? x = some r ∧ r.name? = some name ∧ r.bound? = some id

/-- A zone whose bindings are those of an environment. -/
structure Sound (z : Zone) (env : Environment) : Prop extends z.Regular where
  published : ∀ {x name id}, z.Binds x name id → ∃ v, env[name]? = some v ∧ z.Spells id v
  shared : ∀ {x y name id id'}, z.Binds x name id → z.Binds y name id' → id = id'
  acyclic : ∀ {x y name id id'}, z.Binds x name id → z.LeadsTo id y → ¬ z.Binds y name id'

section References

variable {z z' : Zone} {env : Environment} {x y id : NodeId} {name : String} {e : Expr}
  {r : Record}

theorem exists_outline?_of_spells (h : z.Spells id e) : ∃ r, z.outline? id = some r := by
  cases e with
  | number => exact ⟨_, h⟩
  | symbol => exact ⟨_, h.2⟩
  | term =>
    obtain ⟨_, _, _, hr, -⟩ := h
    exact ⟨_, hr⟩
  | unary | nary | call =>
    obtain ⟨_, hr, -⟩ := h
    exact ⟨_, hr⟩
  | binary =>
    obtain ⟨_, _, hr, -⟩ := h
    exact ⟨_, hr⟩

theorem Spells.lt_size (h : z.Spells id e) : id.index < z.size := by
  obtain ⟨r, hr⟩ := exists_outline?_of_spells h
  obtain ⟨r', hr', -⟩ := Option.map_eq_some_iff.mp hr
  exact lt_size_of_record? hr'

theorem Binds.refers (h : z.Binds x name id) : z.Refers x id := by
  obtain ⟨r, hr, -, hbound⟩ := h
  exact ⟨r, hr, by simp [Record.references, hbound]⟩

/-- A reference is one to a child or one to a value. -/
theorem Refers.cases (h : z.Refers x y) :
    (∃ r, z.record? x = some r ∧ y ∈ r.children) ∨ ∃ name, z.Binds x name y := by
  obtain ⟨r, hr, hy⟩ := h
  rcases List.mem_append.mp hy with hy | hy
  · exact .inl ⟨r, hr, hy⟩
  · right
    have hbound : r.bound? = some y := by simpa [Option.mem_toList] using hy
    cases r with
    | symbol kind name bound shadowed => exact ⟨name, _, hr, rfl, hbound⟩
    | _ => cases hbound

namespace Sound

theorem refers_lt_size (h : z.Sound env) (href : z.Refers x y) : y.index < z.size := by
  rcases href.cases with ⟨r, hr, hy⟩ | ⟨name, hbinds⟩
  · exact Nat.lt_trans (h.children_lt x r hr y hy) (lt_size_of_record? hr)
  · obtain ⟨v, -, hv⟩ := h.published hbinds
    exact hv.lt_size

/-- Along references the numbers of nodes fall, unless one of them leads to a value. -/
theorem lt_or_binds (h : z.Sound env) (hxy : Relation.TransGen z.Refers x y) :
    y.index < x.index ∨ ∃ p name i, z.LeadsTo x p ∧ z.Binds p name i ∧ z.LeadsTo i y := by
  induction hxy with
  | single href =>
    rcases href.cases with ⟨r, hr, hy⟩ | ⟨name, hbinds⟩
    · exact .inl (h.children_lt x r hr _ hy)
    · exact .inr ⟨x, name, _, .refl, hbinds, .refl⟩
  | @tail b c hxb href ih =>
    rcases ih with hlt | ⟨p, name, i, hp, hbinds, hi⟩
    · rcases href.cases with ⟨r, hr, hy⟩ | ⟨name, hbinds⟩
      · exact .inl (Nat.lt_trans (h.children_lt b r hr _ hy) hlt)
      · exact .inr ⟨b, name, c, hxb.to_reflTransGen, hbinds, .refl⟩
    · exact .inr ⟨p, name, i, hp, hbinds, hi.tail href⟩

/-- No node is reached from itself. -/
theorem not_refers_of_leadsTo (h : z.Sound env) (href : z.Refers x y) : ¬ z.LeadsTo y x := by
  intro hyx
  rcases h.lt_or_binds (Relation.TransGen.head' href hyx) with hlt | ⟨p, name, i, hp, hbinds, hi⟩
  · exact Nat.lt_irrefl _ hlt
  · exact h.acyclic hbinds (hi.trans hp) hbinds

end Sound

end References

section Growth

variable {z z' : Zone} {env : Environment} {x y id : NodeId} {name : String}

theorem Grows.binds_iff (h : z.Grows z') : z'.Binds x name id ↔ z.Binds x name id := by
  constructor
  · rintro ⟨r, hr, hname, hbound⟩
    by_cases hx : x.index < z.size
    · exact ⟨r, (h.old x hx).symm.trans hr, hname, hbound⟩
    · have hnone := h.fresh x r (Nat.le_of_not_lt hx) hr
      simp [hnone] at hbound
  · rintro ⟨r, hr, hname, hbound⟩
    exact ⟨r, h.record? hr, hname, hbound⟩

theorem Sound.leadsTo_of_grows (hz : z.Sound env) (h : z.Grows z') (hid : id.index < z.size)
    (hy : z'.LeadsTo id y) : z.LeadsTo id y ∧ y.index < z.size :=
  leadsTo_of_old h.old hz.refers_lt_size hid hy

/-- New nodes without values change no binding. -/
theorem Sound.grows (hz : z.Sound env) (h : z.Grows z') (hz' : z'.Regular) : z'.Sound env where
  toRegular := hz'
  published hbinds := by
    obtain ⟨v, hv, hspells⟩ := hz.published (h.binds_iff.mp hbinds)
    exact ⟨v, hv, hspells.mono fun _ _ => h.outline?⟩
  shared hx hy := hz.shared (h.binds_iff.mp hx) (h.binds_iff.mp hy)
  acyclic hx hlead hy := by
    have hx := h.binds_iff.mp hx
    obtain ⟨hlead, -⟩ := hz.leadsTo_of_grows h (hz.refers_lt_size hx.refers) hlead
    exact hz.acyclic hx hlead (h.binds_iff.mp hy)

end Growth

section Assignment

variable {z : Zone} {env : Environment} {x y id : NodeId} {name n : String} {v : Expr}
  {bound : Option NodeId} {r : Record}

theorem isOpen_iff (hz : z.Regular) (hr : z.record? x = some r) :
    r.isOpen name = true ↔ r.name? = some name := by
  simp [Record.isOpen, hz.unshadowed x r hr]

theorem node?_setAll (x : NodeId) :
    (z.setAll name bound).node? x = (z.node? x).map fun n =>
      if n.record.isOpen name then { n with record := n.record.setBound bound } else n := by
  simp [node?, setAll]

theorem record?_setAll (x : NodeId) :
    (z.setAll name bound).record? x = (z.record? x).map fun r =>
      if r.isOpen name then r.setBound bound else r := by
  rw [record?, node?_setAll, Option.map_map, record?, Option.map_map]
  congr 1
  funext n
  simp only [Function.comp_apply]
  split <;> rfl

theorem outline?_setAll (x : NodeId) : (z.setAll name bound).outline? x = z.outline? x := by
  rw [outline?, record?_setAll, outline?, Option.map_map]
  congr 1
  funext r
  rw [Function.comp_apply]
  split
  · rw [Record.outline_setBound]
  · rfl

theorem Regular.record?_setAll (hz : z.Regular) (x : NodeId) :
    (z.setAll name bound).record? x = (z.record? x).map fun r =>
      if r.name? = some name then r.setBound bound else r := by
  rw [Zone.record?_setAll]
  cases hr : z.record? x with
  | none => rfl
  | some r => simp only [Option.map_some, isOpen_iff hz hr]

/-- What `setAll` sets has names, children and outlines as before. -/
theorem Regular.setAll (hz : z.Regular) : (z.setAll name bound).Regular := by
  constructor
  · intro x n hn
    rw [node?_setAll] at hn
    obtain ⟨n', hn', rfl⟩ := Option.map_eq_some_iff.mp hn
    obtain ⟨hkind, hpayload⟩ := hz.weighed x n' hn'
    split
    · simp [hkind, hpayload]
    · exact ⟨hkind, hpayload⟩
  · intro x r hr
    rw [Zone.record?_setAll] at hr
    obtain ⟨r', hr', rfl⟩ := Option.map_eq_some_iff.mp hr
    have hlt := hz.children_lt x r' hr'
    split
    · simpa using hlt
    · exact hlt
  · intro x r hr
    rw [Zone.record?_setAll] at hr
    obtain ⟨r', hr', rfl⟩ := Option.map_eq_some_iff.mp hr
    have hshadowed := hz.unshadowed x r' hr'
    split
    · simpa using hshadowed
    · exact hshadowed

theorem binds_of_setAll (hz : z.Regular) (h : (z.setAll name bound).Binds x n id) :
    (n = name ∧ bound = some id ∧ z.Names x name) ∨ (n ≠ name ∧ z.Binds x n id) := by
  obtain ⟨r', hr', hname', hbound'⟩ := h
  rw [hz.record?_setAll] at hr'
  obtain ⟨r, hr, rfl⟩ := Option.map_eq_some_iff.mp hr'
  by_cases hname : r.name? = some name
  · rw [if_pos hname, Record.name?_setBound, hname] at hname'
    rw [if_pos hname, Record.bound?_setBound hname] at hbound'
    exact .inl ⟨(Option.some.inj hname').symm, hbound', r, hr, hname⟩
  · rw [if_neg hname] at hname' hbound'
    refine .inr ⟨?_, r, hr, hname', hbound'⟩
    rintro rfl
    exact hname hname'

/-- The only new references are those to the new value. -/
theorem refers_of_setAll (h : (z.setAll name bound).Refers x y) :
    z.Refers x y ∨ (bound = some y ∧ z.Names x name) := by
  obtain ⟨r', hr', hy⟩ := h
  rw [record?_setAll] at hr'
  obtain ⟨r, hr, rfl⟩ := Option.map_eq_some_iff.mp hr'
  split at hy
  · rename_i hopen
    have hname : r.name? = some name := by simp_all [Record.isOpen]
    rcases List.mem_append.mp hy with hy | hy
    · rw [Record.children_setBound] at hy
      exact .inl ⟨r, hr, List.mem_append_left _ hy⟩
    · rw [Record.bound?_setBound hname, Option.mem_toList] at hy
      exact .inr ⟨hy, r, hr, hname⟩
  · exact .inl ⟨r, hr, hy⟩

theorem leadsTo_of_setAll (h : (z.setAll name bound).LeadsTo x y) :
    z.LeadsTo x y ∨
      ∃ p i, z.LeadsTo x p ∧ z.Names p name ∧ bound = some i ∧ z.LeadsTo i y := by
  induction h with
  | refl => exact .inl .refl
  | @tail b c _ href ih =>
    rcases refers_of_setAll href with href | ⟨hbound, hnames⟩
    · rcases ih with hxb | ⟨p, i, hp, hnames, hi, hib⟩
      · exact .inl (hxb.tail href)
      · exact .inr ⟨p, i, hp, hnames, hi, hib.tail href⟩
    · rcases ih with hxb | ⟨p, i, hp, hnames, -, -⟩
      · exact .inr ⟨b, c, hxb, hnames, hbound, .refl⟩
      · exact .inr ⟨p, c, hp, hnames, hbound, .refl⟩

/-- Binding a name to a node that spells its value, and does not lead back to it, keeps a zone
sound; so does unbinding the name. -/
theorem Sound.setAll {value : Option Expr} (hz : z.Sound env)
    (hbound : ∀ id ∈ bound, (∃ v, value = some v ∧ z.Spells id v) ∧ z.reaches id name = false) :
    (z.setAll name bound).Sound (env.update name value) where
  toRegular := hz.toRegular.setAll
  published hx := by
    rcases binds_of_setAll hz.toRegular hx with ⟨rfl, hid, -⟩ | ⟨hne, hx⟩
    · obtain ⟨⟨v, rfl, hv⟩, -⟩ := hbound _ hid
      refine ⟨v, by simp [Environment.update], hv.mono fun id r hr => ?_⟩
      rw [outline?_setAll, hr]
    · obtain ⟨v, hpublished, hv⟩ := hz.published hx
      refine ⟨v, ?_, hv.mono fun id r hr => ?_⟩
      · rw [Expr.getElem?_update_of_ne hne, hpublished]
      · rw [outline?_setAll, hr]
  shared hx hy := by
    rcases binds_of_setAll hz.toRegular hx with ⟨rfl, hid, -⟩ | ⟨hne, hx⟩
    · rcases binds_of_setAll hz.toRegular hy with ⟨-, hid', -⟩ | ⟨hne, -⟩
      · exact Option.some.inj (hid.symm.trans hid')
      · exact absurd rfl hne
    · rcases binds_of_setAll hz.toRegular hy with ⟨heq, -, -⟩ | ⟨-, hy⟩
      · exact absurd heq hne
      · exact hz.shared hx hy
  acyclic {x y n i i'} hx hlead hy := by
    rcases binds_of_setAll hz.toRegular hx with ⟨rfl, hid, -⟩ | ⟨hne, hx⟩
    · obtain ⟨-, hreaches⟩ := hbound i hid
      rcases leadsTo_of_setAll hlead with hlead | ⟨p, _, hp, hnames, -, -⟩
      · rcases binds_of_setAll hz.toRegular hy with ⟨-, -, hnames⟩ | ⟨hne, -⟩
        · exact not_names_of_reaches hreaches hlead hnames
        · exact hne rfl
      · exact not_names_of_reaches hreaches hp hnames
    · rcases binds_of_setAll hz.toRegular hy with ⟨heq, -, -⟩ | ⟨-, hy⟩
      · exact hne heq
      · rcases leadsTo_of_setAll hlead with hlead | ⟨p, id, hp, hnames, hid, hlead⟩
        · exact hz.acyclic hx hlead hy
        · -- The two symbols have one value, so the new value leads to the name through it.
          obtain rfl := hz.shared hx hy
          exact not_names_of_reaches (hbound id hid).2 ((hlead.tail hy.refers).trans hp) hnames

theorem run_bindValue (name : String) (v : Expr) (z : Zone) :
    (bindValue name v).run z =
      match (insertIn true [] v).run z with
      | .ok id z' =>
        if z'.reaches id name then .error (.cyclicBinding name) z'
        else .ok (z'.places name) (z'.setAll name (some id))
      | .error err z' => .error err z' := by
  let next (id : NodeId) : ZoneM Nat := fun z =>
    if z.reaches id name then .error (.cyclicBinding name) z
    else .ok (z.places name) (z.setAll name (some id))
  have hbind : (bindValue name v).run z = (insertIn true [] v >>= next).run z := rfl
  rw [hbind, EStateM.run_bind]
  cases (insertIn true [] v).run z <;> rfl

/-- What becomes of a binding: its value cannot be inserted, or leads back to the name, or is what
all symbols of the name are set to. Only then is it published. -/
theorem assign_cases {τ : Type} [SymbolTable τ] (name : String) (v : Expr) (z : Zone) (table : τ) :
    (∃ err z', (insertIn true [] v).run z = .error err z' ∧
      z.assign name (some v) table = (.error err, z', table)) ∨
    ∃ id z', (insertIn true [] v).run z = .ok id z' ∧
      ((z'.reaches id name = true ∧
        z.assign name (some v) table = (.error (.cyclicBinding name), z', table)) ∨
      (z'.reaches id name = false ∧
        z.assign name (some v) table = (.ok (z'.places name), z'.setAll name (some id),
          SymbolTable.publish table name (some v)))) := by
  unfold assign
  simp only [run_bindValue]
  cases (insertIn true [] v).run z with
  | error err z' => exact .inl ⟨err, z', rfl, rfl⟩
  | ok id z' =>
    refine .inr ⟨id, z', rfl, ?_⟩
    cases hreaches : z'.reaches id name with
    | true => exact .inl ⟨rfl, by simp [hreaches]⟩
    | false => exact .inr ⟨rfl, by simp [hreaches]⟩

/-- A binding that succeeds gives the zone what it publishes, and one that fails does neither. -/
theorem Sound.assign {value : Option Expr} (hz : z.Sound env)
    (hvalue : ∀ v ∈ value, v.isFree = true) :
    (z.assign name value env).2.1.Sound (z.assign name value env).2.2 ∧
      ∀ id e, z.Spells id e → (z.assign name value env).2.1.Spells id e := by
  cases value with
  | none =>
    have hset : (z.setAll name none).Sound (env.update name none) := hz.setAll (by simp)
    refine ⟨hset, ?_⟩
    intro id e he
    exact he.mono fun id r hr => (outline?_setAll id).trans hr
  | some v =>
    have hinsert := insertsAt_insertIn true (hvalue v rfl) hz.toRegular
    unfold InsertsAt at hinsert
    rcases assign_cases name v z env with ⟨err, z', hrun, hassign⟩ | ⟨id, z', hrun, hassign⟩
    · rw [hrun] at hinsert
      obtain ⟨hgrows, hregular⟩ := hinsert
      rw [hassign]
      exact ⟨hz.grows hgrows hregular, fun id e he => he.mono fun _ _ => hgrows.outline?⟩
    · rw [hrun] at hinsert
      obtain ⟨hgrows, hregular, hspells⟩ := hinsert
      have hz' : z'.Sound env := hz.grows hgrows hregular
      rcases hassign with ⟨-, hassign⟩ | ⟨hreaches, hassign⟩
      · rw [hassign]
        exact ⟨hz', fun id e he => he.mono fun _ _ => hgrows.outline?⟩
      · rw [hassign]
        have hset : (z'.setAll name (some id)).Sound (env.update name (some v)) := by
          refine hz'.setAll ?_
          intro i hi
          obtain rfl : id = i := Option.some.inj hi
          exact ⟨⟨v, rfl, hspells z' (.refl z')⟩, hreaches⟩
        refine ⟨hset, fun id e he => he.mono fun id r hr => ?_⟩
        exact (outline?_setAll id).trans (hgrows.outline? hr)

end Assignment

end Formulary.Zone
