import Formulary.Proofs.Steps
import Formulary.Proofs.Zone.Invariant

/-!
What operations make of a zone. An insertion adds nodes for records that have none, one after the
other, and keeps those that it has added when it fails; a binding does so as well and then sets all
open symbols of its name. Whatever these two changes keep is true of every zone that operations lead
to.
-/

namespace Formulary

/-- The operations by which a zone changes. -/
inductive Operation
  | intern (r : Record)
  | insert (e : Expr)
  /-- Binds a name, or unbinds it. -/
  | assign (name : String) (value : Option Expr)

/-- Whether an operation leaves the values of all symbols alone. -/
def Operation.isInsertion : Operation → Bool
  | intern _ | insert _ => true
  | assign .. => false

namespace Zone

/-- The zone that a step leaves, whether it succeeds or not. -/
def leave {α : Type} (step : ZoneM α) (z : Zone) : Zone :=
  match step.run z with
  | .ok _ z' | .error _ z' => z'

/-- The zone after an operation. The table that a binding is published to does not matter. -/
def apply (z : Zone) : Operation → Zone
  | .intern r => leave (intern r) z
  | .insert e => leave (insert e) z
  | .assign name value => (z.assign name value ()).2.1

def applyAll (z : Zone) (ops : List Operation) : Zone := ops.foldl apply z

/-- The zone that operations make of an empty one. -/
def after (hasher : Hasher) (ops : List Operation) : Zone := (empty hasher).applyAll ops

/-- Whether a zone is another one with one more node, for a record that had none. -/
inductive Adds (z : Zone) : Zone → Prop
  | push {r : Record} (hmissing : z.missing? r = none)
      (hlookup : z.lookup (z.weigh r) = .ok none) : Adds z (z.push r (z.weigh r))

/-- Whether a zone comes from another one by nodes that are added. -/
abbrev Accretes : Zone → Zone → Prop := Relation.ReflTransGen Adds

/-- Whether a step does nothing to a zone but add nodes. -/
def Accreting {α : Type} (step : ZoneM α) : Prop :=
  ∀ z : Zone, z.Accretes (leave step z)

section Steps

variable {α β : Type} {z z' : Zone} {step : ZoneM α} {next : α → ZoneM β} {a : α}

theorem leave_of_ok (h : step.run z = .ok a z') : leave step z = z' := by
  rw [leave, h]

theorem leave_of_error {err : ZoneError} (h : step.run z = .error err z') :
    leave step z = z' := by
  rw [leave, h]

theorem Accreting.of_ok (hstep : Accreting step) (h : step.run z = .ok a z') :
    z.Accretes z' := by
  have haccretes := hstep z
  rwa [leave_of_ok h] at haccretes

theorem Accreting.pure (a : α) : Accreting (pure a) := fun _ => .refl

/-- A sequence of steps leaves what the first one does, or what the second one makes of this. -/
theorem leave_bind_cases (step : ZoneM α) (next : α → ZoneM β) (z : Zone) :
    leave (step >>= next) z = leave step z ∨
      ∃ a, leave (step >>= next) z = leave (next a) (leave step z) := by
  unfold leave
  rw [EStateM.run_bind]
  cases step.run z with
  | error err z' => exact .inl rfl
  | ok a z' => exact .inr ⟨a, rfl⟩

theorem Accreting.bind (hstep : Accreting step) (hnext : ∀ a, Accreting (next a)) :
    Accreting (step >>= next) := by
  intro z
  rcases leave_bind_cases step next z with h | ⟨a, h⟩
  · rw [h]
    exact hstep z
  · rw [h]
    exact (hstep z).trans (hnext a _)

end Steps

section Insert

variable {adopt : Bool} {binding : List String} {z z' : Zone} {r : Record} {id : NodeId}
  {e : Expr} {es : List Expr}

theorem accreting_internWith (adopt : Bool) (r : Record) : Accreting (internWith adopt r) := by
  intro z
  rcases internWith_cases adopt r z with
    ⟨err, hrun⟩ | ⟨id, -, -, hrun⟩ | ⟨hmissing, hlookup, hrun⟩
  · rw [leave_of_error hrun]
  · rw [leave_of_ok hrun]
  · rw [leave_of_ok hrun]
    exact .single (.push hmissing hlookup)

theorem Accreting.insertBound {bound : Option Expr}
    (h : ∀ e ∈ bound, Accreting (insertIn adopt binding e)) :
    Accreting (Zone.insertBound adopt binding bound) := by
  cases bound with
  | none => exact .pure none
  | some e => exact (h e rfl).bind fun id => .pure (some id)

theorem Accreting.insertList (h : ∀ e ∈ es, Accreting (insertIn adopt binding e)) :
    Accreting (Zone.insertList adopt binding es) := by
  induction es with
  | nil => exact .pure []
  | cons e es ih =>
    refine (h e (by simp)).bind fun id => ?_
    exact (ih fun f hf => h f (by simp [hf])).bind fun ids => .pure (id :: ids)

theorem accreting_insertIn (adopt : Bool) (binding : List String) (e : Expr) :
    Accreting (insertIn adopt binding e) := by
  induction e generalizing binding with
  | number x => exact accreting_internWith adopt _
  | symbol kind name bound ih =>
    exact (Accreting.insertBound fun e he => ih e he (name :: binding)).bind fun _ =>
      accreting_internWith adopt _
  | term c a x ihc iha ihx =>
    exact (ihc binding).bind fun _ => (iha binding).bind fun _ => (ihx binding).bind fun _ =>
      accreting_internWith adopt _
  | unary op e ih => exact (ih binding).bind fun _ => accreting_internWith adopt _
  | binary op l r ihl ihr =>
    exact (ihl binding).bind fun _ => (ihr binding).bind fun _ => accreting_internWith adopt _
  | nary op es ih | call name es ih =>
    exact (Accreting.insertList fun e he => ih e he binding).bind fun _ =>
      accreting_internWith adopt _

theorem accreting_insertBound (adopt : Bool) (binding : List String) (bound : Option Expr) :
    Accreting (insertBound adopt binding bound) :=
  .insertBound fun e _ => accreting_insertIn adopt binding e

theorem accreting_insertList (adopt : Bool) (binding : List String) (es : List Expr) :
    Accreting (insertList adopt binding es) :=
  .insertList fun e _ => accreting_insertIn adopt binding e

theorem lt_size_of_internWith (h : (internWith adopt r).run z = .ok id z') :
    id.index < z'.size := by
  rcases internWith_cases adopt r z with
    ⟨err, hrun⟩ | ⟨id', hlookup, -, hrun⟩ | ⟨-, -, hrun⟩
  · cases h.symm.trans hrun
  · cases h.symm.trans hrun
    obtain ⟨-, w, hw, -⟩ := lookup_eq_some hlookup
    exact lt_size_of_weight? hw
  · cases h.symm.trans hrun
    simp [size, push]

theorem run_insertList_cons {z₁ : Zone} {ids : List NodeId}
    (he : (insertIn adopt binding e).run z = .ok id z₁)
    (hes : (insertList adopt binding es).run z₁ = .ok ids z') :
    (insertList adopt binding (e :: es)).run z = .ok (id :: ids) z' :=
  run_bind_eq_ok.mpr ⟨id, z₁, he, run_bind_eq_ok.mpr ⟨ids, z', hes, rfl⟩⟩

/-- An insertion inserts the children, one after the other, or the value of a symbol. Its last step
is to intern the record that refers to their nodes. -/
theorem insertIn_cases (h : (insertIn adopt binding e).run z = .ok id z') :
    ∃ r z₁, (internWith adopt r).run z₁ = .ok id z' ∧
      (r.bound? = none ∧ (insertList adopt binding e.children).run z = .ok r.children z₁ ∨
        ∃ kind name v i, e = .symbol kind name (some v) ∧ r.children = [] ∧ r.bound? = some i ∧
          (insertIn adopt (name :: binding) v).run z = .ok i z₁) := by
  cases e with
  | number x => exact ⟨_, z, h, .inl ⟨rfl, rfl⟩⟩
  | symbol kind name bound =>
    obtain ⟨i, z₁, hi, h⟩ := run_bind_eq_ok.mp h
    cases bound with
    | none =>
      cases hi
      exact ⟨_, z, h, .inl ⟨rfl, rfl⟩⟩
    | some v =>
      obtain ⟨j, z₁, hv, hi⟩ := run_bind_eq_ok.mp hi
      cases hi
      exact ⟨_, z₁, h, .inr ⟨kind, name, v, j, rfl, rfl, rfl, hv⟩⟩
  | term c a x =>
    obtain ⟨i, z₁, hi, h⟩ := run_bind_eq_ok.mp h
    obtain ⟨j, z₂, hj, h⟩ := run_bind_eq_ok.mp h
    obtain ⟨k, z₃, hk, h⟩ := run_bind_eq_ok.mp h
    exact ⟨_, z₃, h, .inl ⟨rfl, run_insertList_cons hi
      (run_insertList_cons hj (run_insertList_cons hk rfl))⟩⟩
  | unary op e =>
    obtain ⟨i, z₁, hi, h⟩ := run_bind_eq_ok.mp h
    exact ⟨_, z₁, h, .inl ⟨rfl, run_insertList_cons hi rfl⟩⟩
  | binary op l r =>
    obtain ⟨i, z₁, hi, h⟩ := run_bind_eq_ok.mp h
    obtain ⟨j, z₂, hj, h⟩ := run_bind_eq_ok.mp h
    exact ⟨_, z₂, h, .inl ⟨rfl, run_insertList_cons hi (run_insertList_cons hj rfl)⟩⟩
  | nary op es | call name es =>
    obtain ⟨ids, z₁, hids, h⟩ := run_bind_eq_ok.mp h
    exact ⟨_, z₁, h, .inl ⟨rfl, hids⟩⟩

theorem lt_size_of_insertIn (h : (insertIn adopt binding e).run z = .ok id z') :
    id.index < z'.size := by
  obtain ⟨r, z₁, h, -⟩ := insertIn_cases h
  exact lt_size_of_internWith h

end Insert

section Operations

variable {z : Zone} {op : Operation} {ops : List Operation}

theorem accretes_apply (h : op.isInsertion = true) : z.Accretes (z.apply op) := by
  cases op with
  | intern r => exact accreting_internWith false r z
  | insert e => exact accreting_insertIn false [] e z
  | assign => cases h

theorem accretes_applyAll (h : ∀ op ∈ ops, op.isInsertion = true) :
    z.Accretes (z.applyAll ops) := by
  induction ops generalizing z with
  | nil => exact .refl
  | cons op ops ih =>
    exact (accretes_apply (h op (by simp))).trans (ih fun op hop => h op (by simp [hop]))

theorem applyAll_append (z : Zone) (ops ops' : List Operation) :
    z.applyAll (ops ++ ops') = (z.applyAll ops).applyAll ops' :=
  List.foldl_append

/-- Which table a binding is published to makes no difference to the zone. -/
theorem assign_eq_apply {τ : Type} [SymbolTable τ] (name : String) (value : Option Expr) (z : Zone)
    (table : τ) : (z.assign name value table).2.1 = z.apply (.assign name value) := by
  cases value with
  | none => rfl
  | some v =>
    unfold apply assign
    simp only
    cases (bindValue name v).run z <;> rfl

variable {motive : Zone → Prop}

theorem accretes_keeps (hadds : ∀ z z', motive z → z.Adds z' → motive z') {z z' : Zone}
    (hz : motive z) (h : z.Accretes z') : motive z' := by
  induction h with
  | refl => exact hz
  | tail _ hadd ih => exact hadds _ _ ih hadd

/-- What added nodes keep, and new values from which their names are not reached, an operation
keeps. -/
theorem apply_keeps (hadds : ∀ z z', motive z → z.Adds z' → motive z')
    (hset : ∀ (z : Zone) name bound, motive z →
      (∀ id ∈ bound, id.index < z.size ∧ z.reaches id name = false) →
      motive (z.setAll name bound))
    (hz : motive z) (op : Operation) : motive (z.apply op) := by
  cases op with
  | intern r => exact accretes_keeps hadds hz (accreting_internWith false r z)
  | insert e => exact accretes_keeps hadds hz (accreting_insertIn false [] e z)
  | assign name value =>
    cases value with
    | none => exact hset z name none hz (by simp)
    | some v =>
      have haccretes := accreting_insertIn true [] v z
      rw [apply]
      rcases assign_cases name v z () with ⟨err, z', hrun, hassign⟩ | ⟨id, z', hrun, hassign⟩
      · rw [leave_of_error hrun] at haccretes
        rw [hassign]
        exact accretes_keeps hadds hz haccretes
      · rw [leave_of_ok hrun] at haccretes
        have hz' := accretes_keeps hadds hz haccretes
        rcases hassign with ⟨-, hassign⟩ | ⟨hreaches, hassign⟩
        · rw [hassign]
          exact hz'
        · rw [hassign]
          refine hset z' name (some id) hz' ?_
          intro i hi
          obtain rfl : id = i := Option.some.inj hi
          exact ⟨lt_size_of_insertIn hrun, hreaches⟩

/-- What is true of an empty zone, and kept by both changes, is true after all operations. -/
theorem after_keeps (hasher : Hasher) (hempty : motive (empty hasher))
    (hadds : ∀ z z', motive z → z.Adds z' → motive z')
    (hset : ∀ (z : Zone) name bound, motive z →
      (∀ id ∈ bound, id.index < z.size ∧ z.reaches id name = false) →
      motive (z.setAll name bound))
    (ops : List Operation) : motive (after hasher ops) := by
  unfold after applyAll
  generalize empty hasher = z at hempty
  induction ops generalizing z with
  | nil => exact hempty
  | cons op ops ih => exact ih (z.apply op) (apply_keeps hadds hset hempty op)

end Operations

end Zone

end Formulary
