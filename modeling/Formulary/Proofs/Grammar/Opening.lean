import Mathlib.Logic.Relation
import Formulary.Proofs.Grammar.Parsing

/-!
Opening groups. Reading changes the store of groups in one way only: a group is fetched, and the
groups inside it are taken out. What every such step keeps is kept by whatever is read.
-/

namespace Formulary

/-- A group is opened: its contents are fetched, and `items` is left when groups are taken out. -/
def Opens (index : Nat) (items : List Item) (S T : Store) : Prop :=
  ∃ kind contents area, S[index]? = some ⟨kind, some contents, area⟩ ∧
    (Group.extract contents).run (S.setIfInBounds index ⟨kind, none, area⟩) = .ok items T

/-- What opening groups one after the other makes of a store. -/
def Opened : Store → Store → Prop :=
  Relation.ReflTransGen fun S T => ∃ index items, Opens index items S T

section Stored

variable {P : List Item → Prop} {index : Nat} {items : List Item} {S T : Store}

theorem Stored.fetched {kind : GroupKind} {area : Span} (h : Stored P S) :
    Stored P (S.setIfInBounds index ⟨kind, none, area⟩) := by
  intro f hf
  rcases Array.mem_or_eq_of_mem_setIfInBounds hf with hf | rfl
  · exact h f hf
  · simp

theorem Stored.contents {kind : GroupKind} {contents : List Item} {area : Span} (h : Stored P S)
    (hat : S[index]? = some ⟨kind, some contents, area⟩) : P contents :=
  h _ (Array.mem_of_getElem? hat) contents rfl

theorem Opens.tidy (hopens : Opens index items S T) (h : Tidy S) : Tidy T := by
  obtain ⟨kind, contents, area, hat, hrun⟩ := hopens
  obtain ⟨items', T', hrun', hT⟩ :=
    Group.extract_isOk (h.contents hat) (S.setIfInBounds index ⟨kind, none, area⟩)
  cases hrun.symm.trans hrun'
  exact hT h.fetched

/-- What opening one group keeps of a store, opening many keeps. -/
theorem Opened.keeps {Q : Store → Prop}
    (hopens : ∀ ⦃index items S T⦄, Opens index items S T → Q S → Q T) (h : Opened S T) (hS : Q S) :
    Q T := by
  induction h with
  | refl => exact hS
  | tail _ hstep ih =>
    obtain ⟨index, items, hstep⟩ := hstep
    exact hopens hstep ih

end Stored

namespace Parser

section Opened

variable {source : String} {fuel index : Nat} {level : Level} {op : Token} {span : Span}
  {items : List Item} {read : List Item → Parser Expr} {e : Expr} {S T : Store}

theorem side_opened (hread : ∀ ⦃items S e T⦄, (read items).run S = .ok e T → Opened S T)
    (h : (side op read items).run S = .ok e T) : Opened S T :=
  hread (side_eq_ok.mp h).2

theorem group_opened (hread : ∀ ⦃items S e T⦄, (read items).run S = .ok e T → Opened S T)
    (h : (group source read index span).run S = .ok e T) : Opened S T := by
  obtain ⟨kind, contents, area, items, T', hat, hextract, hrest⟩ := group_eq_ok.mp h
  have hstep : Opened S T' := .single ⟨index, items, kind, contents, area, hat, hextract⟩
  rcases hrest with ⟨-, -, -, -, rfl⟩ | ⟨-, inner, hinner, -⟩
  · exact hstep
  · exact hstep.trans (hread hinner)

theorem operand_opened (hread : ∀ ⦃items S e T⦄, (read items).run S = .ok e T → Opened S T)
    (h : (operand source read items).run S = .ok e T) : Opened S T := by
  unfold operand at h
  split at h
  · exact (run_throw_ne_ok h).elim
  · exact (run_throw_ne_ok h).elim
  · split at h
    · exact (run_pure_eq_ok.mp h).2 ▸ .refl
    · exact (run_pure_eq_ok.mp h).2 ▸ .refl
    · exact (run_throw_ne_ok h).elim
  · exact group_opened hread h

/-- Reading does no more to the store than to open groups. -/
theorem readAt_opened (h : (readAt source fuel level items).run S = .ok e T) : Opened S T := by
  induction fuel generalizing level items S e T with
  | zero => exact (run_throw_ne_ok h).elim
  | succ fuel ih =>
    rcases items with _ | ⟨i, items⟩
    · exact (run_throw_ne_ok h).elim
    by_cases hlevel : level = .atom
    · subst hlevel
      exact operand_opened (fun _ _ _ _ h => ih h) h
    rw [readAt_succ hlevel (by simp)] at h
    split at h
    · obtain ⟨e', T', hside, h⟩ := run_bind_eq_ok.mp h
      obtain ⟨-, rfl⟩ := run_pure_eq_ok.mp h
      exact side_opened (fun _ _ _ _ h => ih h) hside
    · obtain ⟨l, T', hbefore, h⟩ := run_bind_eq_ok.mp h
      obtain ⟨r, T'', hafter, h⟩ := run_bind_eq_ok.mp h
      obtain ⟨-, rfl⟩ := run_pure_eq_ok.mp h
      exact (side_opened (fun _ _ _ _ h => ih h) hbefore).trans
        (side_opened (fun _ _ _ _ h => ih h) hafter)
    · exact ih h

end Opened

end Parser

end Formulary
