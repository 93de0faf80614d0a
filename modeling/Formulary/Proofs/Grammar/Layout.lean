import Formulary.Proofs.Token.Tiling
import Formulary.Proofs.Grammar.Safety

/-!
Where items stand. The items of a parse stand in the text in their order and apart from each other,
a placeholder in the place of its whole group. Taking groups out keeps this, and so does every call.
-/

namespace Formulary

/-- An item covers whole characters of the text, and a token says what they say. -/
structure Item.Placed (source : String) (item : Item) : Prop where
  solid : item.span.Solid source
  text : ∀ t, item = .token t → t.span.text source = t.lexeme

/-- Items in the order of the text, apart from each other and none before a given place. -/
inductive Laid (source : String) : Nat → List Item → Prop
  | nil {place : Nat} : Laid source place []
  | cons {place : Nat} {item : Item} {items : List Item} :
      place ≤ item.span.start → item.Placed source → Laid source item.span.stop items →
      Laid source place (item :: items)

namespace Laid

variable {source : String} {place place' : Nat} {item : Item} {items is js : List Item}

theorem mono (h : Laid source place items) (hle : place' ≤ place) : Laid source place' items := by
  cases h with
  | nil => exact .nil
  | cons hplace hitem hrest => exact .cons (Nat.le_trans hle hplace) hitem hrest

theorem sublist (h : Laid source place js) (hsub : is.Sublist js) : Laid source place is := by
  induction hsub generalizing place with
  | slnil => exact h
  | cons _ _ ih =>
    cases h with
    | cons hplace hitem hrest =>
      exact ih (hrest.mono (Nat.le_trans hplace (Nat.le_of_lt hitem.solid.start_lt_stop)))
  | cons_cons _ _ ih =>
    cases h with
    | cons hplace hitem hrest => exact .cons hplace hitem (ih hrest)

theorem placed (h : Laid source place items) : ∀ item ∈ items, item.Placed source := by
  induction h with
  | nil => simp
  | cons _ hitem _ ih => exact List.forall_mem_cons.mpr ⟨hitem, ih⟩

/-- A group that is taken out leaves its placeholder in its place. -/
theorem enclose {first last : Item} {after : List Item} (index : Nat) (mid : List Item)
    (h : Laid source place (first :: (mid ++ last :: after))) :
    Laid source place (.group index (first.span.upTo last.span) :: after) := by
  have hends : Laid source place (first :: last :: after) :=
    h.sublist ((List.sublist_append_right mid _).cons_cons first)
  cases hends with
  | cons hplace hfirst hrest =>
    cases hrest with
    | cons hle hlast hafter => exact .cons hplace ⟨hfirst.solid.upTo hlast.solid hle, nofun⟩ hafter

end Laid

/-- The contents of all groups in the store are laid out like the text. -/
abbrev StoreLaid (source : String) : Store → Prop := Stored (Laid source 0)

namespace Group

variable {source : String} {place : Nat} {d : Delimiter} {opening : Token}
  {item : Item} {items items' : List Item} {S S' : Store}

theorem close_laid (callee : Option Token)
    (h : Laid source place (callee.toList.map .token ++ .token opening :: items))
    (hrun : (close d callee opening items).run S = .ok items' S') :
    Laid source place items' ∧ (StoreLaid source S → StoreLaid source S') := by
  obtain ⟨inside, c, after, rfl, -, -, -, rfl, rfl⟩ := close_eq_ok.mp hrun
  constructor
  · cases callee with
    | none => exact h.enclose S.size inside
    | some callee => exact h.enclose S.size (.token opening :: inside)
  · refine fun hS => hS.push ((h.mono (Nat.zero_le place)).sublist ?_)
    have hinside : inside.Sublist (.token opening :: (inside ++ c :: after)) :=
      (List.sublist_append_left inside _).cons _
    exact hinside.trans (List.sublist_append_right _ _)

theorem consider_laid (h : Laid source place (item :: items))
    (hrun : (consider d item items).run S = .ok items' S') :
    Laid source place items' ∧ (StoreLaid source S → StoreLaid source S') := by
  cases item with
  | group =>
    obtain ⟨rfl, rfl⟩ := run_pure_eq_ok.mp hrun
    exact ⟨h, id⟩
  | token t =>
    rw [consider_token] at hrun
    split at hrun
    · exact close_laid none h hrun
    · obtain ⟨rfl, rfl⟩ := run_pure_eq_ok.mp hrun
      exact ⟨h, id⟩

/-- A pass keeps items in their places. -/
theorem pass_laid {source : String} {place : Nat} {d : Delimiter} {items items' : List Item}
    {S S' : Store} (h : Laid source place items) (hrun : (pass d items).run S = .ok items' S') :
    Laid source place items' ∧ (StoreLaid source S → StoreLaid source S') := by
  match items with
  | [] =>
    obtain ⟨rfl, rfl⟩ := run_pure_eq_ok.mp hrun
    exact ⟨h, id⟩
  | [item] => exact consider_laid h hrun
  | item :: next :: rest =>
    rw [pass] at hrun
    cases h with
    | cons hplace hitem hrest =>
      cases hcall : d.call? item next with
      | some call =>
        obtain ⟨callee, opening⟩ := call
        obtain ⟨-, rfl, rfl, -, -⟩ := Delimiter.call?_eq_some hcall
        rw [hcall] at hrun
        obtain ⟨left, T, hpass, hclose⟩ := run_bind_eq_ok.mp hrun
        cases hrest with
        | cons hplace' hopening hrest =>
          -- The rest stands after the delimiter, whatever a pass makes of it.
          obtain ⟨hleft, hT⟩ := pass_laid hrest hpass
          have hcallee := Laid.cons hplace hitem (.cons hplace' hopening hleft)
          obtain ⟨hitems', hS'⟩ := close_laid (some callee) hcallee hclose
          exact ⟨hitems', fun hS => hS' (hT hS)⟩
      | none =>
        rw [hcall] at hrun
        obtain ⟨left, T, hpass, hconsider⟩ := run_bind_eq_ok.mp hrun
        obtain ⟨hleft, hT⟩ := pass_laid hrest hpass
        obtain ⟨hitems', hS'⟩ := consider_laid (.cons hplace hitem hleft) hconsider
        exact ⟨hitems', fun hS => hS' (hT hS)⟩
termination_by items.length

theorem extract_laid (h : Laid source place items)
    (hrun : (extract items).run S = .ok items' S') :
    Laid source place items' ∧ (StoreLaid source S → StoreLaid source S') := by
  simp only [extract, run_bind_eq_ok, run_pure_eq_ok, refuseStray_eq_ok] at hrun
  obtain ⟨is, T, hparens, _, _, ⟨-, rfl⟩, js, T', hbrackets, _, _, ⟨-, rfl⟩, rfl, rfl⟩ := hrun
  obtain ⟨his, hT⟩ := pass_laid h hparens
  obtain ⟨hjs, hT'⟩ := pass_laid his hbrackets
  exact ⟨hjs, fun hS => hT' (hT hS)⟩

end Group

section Calls

variable {source : String} {index : Nat} {items : List Item} {S T : Store} {c c' : Parser.Call}

theorem Opens.laid (h : Opens index items S T) (hS : StoreLaid source S) :
    Laid source 0 items ∧ StoreLaid source T := by
  obtain ⟨kind, contents, area, hat, hextract⟩ := h
  obtain ⟨hitems, hT⟩ := Group.extract_laid (hS.contents hat) hextract
  exact ⟨hitems, hT hS.fetched⟩

theorem Opened.laid (h : Opened S T) (hS : StoreLaid source S) : StoreLaid source T :=
  h.keeps (fun _ _ _ _ hopens hS => (hopens.laid hS).2) hS

/-- The items of a call are laid out like the text, and so are those that it may still find. -/
structure Parser.Call.Laid (source : String) (c : Call) : Prop where
  items : Formulary.Laid source 0 c.items
  store : StoreLaid source c.store

theorem Parser.Calls.laid (hcalls : Calls source c c') (h : c.Laid source) : c'.Laid source := by
  cases hcalls with
  | sign _ hcut =>
    obtain ⟨hitems, -⟩ := cut_eq_sign hcut
    exact ⟨h.items.sublist (hitems ▸ List.sublist_cons_self _ _), h.store⟩
  | before _ hcut =>
    obtain ⟨hitems, -⟩ := cut_eq_operator hcut
    exact ⟨h.items.sublist (hitems ▸ List.sublist_append_left _ _), h.store⟩
  | after _ hcut _ hrun =>
    obtain ⟨hitems, -⟩ := cut_eq_operator hcut
    refine ⟨h.items.sublist ?_, (readAt_opened hrun).laid h.store⟩
    exact hitems ▸ (List.sublist_cons_self _ _).trans (List.sublist_append_right _ _)
  | whole => exact ⟨h.items, h.store⟩
  | group hopens =>
    obtain ⟨hitems, hT⟩ := hopens.laid h.store
    exact ⟨hitems, hT⟩

theorem laid_tokens {place : Nat} {ts : List Token}
    (hts : ∀ t ∈ ts, place ≤ t.span.start ∧ t.span.Solid source ∧ t.span.text source = t.lexeme)
    (hpairs : ts.Pairwise fun t u => t.span.stop ≤ u.span.start) :
    Laid source place (ts.map .token) := by
  induction ts generalizing place with
  | nil => exact .nil
  | cons t ts ih =>
    rw [List.pairwise_cons] at hpairs
    obtain ⟨hplace, hsolid, htext⟩ := hts t List.mem_cons_self
    refine .cons hplace ⟨hsolid, fun _ ht => ?_⟩ (ih (fun u hu => ?_) hpairs.2)
    · cases ht
      exact htext
    · exact ⟨hpairs.1 u hu, (hts u (List.mem_cons_of_mem t hu)).2⟩

/-- The items of all calls of a parse stand in the text in their order. -/
theorem Parser.Reached.laid (h : Reached source c) : c.Laid source := by
  induction h with
  | start _ _ hextract =>
    have htokens : Laid source 0 ((tokens source).map .token) :=
      laid_tokens (fun t ht => ⟨Nat.zero_le _, solid_and_text_of_mem_tokens ht⟩)
        (pairwise_tokens source)
    obtain ⟨hitems, hS⟩ := Group.extract_laid htokens hextract
    exact ⟨hitems, hS fun f hf => absurd hf (by simp)⟩
  | call _ hcalls ih => exact hcalls.laid ih

end Calls

end Formulary
