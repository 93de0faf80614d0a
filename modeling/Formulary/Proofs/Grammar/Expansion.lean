import Mathlib.Data.List.Forall2
import Formulary.Proofs.Grammar.Opening

/-!
Extraction loses nothing. It succeeds on the token lists whose delimiters pair off, and on no
others; every group that it stores has one placeholder, and putting the groups back in the places of
their placeholders gives the tokens again.
-/

namespace Formulary

/-- The token lists whose delimiters pair off without crossing each other. -/
inductive WellNested : List Token → Prop
  | nil : WellNested []
  | other {t : Token} {ts : List Token} :
      t.isDelimiter = false → WellNested ts → WellNested (t :: ts)
  | group {d : Delimiter} {opening closing : Token} {ts us : List Token} :
      opening.kind = d.opening → closing.kind = d.closing → WellNested ts → WellNested us →
      WellNested (opening :: (ts ++ closing :: us))

section WellNested

variable {ts : List Token}

theorem nestItems?_token (opened : List Delimiter) (ts : List Token) :
    nestItems? opened (ts.map .token) = nest? opened ts := by
  induction ts generalizing opened with
  | nil => rfl
  | cons t ts ih =>
    rw [List.map_cons, nestItems?_cons, nest?_cons]
    exact congrArg _ (funext ih)

theorem WellNested.nested (h : WellNested ts) : Nested ts := by
  induction h with
  | nil => rfl
  | other ht _ ih => exact (nested_cons ht).mpr ih
  | group ho hc _ _ iht ihu => simpa using (iht.group ho hc).append ihu

theorem exists_delimiter {t : Token} (h : t.isDelimiter = true) :
    ∃ d : Delimiter, t.kind = d.opening ∨ t.kind = d.closing := by
  unfold Token.isDelimiter at h
  cases hk : t.kind <;> simp [hk] at h
  · exact ⟨.paren, .inl rfl⟩
  · exact ⟨.paren, .inr rfl⟩
  · exact ⟨.bracket, .inl rfl⟩
  · exact ⟨.bracket, .inr rfl⟩

/-- What is opened first is closed somewhere later, with nested tokens before and after it. -/
theorem wellNested_iff : WellNested ts ↔ Nested ts := by
  refine ⟨WellNested.nested, fun h => ?_⟩
  induction hlength : ts.length using Nat.strongRecOn generalizing ts with
  | ind count ih =>
    subst hlength
    rcases ts with _ | ⟨t, ts⟩
    · exact .nil
    by_cases ht : t.isDelimiter = true
    · obtain ⟨d, ho | hc⟩ := exists_delimiter ht
      · rw [Nested, nest?_cons, nestStep?_opening ho, Option.bind_some, ← nestItems?_token] at h
        obtain ⟨is, c, js, hts, his, hc⟩ := exists_closing [] h
        obtain ⟨inside, rest, rfl, rfl, hrest⟩ := List.map_eq_append_iff.mp hts
        obtain ⟨closing, after, rfl, rfl, rfl⟩ := List.map_eq_cons_iff.mp hrest
        have hkind : closing.kind = d.closing := beq_iff_eq.mp hc
        rw [nestItems?_token] at h his
        have hafter : Nested after := by
          rwa [nest?_append, Nested.nest?_eq his, Option.bind_some, nest?_cons,
            nestStep?_closing hkind] at h
        simp only [List.length_cons, List.length_append] at ih
        exact .group ho hkind (ih _ (by omega) his rfl) (ih _ (by omega) hafter rfl)
      · rw [Nested, nest?_cons, Option.bind_eq_some_iff] at h
        obtain ⟨rest, hstep, -⟩ := h
        exact absurd (exists_of_nestStep?_closing hc hstep) (by simp)
    · have ht : t.isDelimiter = false := by simpa using ht
      exact .other ht (ih _ (by simp) ((nested_cons ht).mp h) rfl)

end WellNested

/-- What is still known of a token when groups are taken out: all of an ordinary one, the kind of a
group's delimiter, the name of a callee. -/
inductive Mark
  | token (t : Token)
  | delimiter (kind : TokenKind)
  | callee (name : String)
  deriving DecidableEq, Repr

def Mark.IsOf : Mark → Token → Prop
  | token t, t' => t = t'
  | delimiter kind, t => t.kind = kind
  | callee name, t => t.isWord ∧ t.lexeme = name

/-- A group around what stands in it. -/
def GroupKind.around (kind : GroupKind) (inside : List Mark) : List Mark :=
  match kind with
  | .paren => .delimiter .openParen :: (inside ++ [.delimiter .closeParen])
  | .bracket => .delimiter .openBracket :: (inside ++ [.delimiter .closeBracket])
  | .call name => .callee name :: .delimiter .openParen :: (inside ++ [.delimiter .closeParen])

namespace Group

/-- An item, or all of the group that it is a placeholder of, given how contents are written. -/
def expandItem (S : Store) (write : List Item → List Mark) : Item → List Mark
  | .token t => [.token t]
  | .group index _ =>
    match S[index]? with
    | some ⟨kind, some contents, _⟩ => kind.around (write contents)
    | _ => []

/-- Puts groups back into their places, to a given depth. -/
def expand (S : Store) : Nat → List Item → List Mark
  | 0, items => items.flatMap (expandItem S fun _ => [])
  | depth + 1, items => items.flatMap (expandItem S (expand S depth))

/-- The places in the store that items are placeholders of. -/
def placeholders (items : List Item) : List Nat :=
  items.filterMap fun
    | .token _ => none
    | .group index _ => some index

/-- The placeholders in the group at a place of the store. -/
def placeholdersAt (S : Store) (index : Nat) : List Nat :=
  ((S[index]?.bind Fragment.contents).map placeholders).getD []

section Expand

variable {S : Store} {items : List Item} {index depth : Nat} {kind : GroupKind} {span area : Span}

theorem expand_cons (S : Store) (depth : Nat) (item : Item) (items : List Item) :
    expand S depth (item :: items) = expand S depth [item] ++ expand S depth items := by
  cases depth <;> simp [expand]

theorem expand_token (S : Store) (depth : Nat) (t : Token) :
    expand S depth [.token t] = [.token t] := by
  cases depth <;> rfl

theorem expand_group (h : S[index]? = some ⟨kind, some items, area⟩) :
    expand S (depth + 1) [.group index span] = kind.around (expand S depth items) := by
  simp [expand, expandItem, h]

@[simp] theorem placeholders_nil : placeholders [] = [] := rfl

@[simp] theorem placeholders_token (t : Token) (items : List Item) :
    placeholders (.token t :: items) = placeholders items := rfl

@[simp] theorem placeholders_group (index : Nat) (span : Span) (items : List Item) :
    placeholders (.group index span :: items) = index :: placeholders items := rfl

theorem placeholdersAt_eq (h : S[index]? = some ⟨kind, some items, area⟩) :
    placeholdersAt S index = placeholders items := by
  simp [placeholdersAt, h]

end Expand

end Group

/-- The kind of a group keeps what its callee and its delimiters are. -/
theorem Delimiter.around_groupKind {d : Delimiter} {callee : Option Token} {opening closing : Token}
    {inside : List Mark} {ts : List Token} (hinside : List.Forall₂ Mark.IsOf inside ts)
    (hcallee : ∀ t ∈ callee, d = .paren ∧ t.isWord) (ho : opening.kind = d.opening)
    (hc : closing.kind = d.closing) :
    List.Forall₂ Mark.IsOf ((d.groupKind callee).around inside)
      (callee.toList ++ opening :: (ts ++ [closing])) := by
  have hend : List.Forall₂ Mark.IsOf (inside ++ [.delimiter d.closing]) (ts ++ [closing]) :=
    List.rel_append hinside (.cons hc .nil)
  cases callee with
  | none => cases d <;> exact .cons ho hend
  | some t =>
    obtain ⟨rfl, ht⟩ := hcallee t rfl
    exact .cons ⟨ht, rfl⟩ (.cons ho hend)

namespace Stands

open Formulary.Group

variable {S : Store} {ps : List Piece} {used : List Nat}

/-- No group is deeper than there are groups. -/
theorem expand_isOf {depth : Nat} (h : Stands S ps used) (hdepth : used.length ≤ depth) :
    List.Forall₂ Mark.IsOf (expand S depth (itemsOf ps)) (tokensOf ps) := by
  induction h generalizing depth with
  | nil => cases depth <;> exact .nil
  | token _ _ ih =>
    rw [itemsOf_cons, expand_cons]
    change List.Forall₂ _ (expand S depth [.token _] ++ _) _
    rw [expand_token]
    exact .cons rfl (ih hdepth)
  | group hat hcallee ho hc _ _ _ ihinner ihouter =>
    simp only [List.length_cons, List.length_append] at hdepth
    obtain ⟨depth, rfl⟩ : ∃ d, depth = d + 1 := ⟨depth - 1, by omega⟩
    rw [itemsOf_cons, expand_cons, expand_group hat, tokensOf_cons]
    exact List.rel_append (Delimiter.around_groupKind (ihinner (by omega)) hcallee ho hc)
      (ihouter (by omega))

/-- The groups that pieces use are those that have a placeholder, each a single one. -/
theorem perm_placeholders (h : Stands S ps used) :
    used.Perm (placeholders (itemsOf ps) ++ used.flatMap (placeholdersAt S)) := by
  induction h with
  | nil => exact .refl _
  | token _ _ ih => exact ih
  | @group d callee o c index span area contents ps inner outer hat _ _ _ _ _ _ ihinner ihouter =>
    rw [itemsOf_cons, placeholders_group, List.cons_append, List.flatMap_cons,
      placeholdersAt_eq hat, List.flatMap_append]
    refine .cons index ((ihinner.append ihouter).trans ?_)
    rw [← List.append_assoc (placeholders (itemsOf contents))]
    exact List.perm_append_comm_assoc ..

theorem not_mem_placeholdersAt (h : Stands S ps used) (hnodup : used.Nodup) :
    ∀ index ∈ used, index ∉ placeholdersAt S index := by
  induction h with
  | nil => simp
  | token _ _ ih => exact ih hnodup
  | @group d callee o c index span area contents ps inner outer hat _ _ _ _ hinner _ ihinner
      ihouter =>
    rw [List.nodup_cons, List.mem_append, not_or, List.nodup_append] at hnodup
    obtain ⟨⟨hindex, -⟩, hn, hn', -⟩ := hnodup
    simp only [List.mem_cons, List.mem_append]
    rintro i (rfl | hi | hi)
    · rw [placeholdersAt_eq hat]
      exact fun hm => hindex (hinner.perm_placeholders.mem_iff.mpr (List.mem_append_left _ hm))
    · exact ihinner hn i hi
    · exact ihouter hn' i hi

end Stands

namespace Group

/-- What the items and the store that extraction leaves have to do with the tokens. -/
structure Extracts (ts : List Token) (items : List Item) (S : Store) : Prop where
  flat : ∀ t, .token t ∈ items → t.isDelimiter = false
  /-- Every group has one placeholder, among the items or in one other group. -/
  referenced : (placeholders items ++ (List.range S.size).flatMap (placeholdersAt S)).Perm
    (List.range S.size)
  apart : ∀ index < S.size, index ∉ placeholdersAt S index
  /-- With the groups back in their places, the tokens are as they were. -/
  expands : List.Forall₂ Mark.IsOf (expand S S.size items) ts
  /-- Whatever groups were opened before, each of the others can be. -/
  opens : ∀ T, Opened S T → ∀ f ∈ T, ∀ contents ∈ f.contents, ∀ U,
    ∃ items' U', (extract contents).run U = .ok items' U'

theorem nestItems?_of_extract {ts : List Token} {items : List Item} {S : Store}
    (h : (extract (ts.map .token)).run #[] = .ok items S) :
    nestItems? [] (ts.map .token) = some [] := by
  rw [← itemsOf_ofToken] at h
  obtain ⟨qs, used, -, hqs, hflat⟩ :=
    extract_regroups (Stands.ofTokens #[] ts) List.nodup_nil h
  have hnested := hqs.stands.nested hflat
  rwa [hqs.tokens_eq, tokensOf_ofToken, Nested, ← nestItems?_token] at hnested

theorem extracts_of_eq_ok {ts : List Token} {items : List Item} {S : Store}
    (h : (extract (ts.map .token)).run #[] = .ok items S) : Extracts ts items S := by
  have htidy : Tidy S := by
    obtain ⟨_, _, hrun, htidy⟩ := extract_isOk (nestItems?_of_extract h) #[]
    cases h.symm.trans hrun
    exact htidy fun f hf => absurd hf (by simp)
  rw [← itemsOf_ofToken] at h
  obtain ⟨qs, used, rfl, hqs, hflat⟩ :=
    extract_regroups (Stands.ofTokens #[] ts) List.nodup_nil h
  have hused : used.Perm (List.range S.size) := by
    rw [List.perm_ext_iff_of_nodup hqs.nodup List.nodup_range]
    intro i
    rw [List.mem_range]
    exact ⟨hqs.stands.lt_size i, fun hi => hqs.covers i hi (.inr (Nat.zero_le i))⟩
  refine ⟨?_, ?_, ?_, ?_, ?_⟩
  · intro t ht
    obtain ⟨q, hq, hitem⟩ := List.mem_map.mp ht
    simpa [Piece.isDelimiter, hitem] using hflat q hq
  · have hstored := (hused.flatMap_right (placeholdersAt S)).append_left (placeholders (itemsOf qs))
    exact hstored.symm.trans (hqs.stands.perm_placeholders.symm.trans hused)
  · intro i hi
    have hmem : i ∈ used := hused.mem_iff.mpr (List.mem_range.mpr hi)
    exact hqs.stands.not_mem_placeholdersAt hqs.nodup i hmem
  · have hdepth : used.length ≤ S.size := by simpa using hused.length_eq.le
    have hexpand := hqs.stands.expand_isOf hdepth
    rwa [hqs.tokens_eq, tokensOf_ofToken] at hexpand
  · intro T hT f hf contents hcontents U
    have htidy' : Tidy T := hT.keeps (fun _ _ _ _ => Opens.tidy) htidy
    obtain ⟨items', U', hrun, -⟩ := extract_isOk (htidy' f hf contents hcontents) U
    exact ⟨items', U', hrun⟩

/-- Extraction goes through on well-nested tokens and on no others, and loses nothing. -/
theorem extract_isOk_iff_wellNested (ts : List Token) :
    ((∃ items S, (extract (ts.map .token)).run #[] = .ok items S) ↔ WellNested ts) ∧
      ∀ items S, (extract (ts.map .token)).run #[] = .ok items S → Extracts ts items S := by
  refine ⟨?_, fun items S => extracts_of_eq_ok⟩
  rw [wellNested_iff, Nested, ← nestItems?_token]
  constructor
  · rintro ⟨items, S, h⟩
    exact nestItems?_of_extract h
  · intro h
    obtain ⟨items, S, hrun, -⟩ := extract_isOk h #[]
    exact ⟨items, S, hrun⟩

/-- In `f([a])` the brackets stay with the contents of the call. -/
theorem extracts_brackets_in_call :
    ∃ ts S, (extract (ts.map .token)).run #[] = .ok [.group 0 ⟨0, 6⟩] S ∧ S.size = 1 ∧
      Extracts ts [.group 0 ⟨0, 6⟩] S :=
  ⟨[⟨.name, "f", ⟨0, 1⟩⟩, ⟨.openParen, "(", ⟨1, 2⟩⟩, ⟨.openBracket, "[", ⟨2, 3⟩⟩,
      ⟨.name, "a", ⟨3, 4⟩⟩, ⟨.closeBracket, "]", ⟨4, 5⟩⟩, ⟨.closeParen, ")", ⟨5, 6⟩⟩],
    _, rfl, rfl, (extract_isOk_iff_wellNested _).2 _ _ rfl⟩

end Group

end Formulary
