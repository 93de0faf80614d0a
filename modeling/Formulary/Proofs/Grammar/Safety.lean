import Formulary.Proofs.Grammar.Calls
import Formulary.Proofs.Grammar.Unpaired

/-!
Parsing does not break down. Whatever a text is, its parse ends with a tree or with an error that
says what is wrong with the text, and a tree is returned only when every group was read.
-/

namespace Formulary

namespace Parser

section Errors

variable {source : String} {index : Nat} {op : Token} {span : Span} {items : List Item}
  {read : List Item → Parser Expr} {err : ParseError} {S S' T : Store}

theorem side_eq_error : (side op read items).run S = .error err S' ↔
    (items = [] ∧ err = ⟨.emptyOperand op.lexeme, [op.span]⟩ ∧ S' = S) ∨
      (items ≠ [] ∧ (read items).run S = .error err S') := by
  unfold side
  rcases items with _ | ⟨i, items⟩
  · rw [List.isEmpty_nil, if_pos rfl, run_throw_eq_error]
    simp [eq_comm]
  · simp

/-- A group that can be opened is wrong if it is empty and no call, or else if its contents are. -/
theorem error_of_opens (hopens : Opens index items S T)
    (hrun : (group source read index span).run S = .error err S') :
    (items = [] ∧ err = ⟨.emptyGroup (span.text source), [span]⟩) ∨
      (items ≠ [] ∧ (read items).run T = .error err S') := by
  obtain ⟨kind, contents, area, hat, hextract⟩ := hopens
  rw [group, run_bind_of_ok (fetch_eq_ok.mpr ⟨area, hat, rfl⟩)] at hrun
  simp only at hrun
  rw [run_bind_of_ok hextract] at hrun
  rcases items with _ | ⟨i, items⟩
  · cases kind with
    | call => exact (run_pure_ne_error hrun).elim
    | paren | bracket => exact .inl ⟨rfl, (run_throw_eq_error.mp hrun).1.symm⟩
  · rcases run_bind_eq_error.mp hrun with hrun | ⟨_, _, -, hrun⟩
    · exact .inr ⟨nofun, hrun⟩
    · exact (run_pure_ne_error hrun).elim

end Errors

/-- What can be wrong with the items of a call. -/
inductive Faults (source : String) : List Item → ParseError → Prop
  | operand {op : Token} {level : Level} {before after : List Item} :
      op.operator? = some level → before = [] ∨ after = [] →
      Faults source (before ++ .token op :: after) ⟨.emptyOperand op.lexeme, [op.span]⟩
  | operator {lhs rhs : Item} {more : List Item} :
      Faults source (lhs :: rhs :: more)
        ⟨.missingOperator (lhs.span.text source) (rhs.span.text source), [lhs.span, rhs.span]⟩
  | group {index : Nat} {span : Span} :
      Faults source [.group index span] ⟨.emptyGroup (span.text source), [span]⟩

theorem Calls.fuel_eq {source : String} {c c' : Call} (h : Calls source c c') :
    c.fuel = c'.fuel + 1 := by
  cases h <;> rfl

namespace Call.Holds

variable {source : String} {fuel index : Nat} {level : Level} {span : Span} {t : Token}
  {items : List Item} {ps : List Piece} {used : List Nat} {err : ParseError} {S T : Store}

theorem tokens_pos (h : Holds ⟨fuel, level, items, S⟩ ps used) : 0 < (tokensOf ps).length := by
  obtain ⟨p, qs, rfl⟩ := List.exists_cons_of_ne_nil h.ne_nil
  have := List.length_pos_iff.mpr (h.stands.tokens_ne_nil p (by simp))
  simp only [tokensOf_cons, List.length_append]
  omega

theorem fuel_pos (h : Holds ⟨fuel, level, items, S⟩ ps used) : 0 < fuel := by
  have hpos := h.tokens_pos
  have hfuel : 9 * (tokensOf ps).length + 9 ≤ fuel + level.rank := h.fuel
  have hrank : level.rank ≤ 8 := by cases level <;> decide
  omega

theorem items_ne_nil (h : Holds ⟨fuel, level, items, S⟩ ps used) : items ≠ [] := by
  obtain rfl : items = itemsOf ps := h.items_eq
  simpa [itemsOf] using h.ne_nil

/-- Where nothing is left to cut, every token is a number or a name. -/
theorem operand (h : Holds ⟨fuel, .atom, items, S⟩ ps used) (ht : .token t ∈ items) :
    t.operator? = none ∧ t.isDelimiter = false ∧ (t.kind = .int ∨ t.kind = .name) := by
  have hop : t.operator? = none :=
    operator?_eq_none_of_uncut h.uncut (.inr (h.unsigned rfl)) (.token t) ht
  obtain rfl : items = itemsOf ps := h.items_eq
  obtain ⟨p, hp, hitem⟩ := List.mem_map.mp ht
  have hflat : t.isDelimiter = false := by simpa [Piece.isDelimiter, hitem] using h.flat p hp
  have hmem : t ∈ tokensOf ps := by
    obtain ⟨qs, rs, rfl⟩ := List.append_of_mem hp
    obtain ⟨_, _, -, hrest, -⟩ := h.stands.of_append
    obtain ⟨_, _, hpiece, -, -⟩ := hrest.of_cons
    obtain ⟨rfl, -⟩ := hpiece.eq_ofToken hitem
    simp [Piece.ofToken]
  obtain ⟨hblank, hrefused⟩ := h.known t hmem
  refine ⟨hop, hflat, ?_⟩
  rw [refused?_eq_none_iff] at hrefused
  unfold Token.operator? at hop
  unfold Token.isDelimiter at hflat
  cases hk : t.kind <;> simp_all

theorem exists_readAt_token (source : String) (h : Holds ⟨fuel + 1, .atom, [.token t], S⟩ ps used) :
    ∃ e, readAt source (fuel + 1) .atom [.token t] = pure e := by
  obtain ⟨-, -, hkind | hkind⟩ := h.operand (t := t) (by simp)
  · exact ⟨.number (Decimal.read t.lexeme), by simp only [readAt, Parser.operand, hkind]⟩
  · exact ⟨.named t.lexeme, by simp only [readAt, Parser.operand, hkind]⟩

/-- The group of a call can be opened. -/
theorem exists_opens (h : Holds ⟨fuel, .atom, [.group index span], S⟩ ps used) :
    ∃ items T, Opens index items S T := by
  have hnodup := h.nodup
  obtain ⟨kind, area, contents, inner, rfl, hat, hinner, hnested, -⟩ := h.exists_group
  obtain ⟨items, T, hextract, -⟩ := Group.extract_isOk ((hinner.nest?_eq []).symm.trans hnested)
    (S.setIfInBounds index ⟨kind, none, area⟩)
  exact ⟨items, T, kind, _, area, hat, hextract⟩

/-- An operand is at fault itself, or the contents of its group are. -/
theorem operand_fails (h : Holds ⟨fuel + 1, .atom, items, S⟩ ps used)
    (hrun : (readAt source (fuel + 1) .atom items).run S = .error err T) :
    Faults source items err ∨ ∃ c, Calls source ⟨fuel + 1, .atom, items, S⟩ c ∧
      ∃ T, (readAt source c.fuel c.level c.items).run c.store = .error err T := by
  match items with
  | [] => exact absurd rfl h.items_ne_nil
  | [.token t] =>
    obtain ⟨e, he⟩ := h.exists_readAt_token source
    rw [he] at hrun
    exact (run_pure_ne_error hrun).elim
  | [.group index span] =>
    obtain ⟨inside, T', hopens⟩ := h.exists_opens
    rcases error_of_opens hopens hrun with ⟨-, rfl⟩ | ⟨hne, hrun⟩
    · exact .inl .group
    · exact .inr ⟨_, .group hopens hne, T, hrun⟩
  | lhs :: rhs :: more =>
    obtain ⟨rfl, -⟩ := run_throw_eq_error.mp hrun
    exact .inl .operator

/-- A call that fails is at fault itself, or makes a call that fails. -/
theorem fails (h : Holds ⟨fuel + 1, level, items, S⟩ ps used)
    (hrun : (readAt source (fuel + 1) level items).run S = .error err T) :
    Faults source items err ∨ ∃ c, Calls source ⟨fuel + 1, level, items, S⟩ c ∧
      ∃ T, (readAt source c.fuel c.level c.items).run c.store = .error err T := by
  by_cases hlevel : level = .atom
  · subst hlevel
    exact h.operand_fails hrun
  rw [readAt_succ hlevel h.items_ne_nil] at hrun
  cases hcut : cut level items with
  | sign op kind rest =>
    rw [hcut] at hrun
    rcases run_bind_eq_error.mp hrun with hrun | ⟨_, _, -, hrun⟩
    · rcases side_eq_error.mp hrun with ⟨rfl, rfl, -⟩ | ⟨hne, hrun⟩
      · obtain ⟨rfl, hop⟩ := cut_eq_sign hcut
        exact .inl (show Faults source ([] ++ [.token op]) _ from .operand hop (.inl rfl))
      · exact .inr ⟨_, .sign hlevel hcut hne, T, hrun⟩
    · exact (run_pure_ne_error hrun).elim
  | operator before op after =>
    rw [hcut] at hrun
    obtain ⟨rfl, hop⟩ := cut_eq_operator hcut
    rcases run_bind_eq_error.mp hrun with hrun | ⟨lhs, T', hlhs, hrun⟩
    · rcases side_eq_error.mp hrun with ⟨rfl, rfl, -⟩ | ⟨hne, hrun⟩
      · exact .inl (.operand hop (.inl rfl))
      · exact .inr ⟨_, .before hlevel hcut hne, T, hrun⟩
    obtain ⟨hne, hlhs⟩ := side_eq_ok.mp hlhs
    rcases run_bind_eq_error.mp hrun with hrun | ⟨_, _, -, hrun⟩
    · rcases side_eq_error.mp hrun with ⟨rfl, rfl, -⟩ | ⟨hne', hrun⟩
      · exact .inl (.operand hop (.inr rfl))
      · exact .inr ⟨_, .after hlevel hcut hne hlhs hne', T, hrun⟩
    · exact (run_pure_ne_error hrun).elim
  | whole =>
    rw [hcut] at hrun
    exact .inr ⟨_, .whole hlevel hcut, T, hrun⟩

/-- A call that fails leads to one that is at fault. -/
theorem exists_faults {c : Call} (h : c.Holds ps used)
    (hrun : (readAt source c.fuel c.level c.items).run c.store = .error err T) :
    ∃ c', Relation.ReflTransGen (Calls source) c c' ∧ Faults source c'.items err := by
  obtain ⟨fuel, level, items, S⟩ := c
  induction fuel generalizing level items S ps used T with
  | zero => exact absurd h.fuel_pos (Nat.lt_irrefl 0)
  | succ fuel ih =>
    rcases h.fails hrun with hfault | ⟨⟨fuel', level', items', S'⟩, hcalls, T', hrun'⟩
    · exact ⟨_, .refl, hfault⟩
    · obtain ⟨ps', used', h'⟩ := h.calls hcalls
      obtain rfl : fuel = fuel' := Nat.succ.inj hcalls.fuel_eq
      obtain ⟨c', hreach, hfault⟩ := ih _ _ _ h' hrun'
      exact ⟨c', .head hcalls hreach, hfault⟩

end Call.Holds

/-- There is no group at the place, or its contents were taken. -/
def Taken (S : Store) (index : Nat) : Prop := S[index]?.bind Fragment.contents = none

section Taken

variable {used left right : List Nat} {index : Nat} {ts : List Token} {qs : List Piece}
  {S S' T : Store}

theorem taken_of_size_le (h : S.size ≤ index) : Taken S index := by
  rw [Taken, Array.getElem?_eq_none h]
  rfl

theorem Taken.keeps (h : Taken S index) (hkeeps : Keeps used S T) (hsize : index < S.size)
    (hindex : index ∉ used) : Taken T index := by
  rw [Taken, hkeeps.getElem?_eq index hsize hindex]
  exact h

theorem taken_setIfInBounds (S : Store) (index : Nat) (kind : GroupKind) (area : Span) :
    Taken (S.setIfInBounds index ⟨kind, none, area⟩) index := by
  by_cases h : index < S.size
  · simp [Taken, h]
  · exact taken_of_size_le (by simpa using h)

/-- A step takes all groups at the listed places, and those that it adds to the store. -/
structure Takes (used : List Nat) (S T : Store) : Prop where
  keeps : Keeps used S T
  taken : ∀ i, i ∈ used ∨ S.size ≤ i → Taken T i

theorem Takes.refl (S : Store) : Takes [] S S := by
  refine ⟨.refl [] S, ?_⟩
  rintro i (hi | hi)
  · simp at hi
  · exact taken_of_size_le hi

theorem Takes.append (h : Takes left S S') (h' : Takes right S' T) : Takes (left ++ right) S T := by
  refine ⟨(h.keeps.mono (by simp)).trans h'.keeps fun i hi => .inl (by simp [hi]), ?_⟩
  intro i hi
  -- What the second step does not touch is as the first one left it.
  by_cases hright : i ∈ right ∨ S'.size ≤ i
  · exact h'.taken i hright
  · rw [not_or, Nat.not_le] at hright
    refine (h.taken i ?_).keeps h'.keeps hright.2 hright.1
    simpa [hright.1] using hi

theorem takes_fetch (S : Store) (index : Nat) (kind : GroupKind) (area : Span) :
    Takes [index] S (S.setIfInBounds index ⟨kind, none, area⟩) := by
  refine ⟨.setIfInBounds S index _, ?_⟩
  rintro i (hi | hi)
  · rw [List.mem_singleton.mp hi]
    exact taken_setIfInBounds S index kind area
  · exact taken_of_size_le (by simpa using hi)

/-- What was regrouped is taken as a whole with the groups that it was regrouped to. -/
theorem Takes.regroups (hqs : Regroups ts left S qs right S') (h : Takes right S' T) :
    Takes left S T := by
  refine ⟨(hqs.keeps.mono (by simp)).trans h.keeps hqs.used_or_fresh, ?_⟩
  intro i hi
  by_cases hsize : i < S'.size
  · exact h.taken i (.inl (hqs.covers i hsize hi))
  · exact h.taken i (.inr (Nat.not_lt.mp hsize))

end Taken

namespace Call.Holds

variable {source : String} {fuel : Nat} {level : Level} {items : List Item} {ps : List Piece}
  {used : List Nat} {e : Expr} {S T : Store}

theorem operand_takes (h : Holds ⟨fuel + 1, .atom, items, S⟩ ps used)
    (hread : ∀ ⦃items ps used S e T⦄, Holds ⟨fuel, .equality, items, S⟩ ps used →
      (readAt source fuel .equality items).run S = .ok e T → Takes used S T)
    (hrun : (readAt source (fuel + 1) .atom items).run S = .ok e T) : Takes used S T := by
  match items with
  | [] => exact absurd rfl h.items_ne_nil
  | [.token t] =>
    obtain ⟨p, _, rfl, hp, hnil⟩ := List.map_eq_cons_iff.mp h.items_eq.symm
    obtain rfl := List.map_eq_nil_iff.mp hnil
    obtain ⟨-, rfl⟩ := h.stands.eq_ofToken hp
    obtain ⟨e', he⟩ := h.exists_readAt_token source
    rw [he] at hrun
    obtain ⟨-, rfl⟩ := run_pure_eq_ok.mp hrun
    exact .refl S
  | [.group index span] =>
    obtain ⟨kind, contents, area, inside, T', hat, hextract, hrest⟩ := group_eq_ok.mp hrun
    obtain ⟨kind, area, ts, inner, qs, used', rfl, rfl, hqs, hinside⟩ :=
      h.opened ⟨kind, contents, area, hat, hextract⟩
    refine Takes.append (takes_fetch S index kind area) (.regroups hqs ?_)
    rcases hrest with ⟨hnil, -, -, -, rfl⟩ | ⟨hne, _, hrun, -⟩
    · obtain rfl := List.map_eq_nil_iff.mp hnil
      cases hqs.stands
      exact .refl T
    · exact hread (hinside hne) hrun
  | lhs :: rhs :: more => exact (run_throw_ne_ok hrun).elim

/-- What is read takes all groups that the call was given, and all groups inside them. -/
theorem takes (h : Holds ⟨fuel, level, items, S⟩ ps used)
    (hrun : (readAt source fuel level items).run S = .ok e T) : Takes used S T := by
  induction fuel generalizing level items S ps used e T with
  | zero => exact absurd h.fuel_pos (Nat.lt_irrefl 0)
  | succ fuel ih =>
    by_cases hlevel : level = .atom
    · subst hlevel
      exact h.operand_takes (fun _ _ _ _ _ _ => ih) hrun
    rw [readAt_succ hlevel h.items_ne_nil] at hrun
    cases hcut : cut level items with
    | sign op kind rest =>
      rw [hcut] at hrun
      obtain ⟨rfl, hop⟩ := cut_eq_sign hcut
      obtain ⟨-, rs, left, right, rfl, hnil, -, hrest⟩ := h.sides [] hlevel hop
      obtain ⟨_, _, hside, hrun⟩ := run_bind_eq_ok.mp hrun
      obtain ⟨-, rfl⟩ := run_pure_eq_ok.mp hrun
      obtain ⟨hne, hside⟩ := side_eq_ok.mp hside
      rw [hnil rfl, List.nil_append]
      exact ih (hrest hne S (.refl _ _)) hside
    | operator before op after =>
      rw [hcut] at hrun
      obtain ⟨rfl, hop⟩ := cut_eq_operator hcut
      obtain ⟨qs, rs, left, right, rfl, -, hbefore, hafter⟩ := h.sides _ hlevel hop
      obtain ⟨l, T', hlhs, hrun⟩ := run_bind_eq_ok.mp hrun
      obtain ⟨r, _, hrhs, hrun⟩ := run_bind_eq_ok.mp hrun
      obtain ⟨-, rfl⟩ := run_pure_eq_ok.mp hrun
      obtain ⟨hne, hlhs⟩ := side_eq_ok.mp hlhs
      obtain ⟨hne', hrhs⟩ := side_eq_ok.mp hrhs
      have hleft := ih (hbefore hne) hlhs
      exact hleft.append (ih (hafter hne' T' hleft.keeps) hrhs)
    | whole =>
      rw [hcut] at hrun
      exact ih (h.whole hlevel hcut) hrun

end Call.Holds

/-- The calls that the parse of a source makes. -/
inductive Reached (source : String) : Call → Prop
  | start {items : List Item} {S : Store} :
      (tokens source).findSome? refused? = none → tokens source ≠ [] →
      (Group.extract ((tokens source).map .token)).run #[] = .ok items S →
      Reached source ⟨fuelFor (tokens source).length, .equality, items, S⟩
  | call {c c' : Call} : Reached source c → Calls source c c' → Reached source c'

/-- What makes a call go well: there is something to read and a step left for it, the contents of
its groups are still in the store, and where nothing is left to cut there are operands only. -/
structure Call.Sound (c : Call) : Prop where
  items_ne_nil : c.items ≠ []
  fuel_pos : 0 < c.fuel
  stored : ∀ index span, .group index span ∈ c.items →
    ∃ kind contents area, c.store[index]? = some ⟨kind, some contents, area⟩
  operand : c.level = .atom → ∀ t, .token t ∈ c.items →
    t.operator? = none ∧ t.isDelimiter = false ∧ (t.kind = .int ∨ t.kind = .name)

section Reached

variable {source : String} {c : Call} {ps : List Piece} {used : List Nat} {items : List Item}
  {e : Expr} {err : ParseError} {S T : Store}

theorem Call.Holds.sound (h : c.Holds ps used) : c.Sound := by
  refine ⟨h.items_ne_nil, h.fuel_pos, ?_, ?_⟩
  · intro index span hmem
    rw [h.items_eq] at hmem
    obtain ⟨p, hp, hitem⟩ := List.mem_map.mp hmem
    obtain ⟨qs, rs, rfl⟩ := List.append_of_mem hp
    obtain ⟨_, _, -, hrest, -⟩ := h.stands.of_append
    obtain ⟨_, _, hpiece, -, -⟩ := hrest.of_cons
    cases hpiece with
    | token => cases hitem
    | group hat =>
      cases hitem
      exact ⟨_, _, _, hat⟩
  · obtain ⟨fuel, level, items, S⟩ := c
    rintro rfl t ht
    exact h.operand ht

/-- The first call may rely on what extraction leaves. -/
theorem holds_start (hrefused : (tokens source).findSome? refused? = none)
    (hne : tokens source ≠ [])
    (hextract : (Group.extract ((tokens source).map .token)).run #[] = .ok items S) :
    ∃ ps used, Call.Holds ⟨fuelFor (tokens source).length, .equality, items, S⟩ ps used ∧
      ∀ i < S.size, i ∈ used := by
  rw [← itemsOf_ofToken] at hextract
  obtain ⟨qs, used, rfl, hqs, hflat⟩ :=
    Group.extract_regroups (Stands.ofTokens #[] _) List.nodup_nil hextract
  have htokens : tokensOf qs = tokens source := by rw [hqs.tokens_eq, tokensOf_ofToken]
  refine ⟨qs, used, ⟨rfl, ?_, hqs.stands, hqs.nodup, hflat, ?_, ?_, nofun, ?_⟩, ?_⟩
  · rintro rfl
    exact hne htokens.symm
  · rw [htokens]
    intro t ht
    refine ⟨?_, List.findSome?_eq_none_iff.mp hrefused t ht⟩
    simpa using (List.mem_filter.mp ht).2
  · exact fun l hl => absurd hl (Nat.not_lt_zero _)
  · rw [htokens]
    simp only [fuelFor, Level.rank]
    omega
  · exact fun i hi => hqs.covers i hi (.inr (Nat.zero_le i))

theorem Reached.holds (h : Reached source c) : ∃ ps used, c.Holds ps used := by
  induction h with
  | start hrefused hne hextract =>
    obtain ⟨ps, used, h, -⟩ := holds_start hrefused hne hextract
    exact ⟨ps, used, h⟩
  | call _ hcalls ih =>
    obtain ⟨ps, used, h⟩ := ih
    exact h.calls hcalls

theorem Reached.trans {c' : Call} (h : Reached source c)
    (hcalls : Relation.ReflTransGen (Calls source) c c') : Reached source c' := by
  induction hcalls with
  | refl => exact h
  | tail _ hcall ih => exact ih.call hcall

/-- All that a parse can do when it fails. -/
theorem parse_eq_error_cases (h : parse source = .error err) :
    (∃ before t after, tokens source = before ++ t :: after ∧ refused? t = some err ∧
      ∀ u ∈ before, refused? u = none) ∨
    (tokens source = [] ∧
      err = ⟨.emptyExpression, [⟨byteLength source.toList, byteLength source.toList⟩]⟩) ∨
    (∃ S, (Group.extract ((tokens source).map .token)).run #[] = .error err S) ∨
    ∃ c, Reached source c ∧ Faults source c.items err := by
  unfold parse at h
  simp only at h
  split at h
  · rename_i err' hrefused
    cases h
    obtain ⟨before, t, after, hts, ht, hbefore⟩ := List.findSome?_eq_some_iff.mp hrefused
    exact .inl ⟨before, t, after, hts, ht, hbefore⟩
  · rename_i hrefused
    split at h
    · rename_i hempty
      cases h
      exact .inr (.inl ⟨List.isEmpty_iff.mp hempty, rfl⟩)
    · rename_i hempty
      split at h
      · cases h
      · rename_i err' S hrun
        cases h
        rcases run_bind_eq_error.mp hrun with hrun | ⟨items, T, hextract, hrun⟩
        · exact .inr (.inr (.inl ⟨S, hrun⟩))
        · have hne : tokens source ≠ [] := by simpa using hempty
          obtain ⟨ps, used, hholds, -⟩ := holds_start hrefused hne hextract
          obtain ⟨c, hreach, hfault⟩ := hholds.exists_faults hrun
          exact .inr (.inr (.inr ⟨c, (Reached.start hrefused hne hextract).trans hreach, hfault⟩))

end Reached

end Parser

open Formulary.Parser in
/-- Parsing does not get stuck. Every call of a parse goes well; a parse that fails blames the text,
and blames a token as unknown only if it stands before all decimals; a parse that succeeds has taken
the contents of every group. -/
theorem parse_never_stuck (source : String) :
    (∀ c, Reached source c → c.Sound) ∧
    (∀ err, parse source = .error err → (∀ why, err.problem ≠ .stuck why) ∧
      ∀ lexeme, err.problem = .unrecognizedToken lexeme →
        ∃ before t after, tokens source = before ++ t :: after ∧ t.kind = .other ∧
          err = ⟨.unrecognizedToken t.lexeme, [t.span]⟩ ∧
          ∀ u ∈ before, u.kind ≠ .other ∧ u.kind ≠ .decimal) ∧
    ∀ e, parse source = .ok e →
      ∃ S, (all source (tokens source)).run #[] = .ok e S ∧ ∀ f ∈ S, f.contents = none := by
  refine ⟨?_, ?_, ?_⟩
  · intro c hc
    obtain ⟨ps, used, h⟩ := hc.holds
    exact h.sound
  · intro err herr
    rcases parse_eq_error_cases herr with ⟨before, t, after, hts, ht, hbefore⟩ | ⟨-, rfl⟩ |
      ⟨S, hrun⟩ | ⟨c, -, hfault⟩
    · have hprefix : ∀ u ∈ before, u.kind ≠ .other ∧ u.kind ≠ .decimal :=
        fun u hu => refused?_eq_none_iff.mp (hbefore u hu)
      unfold refused? at ht
      split at ht
      · rename_i hkind
        cases ht
        exact ⟨nofun, fun _ _ => ⟨before, t, after, hts, hkind, rfl, hprefix⟩⟩
      · cases ht
        exact ⟨nofun, nofun⟩
      · cases ht
    · exact ⟨nofun, nofun⟩
    · cases Group.extract_unpaired hrun <;> exact ⟨nofun, nofun⟩
    · generalize c.items = items at hfault
      cases hfault <;> exact ⟨nofun, nofun⟩
  · intro e he
    obtain ⟨S, hrun⟩ := (exists_all_eq_ok_iff source _ e).mpr ((parse_iff_derives source e).mp he)
    refine ⟨S, hrun, ?_⟩
    obtain ⟨items, T, hextract, hread⟩ := run_bind_eq_ok.mp hrun
    have hderives := (parse_iff_derives source e).mp he
    have hrefused : (tokens source).findSome? refused? = none :=
      List.findSome?_eq_none_iff.mpr fun t ht => refused?_eq_none_iff.mpr (hderives.kind_ne t ht)
    obtain ⟨ps, used, hholds, hall⟩ := holds_start hrefused hderives.ne_nil hextract
    have htakes := hholds.takes hread
    intro f hf
    obtain ⟨i, hi, rfl⟩ := Array.mem_iff_getElem.mp hf
    have htaken : Taken S i := by
      by_cases hsize : i < T.size
      · exact htakes.taken i (.inl (hall i hsize))
      · exact htakes.taken i (.inr (Nat.not_lt.mp hsize))
    simpa [Taken, hi] using htaken

theorem parse_bracketInCall : parse "f([a])" = .ok (.call "f" [.unary .bracket (.named "a")]) := by
  have htokens : tokens "f([a])" = [⟨.name, "f", ⟨0, 1⟩⟩, ⟨.openParen, "(", ⟨1, 2⟩⟩,
      ⟨.openBracket, "[", ⟨2, 3⟩⟩, ⟨.name, "a", ⟨3, 4⟩⟩, ⟨.closeBracket, "]", ⟨4, 5⟩⟩,
      ⟨.closeParen, ")", ⟨5, 6⟩⟩] := by
    decide +kernel
  rw [parse, htokens]
  rfl

/-- Both groups are taken, that of the call and the one found inside it. -/
theorem parse_never_stuck_bracketInCall :
    ∃ e, parse "f([a])" = .ok e ∧ ∃ S, (Parser.all "f([a])" (tokens "f([a])")).run #[] = .ok e S ∧
      ∀ f ∈ S, f.contents = none :=
  ⟨_, parse_bracketInCall, (parse_never_stuck "f([a])").2.2 _ parse_bracketInCall⟩

end Formulary
