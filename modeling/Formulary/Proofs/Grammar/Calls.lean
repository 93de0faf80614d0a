import Formulary.Proofs.Grammar.Opening

/-!
The calls of a parse. A call that reads a list of items makes further calls, for parts of the list
and for the contents of groups. What holds of a call holds of those it makes: its items are flat and
stand for tokens, the store has the groups among them, no weaker operator is left to cut at, and
there is fuel enough.
-/

namespace Formulary

theorem Token.operator?_lt_atom {t : Token} {l : Level} (h : t.operator? = some l) : l < .atom := by
  unfold operator? at h
  cases hk : t.kind <;>
    simp only [hk, reduceCtorEq, Option.some.injEq, Option.ite_none_right_eq_some] at h
  case name =>
    obtain ⟨-, rfl⟩ := h
    decide
  all_goals
    subst h
    decide

namespace Parser

/-- A call of `readAt`, and the store that it finds. -/
structure Call where
  fuel : Nat
  level : Level
  items : List Item
  store : Store

/-- A call makes another one. What a call returns depends on these only (`readStep_congr`). -/
inductive Calls (source : String) : Call → Call → Prop
  | sign {fuel : Nat} {level : Level} {items rest : List Item} {op : Token} {kind : BinaryKind}
      {S : Store} :
      level ≠ .atom → cut level items = .sign op kind rest → rest ≠ [] →
      Calls source ⟨fuel + 1, level, items, S⟩ ⟨fuel, level, rest, S⟩
  | before {fuel : Nat} {level : Level} {items before after : List Item} {op : Token} {S : Store} :
      level ≠ .atom → cut level items = .operator before op after → before ≠ [] →
      Calls source ⟨fuel + 1, level, items, S⟩ ⟨fuel, level, before, S⟩
  | after {fuel : Nat} {level : Level} {items before after : List Item} {op : Token} {lhs : Expr}
      {S T : Store} :
      level ≠ .atom → cut level items = .operator before op after → before ≠ [] →
      (readAt source fuel level before).run S = .ok lhs T → after ≠ [] →
      Calls source ⟨fuel + 1, level, items, S⟩ ⟨fuel, level, after, T⟩
  | whole {fuel : Nat} {level : Level} {items : List Item} {S : Store} :
      level ≠ .atom → cut level items = .whole →
      Calls source ⟨fuel + 1, level, items, S⟩ ⟨fuel, level.next, items, S⟩
  | group {fuel index : Nat} {span : Span} {items : List Item} {S T : Store} :
      Opens index items S T → items ≠ [] →
      Calls source ⟨fuel + 1, .atom, [.group index span], S⟩ ⟨fuel, .equality, items, T⟩

section Step

/-- What a single call does, given how others are read. -/
def readStep (source : String) (read : Level → List Item → Parser Expr) :
    Level → List Item → Parser Expr
  | _, [] => throw ⟨.stuck .noItems, []⟩
  | .atom, items => operand source (read .equality) items
  | level, items =>
    match cut level items with
    | .sign op kind rest => do
      let e ← side op (read level) rest
      return .signed kind e
    | .operator before op after => do
      let lhs ← side op (read level) before
      let rhs ← side op (read level) after
      return join level lhs rhs
    | .whole => read level.next items

variable {source : String} {fuel index : Nat} {level : Level} {op : Token} {span : Span}
  {items : List Item} {read read' : List Item → Parser Expr} {S T : Store}

theorem readAt_eq_readStep (source : String) (fuel : Nat) (level : Level) (items : List Item) :
    readAt source (fuel + 1) level items = readStep source (readAt source fuel) level items := by
  cases items <;> cases level <;> rfl

theorem readStep_of_ne {read : Level → List Item → Parser Expr} (hlevel : level ≠ .atom)
    (hne : items ≠ []) : readStep source read level items =
      match cut level items with
      | .sign op kind rest => do
        let e ← side op (read level) rest
        return .signed kind e
      | .operator before op after => do
        let lhs ← side op (read level) before
        let rhs ← side op (read level) after
        return join level lhs rhs
      | .whole => read level.next items := by
  cases items with
  | nil => exact absurd rfl hne
  | cons => cases level <;> first | rfl | exact absurd rfl hlevel

theorem side_congr (h : items ≠ [] → (read items).run S = (read' items).run S) :
    (side op read items).run S = (side op read' items).run S := by
  unfold side
  rcases items with _ | ⟨i, items⟩
  · rfl
  · exact h nofun

theorem group_congr
    (h : ∀ items T, Opens index items S T → items ≠ [] → (read items).run T = (read' items).run T) :
    (group source read index span).run S = (group source read' index span).run S := by
  refine run_bind_congr rfl fun ⟨kind, contents⟩ T hfetch => ?_
  refine run_bind_congr rfl fun items T' hextract => ?_
  obtain ⟨area, hat, rfl⟩ := fetch_eq_ok.mp hfetch
  rcases items with _ | ⟨i, items⟩
  · cases kind <;> rfl
  · have hread := h _ T' ⟨kind, contents, area, hat, hextract⟩ nofun
    cases kind <;> exact run_bind_congr hread fun _ _ _ => rfl

/-- A call depends on the calls that it makes, and on nothing else that could be read. -/
theorem readStep_congr {read : Level → List Item → Parser Expr}
    (h : ∀ c', Calls source ⟨fuel + 1, level, items, S⟩ c' →
      (read c'.level c'.items).run c'.store =
        (readAt source c'.fuel c'.level c'.items).run c'.store) :
    (readStep source read level items).run S = (readAt source (fuel + 1) level items).run S := by
  rw [readAt_eq_readStep]
  by_cases hne : items = []
  · subst hne
    cases level <;> rfl
  by_cases hlevel : level = .atom
  · subst hlevel
    match items with
    | [.token t] => rfl
    | [.group index span] => exact group_congr fun items T hopens hne => h _ (.group hopens hne)
    | _ :: _ :: _ => rfl
  rw [readStep_of_ne hlevel hne, readStep_of_ne hlevel hne]
  cases hcut : cut level items with
  | sign op kind rest =>
    refine run_bind_congr (side_congr fun hne => ?_) fun _ _ _ => rfl
    exact h _ (.sign hlevel hcut hne)
  | operator before op after =>
    have hbefore : (side op (read level) before).run S =
        (side op (readAt source fuel level) before).run S :=
      side_congr fun hne => h _ (.before hlevel hcut hne)
    refine run_bind_congr hbefore fun lhs T hlhs =>
      run_bind_congr (side_congr fun hne => ?_) fun _ _ _ => rfl
    obtain ⟨hne', hlhs⟩ := side_eq_ok.mp (hbefore ▸ hlhs)
    exact h _ (.after hlevel hcut hne' hlhs hne)
  | whole => exact h _ (.whole hlevel hcut)

end Step

section Cuts

variable {level l : Level} {op : Token} {prev : Option Item} {i : Item}
  {items is js before after rest : List Item}

theorem cut_eq_sign {kind : BinaryKind} (h : cut level items = .sign op kind rest) :
    items = .token op :: rest ∧ op.operator? = some kind.level := by
  rcases cut_cases level items with ⟨_, _, _, hcut, hitems, -, hop, -⟩ | ⟨_, _, _, hcut, -⟩ |
    ⟨hcut, -⟩ <;> rw [h] at hcut <;> cases hcut
  exact ⟨hitems, hop⟩

theorem cut_eq_operator (h : cut level items = .operator before op after) :
    items = before ++ .token op :: after ∧ op.operator? = some level := by
  rcases cut_cases level items with ⟨_, _, _, hcut, -⟩ | ⟨_, _, _, hcut, hitems, hop, -⟩ |
    ⟨hcut, -⟩ <;> rw [h] at hcut <;> cases hcut
  exact ⟨hitems, hop⟩

theorem cut_eq_whole (h : cut level items = .whole) :
    cutLast? level none items = none ∧ (Level.subtraction ≤ level → signCut? items = none) := by
  rcases cut_cases level items with ⟨_, _, _, hcut, -⟩ | ⟨_, _, _, hcut, -⟩ | ⟨-, hnone, hsign⟩
  · simp [h] at hcut
  · simp [h] at hcut
  · exact ⟨hnone, hsign⟩

theorem cutLast?_cons_eq_none : cutLast? level prev (i :: is) = none ↔
    cutLast? level (some i) is = none ∧ operatorAt? level prev i = none := by
  rw [cutLast?]
  cases cutLast? level (some i) is <;> simp

/-- Around an operator of another level there is nothing to cut if there was nothing before. -/
theorem cutLast?_around (hop : op.operator? = some l)
    (h : cutLast? level prev (is ++ .token op :: js) = none) :
    cutLast? level prev is = none ∧ cutLast? level none js = none := by
  induction is generalizing prev with
  | nil => exact ⟨rfl, cutLast?_operator hop ▸ (cutLast?_cons_eq_none.mp h).1⟩
  | cons i is ih =>
    obtain ⟨hrest, hat⟩ := cutLast?_cons_eq_none.mp h
    exact ⟨cutLast?_cons_eq_none.mpr ⟨(ih hrest).1, hat⟩, (ih hrest).2⟩

/-- Items that no level cuts and no sign stands before hold no operator. -/
theorem operator?_eq_none_of_uncut (hcut : ∀ l < Level.atom, cutLast? l prev items = none)
    (hsign : hasOperand prev = true ∨ signCut? items = none) : ∀ i ∈ items, i.operator? = none := by
  induction items generalizing prev with
  | nil => simp
  | cons i items ih =>
    have hi : i.operator? = none := by
      cases hop : i.operator? with
      | none => rfl
      | some l =>
        cases i with
        | group => simp [Item.operator?] at hop
        | token t =>
          have hat := (cutLast?_cons_eq_none.mp (hcut l (Token.operator?_lt_atom hop))).2
          have hop' : t.operator? = some l := hop
          simp only [operatorAt?, hop', beq_self_eq_true, Bool.true_and, Bool.or_eq_true,
            ite_eq_right_iff, reduceCtorEq, imp_false, not_or] at hat
          rcases hsign with hsign | hsign
          · exact absurd hsign hat.2
          · cases l <;> simp_all [signCut?, Level.isSign]
    rintro j (_ | ⟨_, hj⟩)
    · exact hi
    · exact ih (fun l hl => (cutLast?_cons_eq_none.mp (hcut l hl)).1)
        (.inl (by simp [hasOperand, hi])) j hj

end Cuts

/-- What a call may rely on: its items are flat pieces that stand for tokens, and the store holds
the groups among them. Operators weaker than its level were cut off, and it has nine steps for each
token. -/
structure Call.Holds (c : Call) (ps : List Piece) (used : List Nat) : Prop where
  items_eq : c.items = itemsOf ps
  ne_nil : ps ≠ []
  stands : Stands c.store ps used
  nodup : used.Nodup
  flat : ∀ p ∈ ps, p.isDelimiter = false
  known : ∀ t ∈ tokensOf ps, t.kind ≠ .whitespace ∧ refused? t = none
  uncut : ∀ l < c.level, cutLast? l none c.items = none
  unsigned : c.level = .atom → signCut? c.items = none
  fuel : 9 * (tokensOf ps).length + 9 ≤ c.fuel + c.level.rank

namespace Call.Holds

variable {source : String} {fuel index : Nat} {level l : Level} {op : Token} {span : Span}
  {items after : List Item} {ps : List Piece} {used : List Nat} {e : Expr} {S T : Store}

/-- Both sides of an operator may be read, the second one when the first has taken its groups. -/
theorem sides (before : List Item)
    (h : Holds ⟨fuel + 1, level, before ++ .token op :: after, S⟩ ps used)
    (hlevel : level ≠ .atom) (hop : op.operator? = some l) :
    ∃ qs rs left right, used = left ++ right ∧ (before = [] → left = []) ∧
      (before ≠ [] → Holds ⟨fuel, level, before, S⟩ qs left) ∧
      (after ≠ [] → ∀ T, Keeps left S T → Holds ⟨fuel, level, after, T⟩ rs right) := by
  obtain ⟨hitems, -, hstands, hnodup, hflat, hknown, huncut, -, hfuel⟩ := h
  obtain ⟨qs, p, rs, rfl, rfl, hp, rfl⟩ := exists_of_itemsOf_eq hitems.symm
  obtain ⟨left, _, hleft, hrest, rfl⟩ := hstands.of_append
  obtain ⟨_, right, hmid, hright, rfl⟩ := hrest.of_cons
  obtain ⟨rfl, rfl⟩ := hmid.eq_ofToken hp
  obtain ⟨hnodup, hnodup', hdisjoint⟩ := List.nodup_append.mp hnodup
  simp only [tokensOf_append, tokensOf_cons, Piece.ofToken, List.length_append,
    List.length_singleton] at hfuel
  simp only [tokensOf_append, tokensOf_cons, List.mem_append, or_imp, forall_and] at hknown
  simp only [List.mem_append, List.mem_cons, or_imp, forall_and] at hflat
  refine ⟨qs, rs, left, right, rfl, fun hnil => ?_, fun hne => ?_, fun hne T hkeeps => ?_⟩
  · obtain rfl := List.map_eq_nil_iff.mp hnil
    cases hleft
    rfl
  · refine ⟨rfl, by simpa [itemsOf] using hne, hleft, hnodup, hflat.1, ?_, ?_, ?_, ?_⟩
    · exact fun t ht => ⟨hknown.1.1 t ht, hknown.2.1 t ht⟩
    · exact fun l hl => (cutLast?_around hop (huncut l hl)).1
    · exact fun hatom => absurd hatom hlevel
    · -- The operator is a token that neither side has, which pays for the step.
      change _ ≤ fuel + level.rank
      omega
  · have hright' := hkeeps.stands hright fun i hi hi' => hdisjoint i hi' i hi rfl
    refine ⟨rfl, by simpa [itemsOf] using hne, hright', hnodup', hflat.2.2, ?_, ?_, ?_, ?_⟩
    · exact fun t ht => ⟨hknown.1.2.2 t ht, hknown.2.2.2 t ht⟩
    · exact fun l hl => (cutLast?_around hop (huncut l hl)).2
    · exact fun hatom => absurd hatom hlevel
    · change _ ≤ fuel + level.rank
      omega

theorem whole (h : Holds ⟨fuel + 1, level, items, S⟩ ps used) (hlevel : level ≠ .atom)
    (hcut : cut level items = .whole) : Holds ⟨fuel, level.next, items, S⟩ ps used := by
  obtain ⟨hnone, hsign⟩ := cut_eq_whole hcut
  refine ⟨h.items_eq, h.ne_nil, h.stands, h.nodup, h.flat, h.known, ?_, ?_, ?_⟩
  · intro l hl
    change l.rank < level.next.rank at hl
    rw [Level.rank_next hlevel] at hl
    rcases Nat.lt_succ_iff_lt_or_eq.mp hl with hl | hl
    · exact h.uncut l hl
    · have : l = level := by
        revert hl
        cases l <;> cases level <;> decide
      exact this ▸ hnone
  · intro (hatom : level.next = .atom)
    have : level = .root := by
      revert hatom hlevel
      cases level <;> decide
    exact hsign (this ▸ by decide)
  · -- The level is one higher, which pays for the step.
    have := h.fuel
    change _ ≤ fuel + level.next.rank
    rw [Level.rank_next hlevel]
    change _ ≤ fuel + 1 + level.rank at this
    omega

/-- A call for a single group finds the group in the store, with its contents. -/
theorem exists_group (h : Holds ⟨fuel, .atom, [.group index span], S⟩ ps used) :
    ∃ kind area contents inner, used = index :: inner ∧
      S[index]? = some ⟨kind, some (itemsOf contents), area⟩ ∧ Stands S contents inner ∧
      Nested (tokensOf contents) ∧ tokensOf contents ⊆ tokensOf ps ∧
      (tokensOf contents).length + 2 ≤ (tokensOf ps).length := by
  obtain ⟨hitems, -, hstands, -⟩ := h
  obtain ⟨p, _, rfl, hp, hnil⟩ := List.map_eq_cons_iff.mp hitems.symm
  obtain rfl := List.map_eq_nil_iff.mp hnil
  cases hstands with
  | token => simp [Piece.ofToken] at hp
  | @group d callee _ _ _ _ area contents _ inner _ hat _ _ _ hn hinner hrest =>
    cases hrest
    cases hp
    refine ⟨_, area, contents, inner, by simp, hat, hinner, hn, ?_, ?_⟩
    · intro t ht
      simp [ht]
    · simp only [tokensOf_cons, tokensOf_nil, List.length_append, List.length_cons, List.length_nil]
      omega

/-- A group that is opened is read like a text of its own. -/
theorem opened (h : Holds ⟨fuel + 1, .atom, [.group index span], S⟩ ps used)
    (hopens : Opens index items S T) :
    ∃ kind area ts inner qs used', used = index :: inner ∧ items = itemsOf qs ∧
      Regroups ts inner (S.setIfInBounds index ⟨kind, none, area⟩) qs used' T ∧
      (items ≠ [] → Holds ⟨fuel, .equality, items, T⟩ qs used') := by
  have hnodup := h.nodup
  obtain ⟨kind, area, contents, inner, rfl, hat, hinner, -, hsub, hlength⟩ := h.exists_group
  obtain ⟨_, _, _, hat', hextract⟩ := hopens
  cases hat.symm.trans hat'
  rw [List.nodup_cons] at hnodup
  obtain ⟨qs, used', rfl, hqs, hflat⟩ := Group.extract_regroups
    (hinner.setIfInBounds hnodup.1 ⟨kind, none, area⟩) hnodup.2 hextract
  refine ⟨kind, area, _, inner, qs, used', rfl, rfl, hqs, fun hne => ?_⟩
  refine ⟨rfl, by simpa [itemsOf] using hne, hqs.stands, hqs.nodup, hflat, ?_, ?_, nofun, ?_⟩
  · rw [hqs.tokens_eq]
    exact fun t ht => h.known t (hsub ht)
  · exact fun l hl => absurd hl (Nat.not_lt_zero _)
  · -- Reading starts over at the weakest level, which the two delimiters pay for.
    have := h.fuel
    change _ ≤ fuel + 1 + 8 at this
    change _ ≤ fuel + 0
    rw [hqs.tokens_eq]
    omega

/-- Reading takes no groups but those of the call. -/
theorem keeps (h : Holds ⟨fuel, level, items, S⟩ ps used)
    (hrun : (readAt source fuel level items).run S = .ok e T) : Keeps used S T := by
  obtain rfl : items = itemsOf ps := h.items_eq
  refine (readAt_sound source fuel level h.stands h.nodup h.flat ?_ hrun).1
  rintro rfl
  exact h.uncut .root (show Level.root < .atom by decide)

/-- What a call may rely on, those it makes may rely on too. -/
theorem calls {c c' : Call} (h : c.Holds ps used) (hcalls : Calls source c c') :
    ∃ ps' used', c'.Holds ps' used' := by
  cases hcalls with
  | sign hlevel hcut hne =>
    obtain ⟨rfl, hop⟩ := cut_eq_sign hcut
    obtain ⟨-, rs, left, right, -, -, -, hafter⟩ := sides [] h hlevel hop
    exact ⟨rs, right, hafter hne _ (.refl left _)⟩
  | before hlevel hcut hne =>
    obtain ⟨rfl, hop⟩ := cut_eq_operator hcut
    obtain ⟨qs, -, left, -, -, -, hbefore, -⟩ := h.sides _ hlevel hop
    exact ⟨qs, left, hbefore hne⟩
  | after hlevel hcut hne hrun hne' =>
    obtain ⟨rfl, hop⟩ := cut_eq_operator hcut
    obtain ⟨qs, rs, left, right, -, -, hbefore, hafter⟩ := h.sides _ hlevel hop
    exact ⟨rs, right, hafter hne' _ ((hbefore hne).keeps hrun)⟩
  | whole hlevel hcut => exact ⟨ps, used, h.whole hlevel hcut⟩
  | group hopens hne =>
    obtain ⟨_, _, _, _, qs, used', -, -, -, hinside⟩ := h.opened hopens
    exact ⟨qs, used', hinside hne⟩

end Call.Holds

end Parser

end Formulary
