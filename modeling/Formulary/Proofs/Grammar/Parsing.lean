import Formulary.Proofs.Grammar.Extraction
import Formulary.Proofs.Grammar.Cutting

/-!
Parsing. A text parses to a tree exactly if its tokens are a phrase of the grammar that has this
tree. In one direction every cut is an operator of the phrase, in the other every operator of the
phrase is found by a cut.
-/

namespace Formulary

namespace Parser

theorem join_of_binary? {level : Level} {kind : BinaryKind} {l r : Expr}
    (h : level.binary? = some kind) : join level l r = .binaryOf kind l r := by
  simp [join, h]

theorem join_of_ne_sequence {l r : Expr} (h : ∀ es, l ≠ .nary .sequence es) :
    join .sequence l r = .nary .sequence [l, r] := by
  unfold join
  split
  · simp_all [Level.binary?]
  · split
    · exact absurd rfl (h _)
    · rfl

end Parser

namespace Derives

/-- Only a phrase with a comma at its top is a bare sequence. -/
theorem ne_sequence {p : Phrase} {ts : List Token} {e : Expr} (h : Derives p ts e)
    (hp : p.Tighter .sequence) (es : List Expr) : e ≠ .nary .sequence es := by
  induction h with
  | pair | more => exact absurd hp (by decide)
  | elements => exact absurd hp (by decide)
  | inner hne _ ih => exact ih (Phrase.tighter_inner hp hne)
  | unsigned _ ih => exact ih hp
  | _ => exact Expr.noConfusion

theorem exists_sequence {ts : List Token} {e : Expr} (h : Derives .elements ts e) :
    ∃ es, e = .nary .sequence es := by
  cases h with
  | pair => exact ⟨_, rfl⟩
  | more => exact ⟨_, rfl⟩

/-- A comma joins what stands before it, be it one element or several, to the next one. -/
theorem comma {op : Token} {ts us : List Token} {l r : Expr} (hop : op.operator? = some .sequence)
    (hl : Derives (.plain .sequence) ts l) (hr : Derives (.plain .addition) us r) :
    Derives (.plain .sequence) (ts ++ op :: us) (Parser.join .sequence l r) := by
  cases hl with
  | operation hkind => simp [Level.binary?] at hkind
  | elements hl =>
    obtain ⟨es, rfl⟩ := hl.exists_sequence
    exact .elements (.more hop hl hr)
  | inner _ hl =>
    rw [Parser.join_of_ne_sequence (hl.ne_sequence (by decide))]
    exact .elements (.pair hop hl hr)

theorem join {level : Level} {op : Token} {ts us : List Token} {l r : Expr}
    (hlevel : level ≠ .atom) (hop : op.operator? = some level) (hl : Derives (.plain level) ts l)
    (hr : Derives (.right level) us r) :
    Derives (.plain level) (ts ++ op :: us) (Parser.join level l r) := by
  cases hkind : level.binary? with
  | some kind =>
    rw [Parser.join_of_binary? hkind]
    exact .operation hkind hop hl hr
  | none =>
    cases level with
    | sequence => exact comma hop hl hr
    | atom => exact absurd rfl hlevel
    | _ => simp [Level.binary?] at hkind

end Derives

namespace Parser

theorem enclose_call (name : String) (e : Expr) :
    enclose (.call name) e = .call name e.arguments := by
  cases e with
  | nary op => cases op <;> rfl
  | _ => rfl

section Group

variable {d : Delimiter} {t o c : Token} {ts : List Token} {e : Expr}

theorem not_opening_of_isWord (ht : t.isWord) : t.kind ≠ d.opening := by
  intro hd
  have hdelimiter := Token.isDelimiter_of_isWord ht
  simp [Token.isDelimiter_of_opening hd] at hdelimiter

theorem exists_of_derives_delimited (ho : o.kind = d.opening)
    (h : Derives (.plain .atom) (o :: (ts ++ [c])) e) :
    ∃ inner, Derives (.plain .equality) ts inner ∧ e = enclose (d.groupKind none) inner := by
  generalize hts : o :: (ts ++ [c]) = us at h
  cases h with
  | operation hkind => simp [Level.binary?] at hkind
  | inner hne => exact absurd rfl hne
  | int | name => simp at hts
  | paren ho' hc' h' =>
    simp only [List.cons.injEq] at hts
    obtain ⟨rfl, hts⟩ := hts
    obtain ⟨rfl, -⟩ := List.append_inj' hts rfl
    cases d with
    | paren => exact ⟨_, h', rfl⟩
    | bracket => simp [ho', Delimiter.opening] at ho
  | bracket ho' hc' h' =>
    simp only [List.cons.injEq] at hts
    obtain ⟨rfl, hts⟩ := hts
    obtain ⟨rfl, -⟩ := List.append_inj' hts rfl
    cases d with
    | paren => simp [ho', Delimiter.opening] at ho
    | bracket => exact ⟨_, h', rfl⟩
  | thunk hf | call hf =>
    obtain ⟨rfl, -⟩ := List.cons.inj hts
    exact absurd ho (not_opening_of_isWord hf)

theorem exists_of_derives_applied (ht : t.isWord)
    (h : Derives (.plain .atom) (t :: o :: (ts ++ [c])) e) :
    (ts = [] ∧ e = .call t.lexeme []) ∨
      ∃ inner, Derives (.plain .equality) ts inner ∧ e = .call t.lexeme inner.arguments := by
  generalize hts : t :: o :: (ts ++ [c]) = us at h
  cases h with
  | operation hkind => simp [Level.binary?] at hkind
  | inner hne => exact absurd rfl hne
  | int | name => simp at hts
  | paren ho' =>
    obtain ⟨rfl, -⟩ := List.cons.inj hts
    exact absurd ho' (not_opening_of_isWord (d := .paren) ht)
  | bracket ho' =>
    obtain ⟨rfl, -⟩ := List.cons.inj hts
    exact absurd ho' (not_opening_of_isWord (d := .bracket) ht)
  | thunk =>
    simp only [List.cons.injEq] at hts
    obtain ⟨rfl, rfl, hts⟩ := hts
    have hnil : ts = [] := by simpa using congrArg List.length hts
    exact .inl ⟨hnil, rfl⟩
  | call hf ho' hc' h' =>
    simp only [List.cons.injEq] at hts
    obtain ⟨rfl, rfl, hts⟩ := hts
    obtain ⟨rfl, -⟩ := List.append_inj' hts rfl
    exact .inr ⟨_, h', rfl⟩

/-- What the tokens of a group are, by what stands inside it. -/
theorem derives_group_iff {callee : Option Token} (hcallee : ∀ t ∈ callee, d = .paren ∧ t.isWord)
    (ho : o.kind = d.opening) (hc : c.kind = d.closing) :
    Derives (.plain .atom) (callee.toList ++ o :: (ts ++ [c])) e ↔
      (ts = [] ∧ ∃ name, d.groupKind callee = .call name ∧ e = .call name []) ∨
        ∃ inner, Derives (.plain .equality) ts inner ∧ e = enclose (d.groupKind callee) inner := by
  constructor
  · intro h
    cases callee with
    | none => exact .inr (exists_of_derives_delimited ho h)
    | some t =>
      obtain ⟨rfl, ht⟩ := hcallee t rfl
      rcases exists_of_derives_applied ht h with ⟨hnil, rfl⟩ | ⟨inner, h', rfl⟩
      · exact .inl ⟨hnil, _, rfl, rfl⟩
      · exact .inr ⟨inner, h', (enclose_call _ _).symm⟩
  · rintro (⟨rfl, name, hkind, rfl⟩ | ⟨inner, h, rfl⟩)
    · rcases d with _ | _ <;> rcases callee with _ | t <;> simp [Delimiter.groupKind] at hkind
      subst hkind
      exact .thunk (hcallee t rfl).2 ho hc
    · cases d with
      | bracket =>
        cases callee with
        | none => exact .bracket ho hc h
        | some t => simp at hcallee
      | paren =>
        cases callee with
        | none => exact .paren ho hc h
        | some t =>
          rw [Delimiter.groupKind, enclose_call]
          exact .call (hcallee t rfl).2 ho hc h

end Group

section Steps

variable {source : String} {fuel : Nat} {level : Level} {op : Token} {items : List Item}
  {read : List Item → Parser Expr} {e : Expr} {S S' : Store}

theorem readAt_succ (hlevel : level ≠ .atom) (hne : items ≠ []) :
    readAt source (fuel + 1) level items =
      match cut level items with
      | .sign op kind rest => do
        let e ← side op (readAt source fuel level) rest
        return .signed kind e
      | .operator before op after => do
        let lhs ← side op (readAt source fuel level) before
        let rhs ← side op (readAt source fuel level) after
        return join level lhs rhs
      | .whole => readAt source fuel level.next items := by
  rcases items with _ | ⟨i, items⟩
  · exact absurd rfl hne
  · cases level with
    | atom => exact absurd rfl hlevel
    | _ => rfl

theorem side_eq_ok : (side op read items).run S = .ok e S' ↔
    items ≠ [] ∧ (read items).run S = .ok e S' := by
  unfold side
  rcases items with _ | ⟨i, items⟩
  · exact iff_of_false run_throw_ne_ok fun h => h.1 rfl
  · simp

theorem fetch_eq_ok {index : Nat} {kind : GroupKind} {contents : List Item} :
    (Group.fetch index).run S = .ok (kind, contents) S' ↔
      ∃ area, S[index]? = some ⟨kind, some contents, area⟩ ∧
        S' = S.setIfInBounds index ⟨kind, none, area⟩ := by
  change Group.fetch index S = _ ↔ _
  unfold Group.fetch
  split
  · rename_i h
    simp [h]
  · rename_i h
    simp [h]
  · rename_i h
    simp only [h, EStateM.Result.ok.injEq, Prod.mk.injEq, Option.some.injEq, Fragment.mk.injEq]
    constructor
    · rintro ⟨⟨rfl, rfl⟩, rfl⟩
      exact ⟨_, ⟨rfl, rfl, rfl⟩, rfl⟩
    · rintro ⟨_, ⟨rfl, rfl, rfl⟩, rfl⟩
      exact ⟨⟨rfl, rfl⟩, rfl⟩

/-- All that reading a group can do, if it does not fail. -/
theorem group_eq_ok {index : Nat} {span : Span} :
    (group source read index span).run S = .ok e S' ↔
      ∃ kind contents area items T, S[index]? = some ⟨kind, some contents, area⟩ ∧
        (Group.extract contents).run (S.setIfInBounds index ⟨kind, none, area⟩) = .ok items T ∧
        ((items = [] ∧ ∃ name, kind = .call name ∧ e = .call name [] ∧ S' = T) ∨
          (items ≠ [] ∧ ∃ inner, (read items).run T = .ok inner S' ∧ e = enclose kind inner)) := by
  unfold group
  simp only [run_bind_eq_ok, Prod.exists, fetch_eq_ok]
  constructor
  · rintro ⟨kind, contents, _, ⟨area, hat, rfl⟩, items, T, hextract, hrun⟩
    refine ⟨kind, contents, area, items, T, hat, hextract, ?_⟩
    rcases items with _ | ⟨i, items⟩
    · cases kind with
      | call name =>
        obtain ⟨rfl, rfl⟩ := run_pure_eq_ok.mp hrun
        exact .inl ⟨rfl, name, rfl, rfl, rfl⟩
      | paren | bracket => exact (run_throw_ne_ok hrun).elim
    · obtain ⟨inner, T', hinner, hrun⟩ := run_bind_eq_ok.mp hrun
      obtain ⟨rfl, rfl⟩ := run_pure_eq_ok.mp hrun
      exact .inr ⟨nofun, inner, hinner, rfl⟩
  · rintro ⟨kind, contents, area, items, T, hat, hextract,
      ⟨rfl, name, rfl, rfl, rfl⟩ | ⟨hne, inner, hinner, rfl⟩⟩
    · exact ⟨_, _, _, ⟨area, hat, rfl⟩, _, _, hextract, rfl⟩
    · rcases items with _ | ⟨i, items⟩
      · exact absurd rfl hne
      · exact ⟨_, _, _, ⟨area, hat, rfl⟩, _, _, hextract,
          run_bind_eq_ok.mpr ⟨inner, S', hinner, rfl⟩⟩

end Steps

/-- What is read at a level from items that stand for `ts`. Items that the level does not cut are
what stands to the right of its operators. -/
structure Fits (level : Level) (items : List Item) (ts : List Token) (e : Expr) : Prop where
  plain : level ≤ .subtraction → Derives (.plain level) ts e
  right : cutLast? level none items = none → Derives (.right level) ts e
  unsigned : Level.subtraction < level → signCut? items = none → Derives (.plain level) ts e

namespace Fits

variable {level : Level} {op : Token} {items before after : List Item} {ts us : List Token}
  {e l r : Expr}

theorem sign {kind : BinaryKind} (hkind : kind = .addition ∨ kind = .subtraction)
    (hop : op.operator? = some kind.level) (hlevel : Level.subtraction ≤ level)
    (hcut : level = .subtraction → cutLast? level none (.token op :: items) = none)
    (h : Fits level items ts e) : Fits level (.token op :: items) (op :: ts) (.signed kind e) := by
  have htail (hnone : cutLast? level none (.token op :: items) = none) :
      cutLast? level none items = none := by
    rw [cutLast?] at hnone
    rw [← cutLast?_operator hop]
    cases hrest : cutLast? level (some (.token op)) items with
    | some => simp [hrest] at hnone
    | none => rfl
  have hright (hnone : cutLast? level none (.token op :: items) = none) :
      Derives (.right level) (op :: ts) (.signed kind e) := by
    have := h.right (htail hnone)
    revert hlevel this
    cases level <;> first | exact fun h => absurd h (by decide) | exact fun _ => .sign hkind hop
  refine ⟨?_, hright, ?_⟩
  · intro hle
    have hsub : level = .subtraction := by
      revert hlevel hle
      cases level <;> decide
    subst hsub
    exact .inner (by decide) (hright (hcut rfl))
  · intro _ hsign
    rw [signCut?_sign hkind hop] at hsign
    simp at hsign

theorem operator (hlevel : level ≠ .atom) (hop : op.operator? = some level) (hne : before ≠ [])
    (hitems : cutLast? level none (before ++ .token op :: after) ≠ none)
    (hafter : cutLast? level none after = none) (hl : Fits level before ts l)
    (hr : Fits level after us r) :
    Fits level (before ++ .token op :: after) (ts ++ op :: us) (join level l r) := by
  refine ⟨?_, fun h => absurd h hitems, ?_⟩
  · intro hle
    exact .join hlevel hop (hl.plain hle) (hr.right hafter)
  · intro hlt hsign
    rw [signCut?_append hne] at hsign
    exact .join hlevel hop (hl.unsigned hlt hsign) (hr.right hafter)

theorem whole (hlevel : level ≠ .atom) (hcut : cutLast? level none items = none)
    (hsign : Level.subtraction ≤ level → signCut? items = none)
    (h : Fits level.next items ts e) : Fits level items ts e := by
  cases level with
  | atom => exact absurd rfl hlevel
  | equality | sequence | addition =>
    have hnext := h.plain (by decide)
    exact ⟨fun _ => .inner hlevel hnext, fun _ => hnext, fun hlt => absurd hlt (by decide)⟩
  | subtraction =>
    have hnext := h.unsigned (by decide) (hsign (by decide))
    exact ⟨fun _ => .inner hlevel (.unsigned hnext), fun _ => .unsigned hnext,
      fun hlt => absurd hlt (by decide)⟩
  | division | multiplication | power | root =>
    have hnext := h.unsigned (by decide) (hsign (by decide))
    exact ⟨fun hle => absurd hle (by decide), fun _ => .unsigned hnext,
      fun _ _ => .inner hlevel hnext⟩

end Fits

/-- A reader that takes its own groups only, and returns what the items stand for. A root operator
is spelled like a name, so items must have been cut at it before single ones are read. -/
def SoundAt (level : Level) (read : List Item → Parser Expr) : Prop :=
  ∀ ⦃ps used S e S'⦄, Stands S ps used → used.Nodup → (∀ p ∈ ps, p.isDelimiter = false) →
    (level = .atom → cutLast? .root none (itemsOf ps) = none) →
    (read (itemsOf ps)).run S = .ok e S' →
    Keeps used S S' ∧ Fits level (itemsOf ps) (tokensOf ps) e

section Sound

variable {source : String} {read : List Item → Parser Expr} {p : Piece} {used : List Nat}
  {index : Nat} {span : Span} {e : Expr} {S S' : Store}

theorem group_sound (hread : SoundAt .equality read) (h : Stands S [p] used) (hnodup : used.Nodup)
    (hp : p.item = .group index span) (hrun : (group source read index span).run S = .ok e S') :
    Keeps used S S' ∧ Derives (.plain .atom) p.tokens e := by
  cases h with
  | token => simp [Piece.ofToken] at hp
  | @group d callee o c _ _ area contents _ inner _ hat hcallee ho hc hn hinner hnil =>
    cases hnil
    cases hp
    rw [List.append_nil, List.nodup_cons] at hnodup
    obtain ⟨kind, _, _, items, S₂, hat', hextract, hrest⟩ := group_eq_ok.mp hrun
    cases hat.symm.trans hat'
    have hfetch := Keeps.setIfInBounds S index ⟨d.groupKind callee, none, area⟩
    have hcontents := hinner.setIfInBounds hnodup.1 ⟨d.groupKind callee, none, area⟩
    obtain ⟨qs, used', rfl, hqs, hflat⟩ :=
      Group.extract_regroups hcontents hnodup.2 hextract
    have hkeeps : Keeps (index :: inner) S S₂ :=
      (hfetch.mono (by simp)).trans hqs.keeps (by simp)
    rcases hrest with ⟨hnil, name, hname, rfl, rfl⟩ | ⟨-, inside, hinside, rfl⟩
    · have hts : tokensOf contents = [] := by
        rw [← hqs.tokens_eq, List.map_eq_nil_iff.mp hnil, tokensOf_nil]
      exact ⟨by simpa using hkeeps,
        (derives_group_iff hcallee ho hc).mpr (.inl ⟨hts, name, hname, rfl⟩)⟩
    · obtain ⟨hkeeps', hfits⟩ := hread hqs.stands hqs.nodup hflat (by simp) hinside
      have hinside' := hqs.tokens_eq ▸ hfits.plain (by decide)
      refine ⟨?_, (derives_group_iff hcallee ho hc).mpr (.inr ⟨inside, hinside', rfl⟩)⟩
      rw [List.append_nil]
      refine hkeeps.trans hkeeps' ?_
      intro i hi
      rcases hqs.used_or_fresh i hi with hi | hi
      · exact .inl (List.mem_cons_of_mem _ hi)
      · exact .inr (by simpa using hi)

theorem operand_sound {ps : List Piece} (hread : SoundAt .equality read) (h : Stands S ps used)
    (hnodup : used.Nodup) (hroot : cutLast? .root none (itemsOf ps) = none)
    (hrun : (operand source read (itemsOf ps)).run S = .ok e S') :
    Keeps used S S' ∧ Derives (.plain .atom) (tokensOf ps) e := by
  rcases ps with _ | ⟨p, _ | ⟨q, ps⟩⟩
  · exact (run_throw_ne_ok hrun).elim
  · rw [tokensOf_cons, tokensOf_nil, List.append_nil]
    cases hp : p.item with
    | group index span =>
      rw [itemsOf_cons, itemsOf_nil, hp] at hrun
      exact group_sound hread h hnodup hp hrun
    | token t =>
      obtain ⟨rfl, rfl⟩ := h.eq_ofToken hp
      simp only [itemsOf_cons, itemsOf_nil, Piece.ofToken, operand] at hrun
      split at hrun
      · rename_i hkind
        obtain ⟨rfl, rfl⟩ := run_pure_eq_ok.mp hrun
        exact ⟨.refl _ _, .int hkind⟩
      · rename_i hkind
        obtain ⟨rfl, rfl⟩ := run_pure_eq_ok.mp hrun
        refine ⟨.refl _ _, .name ?_⟩
        simp [cutLast?, operatorAt?, Piece.ofToken, Token.operator?, Token.isRoot, hkind,
          Level.isSign] at hroot
        simp [Token.isWord, hkind, hroot]
      · exact (run_throw_ne_ok hrun).elim
  · exact (run_throw_ne_ok hrun).elim

section Cuts

variable {level : Level} {ps : List Piece} {op : Token}

theorem sign_sound (hread : SoundAt level read) (hlevel : level ≠ .atom) (h : Stands S ps used)
    (hnodup : used.Nodup) (hflat : ∀ p ∈ ps, p.isDelimiter = false) {kind : BinaryKind}
    {items : List Item} (hitems : itemsOf ps = .token op :: items)
    (hkind : kind = .addition ∨ kind = .subtraction) (hop : op.operator? = some kind.level)
    (hle : Level.subtraction ≤ level)
    (hnone : level = .subtraction → cutLast? level none (itemsOf ps) = none)
    (hrun : (side op read items >>= fun e => pure (.signed kind e)).run S = .ok e S') :
    Keeps used S S' ∧ Fits level (itemsOf ps) (tokensOf ps) e := by
  rw [hitems] at hnone
  obtain ⟨e', T, hside, hrun⟩ := run_bind_eq_ok.mp hrun
  obtain ⟨rfl, rfl⟩ := run_pure_eq_ok.mp hrun
  obtain ⟨-, hside⟩ := side_eq_ok.mp hside
  obtain ⟨p, qs, rfl, hp, rfl⟩ := List.map_eq_cons_iff.mp hitems
  obtain ⟨_, right, hleft, hright, rfl⟩ := h.of_cons
  obtain ⟨rfl, rfl⟩ := hleft.eq_ofToken hp
  obtain ⟨hkeeps, hfits⟩ := hread hright hnodup (fun q hq => hflat q (by simp [hq]))
    (fun h => absurd h hlevel) hside
  exact ⟨hkeeps, hfits.sign hkind hop hle hnone⟩

theorem operator_sound (hread : SoundAt level read) (hlevel : level ≠ .atom)
    (h : Stands S ps used) (hnodup : used.Nodup) (hflat : ∀ p ∈ ps, p.isDelimiter = false)
    {before after : List Item} (hitems : itemsOf ps = before ++ .token op :: after)
    (hop : op.operator? = some level) (hsome : cutLast? level none (itemsOf ps) ≠ none)
    (hafter : cutLast? level none after = none)
    (hrun : (side op read before >>= fun l =>
      side op read after >>= fun r => pure (join level l r)).run S = .ok e S') :
    Keeps used S S' ∧ Fits level (itemsOf ps) (tokensOf ps) e := by
  rw [hitems] at hsome
  obtain ⟨l, T, hbefore, hrun⟩ := run_bind_eq_ok.mp hrun
  obtain ⟨r, T', hafter', hrun⟩ := run_bind_eq_ok.mp hrun
  obtain ⟨rfl, rfl⟩ := run_pure_eq_ok.mp hrun
  obtain ⟨hne, hbefore⟩ := side_eq_ok.mp hbefore
  obtain ⟨-, hafter'⟩ := side_eq_ok.mp hafter'
  obtain ⟨qs, _, rfl, rfl, hrest⟩ := List.map_eq_append_iff.mp hitems
  obtain ⟨p, rs, rfl, hp, rfl⟩ := List.map_eq_cons_iff.mp hrest
  obtain ⟨left, _, hleft, hrest, rfl⟩ := h.of_append
  obtain ⟨_, right, hmid, hright, rfl⟩ := hrest.of_cons
  obtain ⟨rfl, rfl⟩ := hmid.eq_ofToken hp
  rw [List.nil_append, List.nodup_append] at hnodup
  obtain ⟨hkeeps, hfits⟩ := hread hleft hnodup.1 (fun q hq => hflat q (by simp [hq]))
    (fun h => absurd h hlevel) hbefore
  have hright' := hkeeps.stands hright fun i hi hi' => hnodup.2.2 i hi' i hi rfl
  obtain ⟨hkeeps', hfits'⟩ := hread hright' hnodup.2.1 (fun q hq => hflat q (by simp [hq]))
    (fun h => absurd h hlevel) hafter'
  refine ⟨(hkeeps.mono (by simp)).trans hkeeps' fun i hi => .inl (by simp [hi]), ?_⟩
  rw [tokensOf_append, itemsOf_append]
  exact hfits.operator hlevel hop hne hsome hafter hfits'

end Cuts

theorem readAt_sound (source : String) (fuel : Nat) (level : Level) :
    SoundAt level (readAt source fuel level) := by
  induction fuel generalizing level with
  | zero => exact fun _ _ _ _ _ _ _ _ _ h => (run_throw_ne_ok h).elim
  | succ fuel ih =>
    intro ps used S e S' h hnodup hflat hroot hrun
    by_cases hne : itemsOf ps = []
    · rw [hne] at hrun
      exact (run_throw_ne_ok hrun).elim
    by_cases hlevel : level = .atom
    · subst hlevel
      have hatom : readAt source (fuel + 1) .atom (itemsOf ps) =
          operand source (readAt source fuel .equality) (itemsOf ps) := by
        cases hps : itemsOf ps with
        | nil => exact absurd hps hne
        | cons => rfl
      rw [hatom] at hrun
      obtain ⟨hkeeps, hd⟩ := operand_sound (ih .equality) h hnodup (hroot rfl) hrun
      exact ⟨hkeeps, fun hle => absurd hle (by decide), fun _ => .unsigned hd, fun _ _ => hd⟩
    rw [readAt_succ hlevel hne] at hrun
    rcases cut_cases level (itemsOf ps) with ⟨kind, op, rest, hcut, his, hkind, hop, hle, hnone⟩ |
      ⟨before, op, after, hcut, his, hop, hsome, hafter, -⟩ | ⟨hcut, hnone, hsign⟩
    · rw [hcut] at hrun
      exact sign_sound (ih level) hlevel h hnodup hflat his hkind hop hle hnone hrun
    · rw [hcut] at hrun
      exact operator_sound (ih level) hlevel h hnodup hflat his hop hsome hafter hrun
    · rw [hcut] at hrun
      have hroot' (hnext : level.next = .atom) : cutLast? .root none (itemsOf ps) = none := by
        have : level = .root := by
          revert hnext hlevel
          cases level <;> decide
        exact this ▸ hnone
      obtain ⟨hkeeps, hfits⟩ := ih level.next h hnodup hflat hroot' hrun
      exact ⟨hkeeps, hfits.whole hlevel hnone hsign⟩

end Sound

section Complete

variable {source : String} {fuel : Nat} {level : Level} {p : Phrase} {ps : List Piece}
  {used : List Nat} {e : Expr} {S : Store}

/-- A reader that finds the tree of every phrase of so many tokens at a level. -/
def CompleteAt (level : Level) (count : Nat) (read : List Item → Parser Expr) : Prop :=
  ∀ ⦃p ps e used S⦄, Reads p ps e → Phrase.ReadAt level p → (tokensOf ps).length ≤ count →
    Stands S ps used → used.Nodup → (∀ p ∈ ps, p.isDelimiter = false) →
    ∃ S', (read (itemsOf ps)).run S = .ok e S'

theorem operand_complete {count : Nat}
    (hread : CompleteAt .equality count (readAt source fuel .equality)) {p : Piece}
    (hp : p.item.operator? = none) (hd : Derives (.plain .atom) p.tokens e)
    (hcount : p.tokens.length ≤ count + 1) (h : Stands S [p] used) (hnodup : used.Nodup) :
    ∃ S', (operand source (readAt source fuel .equality) [p.item]).run S = .ok e S' := by
  cases h with
  | @token t _ _ _ _ =>
    generalize hts : (Piece.ofToken t).tokens = ts at hd
    cases hd with
    | operation hkind => simp [Level.binary?] at hkind
    | inner hne => exact absurd rfl hne
    | int ht =>
      cases hts
      exact ⟨S, by simp only [Piece.ofToken, operand, ht]; rfl⟩
    | name ht =>
      cases hts
      have hkind : t.kind = .name := by simp_all [Token.isWord]
      exact ⟨S, by simp only [Piece.ofToken, operand, hkind]; rfl⟩
    | paren | bracket | thunk | call => simp [Piece.ofToken] at hts
  | @group d callee o c index span area contents _ inner _ hat hcallee ho hc hn hinner hnil =>
    cases hnil
    rw [List.append_nil, List.nodup_cons] at hnodup
    simp only [operand]
    have hcontents := hinner.setIfInBounds hnodup.1 ⟨d.groupKind callee, none, area⟩
    obtain ⟨items, T, hextract, -⟩ :=
      Group.extract_isOk ((hcontents.nest?_eq []).symm.trans hn) (S.setIfInBounds index _)
    obtain ⟨qs, used', rfl, hqs, hflat⟩ :=
      Group.extract_regroups hcontents hnodup.2 hextract
    rcases (derives_group_iff hcallee ho hc).mp hd with ⟨hts, name, hname, rfl⟩ | ⟨e, hd', rfl⟩
    · have hnil : qs = [] := by
        rcases qs with _ | ⟨q, qs⟩
        · rfl
        · have := hqs.tokens_eq.trans hts
          simp [hqs.stands.tokens_ne_nil q (by simp)] at this
      subst hnil
      exact ⟨T, group_eq_ok.mpr ⟨_, _, _, [], T, hat, hextract, .inl ⟨rfl, name, hname, rfl, rfl⟩⟩⟩
    · have hreads := hd'.reads hqs.stands hflat hqs.tokens_eq
      have hlength : (tokensOf qs).length ≤ count := by
        rw [hqs.tokens_eq]
        simp at hcount
        omega
      obtain ⟨S', hinside⟩ := hread hreads (by decide) hlength hqs.stands hqs.nodup hflat
      have hne : itemsOf qs ≠ [] := by simpa [itemsOf] using hreads.ne_nil
      exact ⟨S', group_eq_ok.mpr ⟨_, _, _, _, T, hat, hextract, .inr ⟨hne, e, hinside, rfl⟩⟩⟩

theorem operator_complete {count : Nat} (hread : CompleteAt level count (readAt source fuel level))
    {p₁ p₂ : Phrase} {qs : List Piece} {op : Token} {l r : Expr} (hlevel : level ≠ .atom)
    (hl : Reads p₁ ps l) (hr : Reads p₂ qs r) (h₁ : p₁.ReadAt level) (h₂ : p₂.ReadAt level)
    (hcut : cut level (itemsOf (ps ++ .ofToken op :: qs)) = .operator (itemsOf ps) op (itemsOf qs))
    (hcount : (tokensOf (ps ++ .ofToken op :: qs)).length ≤ count + 1)
    (h : Stands S (ps ++ .ofToken op :: qs) used) (hnodup : used.Nodup)
    (hflat : ∀ p ∈ ps ++ .ofToken op :: qs, p.isDelimiter = false) :
    ∃ S', (readAt source (fuel + 1) level (itemsOf (ps ++ .ofToken op :: qs))).run S =
      .ok (join level l r) S' := by
  obtain ⟨left, _, hleft, hrest, rfl⟩ := h.of_append
  obtain ⟨_, right, hmid, hright, rfl⟩ := hrest.of_cons
  obtain ⟨-, rfl⟩ := hmid.eq_ofToken rfl
  rw [List.nil_append, List.nodup_append] at hnodup
  simp only [tokensOf_append, tokensOf_cons, List.length_append, Piece.ofToken,
    List.length_singleton] at hcount
  simp only [List.mem_append, List.mem_cons, or_imp, forall_and, forall_eq] at hflat
  obtain ⟨T, hbefore⟩ := hread hl h₁ (by omega) hleft hnodup.1 hflat.1
  obtain ⟨hkeeps, -⟩ := readAt_sound source fuel level hleft hnodup.1 hflat.1
    (fun h => absurd h hlevel) hbefore
  have hright' := hkeeps.stands hright fun i hi hi' => hnodup.2.2 i hi' i hi rfl
  obtain ⟨S', hafter⟩ := hread hr h₂ (by omega) hright' hnodup.2.1 hflat.2.2
  refine ⟨S', ?_⟩
  rw [readAt_succ hlevel (by simp), hcut]
  refine run_bind_eq_ok.mpr ⟨l, T, side_eq_ok.mpr ⟨?_, hbefore⟩, run_bind_eq_ok.mpr
    ⟨r, S', side_eq_ok.mpr ⟨?_, hafter⟩, rfl⟩⟩
  · simpa [itemsOf] using hl.ne_nil
  · simpa [itemsOf] using hr.ne_nil

theorem sign_complete {count : Nat} (hread : CompleteAt level count (readAt source fuel level))
    {l : Level} {kind : BinaryKind} {op : Token} (hlevel : level ≠ .atom)
    (hkind : kind = .addition ∨ kind = .subtraction) (hop : op.operator? = some kind.level)
    (hreads : Reads (.signed l) ps e) (hp : Phrase.ReadAt level (.signed l))
    (hcount : (tokensOf (.ofToken op :: ps)).length ≤ count + 1)
    (h : Stands S (.ofToken op :: ps) used) (hnodup : used.Nodup)
    (hflat : ∀ p ∈ Piece.ofToken op :: ps, p.isDelimiter = false) :
    ∃ S', (readAt source (fuel + 1) level (itemsOf (.ofToken op :: ps))).run S =
      .ok (.signed kind e) S' := by
  have hcut : cut level (.token op :: itemsOf ps) = .sign op kind (itemsOf ps) :=
    cut_sign hkind hop hp.1 fun _ => (Reads.sign hkind hop hreads).cutLast?_eq_none hp.2 rfl
  obtain ⟨_, right, hmid, hright, rfl⟩ := h.of_cons
  obtain ⟨-, rfl⟩ := hmid.eq_ofToken rfl
  simp only [tokensOf_cons, List.length_append, Piece.ofToken, List.length_singleton] at hcount
  obtain ⟨S', hrest⟩ := hread hreads hp (by omega) hright hnodup
    fun q hq => hflat q (by simp [hq])
  refine ⟨S', ?_⟩
  rw [readAt_succ hlevel (by simp), itemsOf_cons]
  simp only [Piece.ofToken, hcut]
  refine run_bind_eq_ok.mpr ⟨e, S', side_eq_ok.mpr ⟨?_, hrest⟩, rfl⟩
  simpa [itemsOf] using hreads.ne_nil

/-- A phrase that is tighter than a level is read at the next one. -/
theorem whole_complete {count : Nat} {p : Phrase} (hlevel : level ≠ .atom)
    (hread : CompleteAt level.next count (readAt source fuel level.next)) (hreads : Reads p ps e)
    (htight : p.Tighter level) (hsign : Level.subtraction ≤ level → p.Unsigned)
    (hp : p.ReadAt level.next) (hcount : (tokensOf ps).length ≤ count) (h : Stands S ps used)
    (hnodup : used.Nodup) (hflat : ∀ p ∈ ps, p.isDelimiter = false) :
    ∃ S', (readAt source (fuel + 1) level (itemsOf ps)).run S = .ok e S' := by
  rw [readAt_succ hlevel (by simpa [itemsOf] using hreads.ne_nil),
    cut_whole (hreads.cutLast?_eq_none htight rfl) fun hle => hreads.signCut?_eq_none (hsign hle)]
  exact hread hreads hp hcount h hnodup hflat

theorem plain_complete {count : Nat} {l : Level} (hlevel : level ≠ .atom)
    (hread : CompleteAt level.next count (readAt source fuel level.next))
    (hreads : Reads (.plain l) ps e) (hle : level ≤ l) (hne : level ≠ l)
    (hcount : (tokensOf ps).length ≤ count) (h : Stands S ps used) (hnodup : used.Nodup)
    (hflat : ∀ p ∈ ps, p.isDelimiter = false) :
    ∃ S', (readAt source (fuel + 1) level (itemsOf ps)).run S = .ok e S' := by
  have hlt := Level.lt_of_le_of_ne hle hne
  have hp : level.next ≤ l := by
    change level.next.rank ≤ l.rank
    rw [Level.rank_next hlevel]
    exact hlt
  exact whole_complete hlevel hread hreads hlt (fun hle => Nat.lt_of_le_of_lt hle hlt) hp hcount h
    hnodup hflat

theorem elements_complete {count : Nat}
    (hread : CompleteAt level.next count (readAt source fuel level.next))
    (hreads : Reads .elements ps e) (hle : level ≤ .sequence) (hne : level ≠ .sequence)
    (hcount : (tokensOf ps).length ≤ count) (h : Stands S ps used) (hnodup : used.Nodup)
    (hflat : ∀ p ∈ ps, p.isDelimiter = false) :
    ∃ S', (readAt source (fuel + 1) level (itemsOf ps)).run S = .ok e S' := by
  have heq : level = .equality := by
    revert hle hne
    cases level <;> decide
  subst heq
  exact whole_complete (by decide) hread hreads (by decide) (fun h => absurd h (by decide))
    (by decide) hcount h hnodup hflat

/-- Reading finds the tree of every phrase, given enough fuel. -/
theorem readAt_complete (level : Level) (count : Nat)
    (hfuel : 9 * count + 9 ≤ fuel + level.rank) :
    CompleteAt level count (readAt source fuel level) := by
  induction fuel generalizing level count with
  | zero =>
    have : level.rank ≤ 8 := by cases level <;> decide
    omega
  | succ fuel ih =>
    intro p ps e used S hreads hp hcount h hnodup hflat
    have hpos : 0 < (tokensOf ps).length := by
      obtain ⟨q, qs, rfl⟩ := List.exists_cons_of_ne_nil hreads.ne_nil
      have := List.length_pos_iff.mpr (h.tokens_ne_nil q (by simp))
      simp only [tokensOf_cons, List.length_append]
      omega
    by_cases hlevel : level = .atom
    · subst hlevel
      obtain rfl := Phrase.eq_plain_atom hp
      obtain ⟨q, rfl, hop, hd⟩ := hreads.eq_singleton
      rw [tokensOf_cons, tokensOf_nil, List.append_nil] at hcount hpos
      have hread := ih .equality (count - 1) (by simp [Level.rank] at *; omega)
      exact operand_complete hread hop hd (by omega) h hnodup
    -- A part of a phrase is shorter, or else it is read at the next level.
    have hread := ih level (count - 1) (by omega)
    have hnext := ih level.next count (by rw [Level.rank_next hlevel]; omega)
    induction hreads generalizing used with
    | @operation l kind op ps qs _ _ hkind hop hl hr _ _ =>
      have hl' : l ≠ .atom := by
        rintro rfl
        simp [Level.binary?] at hkind
      by_cases heq : level = l
      · subst heq
        have hcut := hl.cut_eq_operator hr hop (Phrase.tighter_right (Nat.le_refl _) hl') id
        rw [← join_of_binary? hkind]
        exact operator_complete hread hl' hl hr hp (Phrase.readAt_right hl') hcut (by omega) h
          hnodup hflat
      · exact plain_complete hlevel hnext (.operation hkind hop hl hr) hp heq hcount h hnodup hflat
    | pair hop hl hr _ _ =>
      by_cases heq : level = .sequence
      · subst heq
        have hcut := hl.cut_eq_operator hr hop (by decide) fun hlt => absurd hlt (by decide)
        rw [← join_of_ne_sequence (hl.derives.ne_sequence (by decide))]
        exact operator_complete hread hlevel hl hr (by decide) (by decide) hcut (by omega) h hnodup
          hflat
      · exact elements_complete hnext (.pair hop hl hr) hp heq hcount h hnodup hflat
    | @more _ _ _ es r hop hl hr _ _ =>
      by_cases heq : level = .sequence
      · subst heq
        have hcut := hl.cut_eq_operator hr hop (by decide) fun hlt => absurd hlt (by decide)
        exact operator_complete hread hlevel hl hr (by decide) (by decide) hcut (by omega) h hnodup
          hflat
      · exact elements_complete hnext (.more hop hl hr) hp heq hcount h hnodup hflat
    | elements hreads ih => exact ih hp hcount h hnodup hflat hpos
    | @inner l _ _ hne hreads ih =>
      by_cases heq : level = l
      · subst heq
        exact ih (Phrase.readAt_inner hne) hcount h hnodup hflat hpos
      · exact plain_complete hlevel hnext (.inner hne hreads) hp heq hcount h hnodup hflat
    | unsigned hreads ih => exact ih (Nat.le_of_lt hp.2) hcount h hnodup hflat hpos
    | sign hkind hop hreads _ =>
      exact sign_complete hread hlevel hkind hop hreads hp (by omega) h hnodup hflat
    | atom hop hd =>
      exact plain_complete hlevel hnext (.atom hop hd) hp hlevel hcount h hnodup hflat

end Complete

end Parser

theorem Parser.refused?_eq_none_iff {t : Token} :
    refused? t = none ↔ t.kind ≠ .other ∧ t.kind ≠ .decimal := by
  unfold refused?
  split <;> simp_all

theorem itemsOf_ofToken (ts : List Token) : itemsOf (ts.map .ofToken) = ts.map .token := by
  simp [itemsOf, Piece.ofToken, Function.comp_def]

/-- Reading all tokens gives the tree that they derive, and fails if there is none. -/
theorem Parser.exists_all_eq_ok_iff (source : String) (ts : List Token) (e : Expr) :
    (∃ S', (all source ts).run #[] = .ok e S') ↔ Derives (.plain .equality) ts e := by
  have hstands := Stands.ofTokens #[] ts
  rw [show all source ts = Group.extract (itemsOf (ts.map .ofToken)) >>=
    readAt source (fuelFor ts.length) .equality by rw [itemsOf_ofToken]; rfl]
  simp only [run_bind_eq_ok]
  constructor
  · rintro ⟨S', items, T, hextract, hread⟩
    obtain ⟨qs, used, rfl, hqs, hflat⟩ :=
      Group.extract_regroups hstands List.nodup_nil hextract
    have hfits := (readAt_sound source _ .equality hqs.stands hqs.nodup hflat nofun hread).2
    have hderives := hfits.plain (by decide)
    rwa [hqs.tokens_eq, tokensOf_ofToken] at hderives
  · intro h
    have hnested : Nested (tokensOf (ts.map .ofToken)) := by
      rw [tokensOf_ofToken]
      exact h.nested
    obtain ⟨items, T, hextract, -⟩ :=
      Group.extract_isOk ((hstands.nest?_eq []).symm.trans hnested) #[]
    obtain ⟨qs, used, rfl, hqs, hflat⟩ :=
      Group.extract_regroups hstands List.nodup_nil hextract
    have htokens : tokensOf qs = ts := by rw [hqs.tokens_eq, tokensOf_ofToken]
    have hreads := h.reads hqs.stands hflat htokens
    have hcomplete : CompleteAt .equality ts.length (readAt source (fuelFor ts.length) .equality) :=
      readAt_complete _ _ (by simp only [fuelFor, Level.rank]; omega)
    obtain ⟨S', hread⟩ :=
      hcomplete hreads (by decide) (by rw [htokens]) hqs.stands hqs.nodup hflat
    exact ⟨S', _, T, hextract, hread⟩

/-- The grammar is unambiguous: a token list has one tree at most. -/
theorem Derives.unique {ts : List Token} {e e' : Expr} (h : Derives (.plain .equality) ts e)
    (h' : Derives (.plain .equality) ts e') : e = e' := by
  obtain ⟨S, hrun⟩ := (Parser.exists_all_eq_ok_iff "" ts e).mpr h
  obtain ⟨S', hrun'⟩ := (Parser.exists_all_eq_ok_iff "" ts e').mpr h'
  cases hrun.symm.trans hrun'
  rfl

theorem tokens_findSome?_refused?_iff (source : String) :
    (tokens source).findSome? Parser.refused? = none ↔
      ∀ t ∈ rawTokens source, t.kind ≠ .other ∧ t.kind ≠ .decimal := by
  simp only [List.findSome?_eq_none_iff, Parser.refused?_eq_none_iff, tokens, List.mem_filter,
    bne_iff_ne, and_imp]
  refine forall₂_congr fun t _ => ?_
  constructor
  · intro h
    by_cases hblank : t.kind = .whitespace
    · simp [hblank]
    · exact h hblank
  · intro h _
    exact h

/-- A text parses to the tree that its tokens derive. -/
theorem parse_iff_derives (source : String) (e : Expr) :
    parse source = .ok e ↔ Derives (.plain .equality) (tokens source) e := by
  rw [← Parser.exists_all_eq_ok_iff source]
  unfold parse
  cases hrefused : (tokens source).findSome? Parser.refused? with
  | some err =>
    rw [Parser.exists_all_eq_ok_iff]
    refine iff_of_false (by simp [hrefused]) ?_
    intro h
    obtain ⟨t, ht, hsome⟩ := List.exists_of_findSome?_eq_some hrefused
    simp [Parser.refused?_eq_none_iff.mpr (h.kind_ne t ht)] at hsome
  | none =>
    simp only [hrefused]
    by_cases hempty : (tokens source).isEmpty = true
    · rw [if_pos hempty, List.isEmpty_iff.mp hempty, Parser.exists_all_eq_ok_iff]
      exact iff_of_false nofun fun h => h.ne_nil rfl
    · rw [if_neg hempty]
      cases (Parser.all source (tokens source)).run #[] <;> simp

/-- Parsing succeeds on the phrases of the grammar and on no other texts, and returns the tree that
the grammar gives them. -/
theorem parse_eq_ok_iff (source : String) (e : Expr) :
    parse source = .ok e ↔
      (∀ t ∈ rawTokens source, t.kind ≠ .other ∧ t.kind ≠ .decimal) ∧
        Derives (.plain .equality) (tokens source) e := by
  rw [parse_iff_derives, ← tokens_findSome?_refused?_iff, List.findSome?_eq_none_iff]
  constructor
  · intro h
    exact ⟨fun t ht => Parser.refused?_eq_none_iff.mpr (h.kind_ne t ht), h⟩
  · exact And.right

end Formulary
