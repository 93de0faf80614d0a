import Mathlib.Data.List.TakeDrop
import Mathlib.Data.List.TakeWhile
import Formulary.Proofs.Grammar.Pieces

/-!
Taking groups out. It succeeds on nested tokens and on no others, and the flat items that remain
stand for the same tokens.
-/

namespace Formulary

/-- No item is a token of the kind. -/
def Lacks (kind : TokenKind) (items : List Item) : Prop := ∀ i ∈ items, i.isA kind = false

section Lacks

variable {kind : TokenKind} {i : Item} {is js : List Item} {d : Delimiter}

@[simp] theorem lacks_nil : Lacks kind [] := nofun

@[simp] theorem lacks_cons : Lacks kind (i :: is) ↔ i.isA kind = false ∧ Lacks kind is := by
  simp [Lacks]

@[simp] theorem lacks_append : Lacks kind (is ++ js) ↔ Lacks kind is ∧ Lacks kind js := by
  simp [Lacks, or_imp, forall_and]

/-- Pieces are flat if they lack each kind of delimiter. -/
theorem flat_of_lacks {ps : List Piece}
    (h : ∀ d : Delimiter, Lacks d.opening (itemsOf ps) ∧ Lacks d.closing (itemsOf ps)) :
    ∀ p ∈ ps, p.isDelimiter = false := by
  intro p hp
  have hi : p.item ∈ itemsOf ps := List.mem_map_of_mem hp
  have hparen := h .paren
  have hbracket := h .bracket
  have hkinds := And.intro (And.intro (hparen.1 _ hi) (hparen.2 _ hi))
    (And.intro (hbracket.1 _ hi) (hbracket.2 _ hi))
  unfold Piece.isDelimiter Token.isDelimiter
  unfold Item.isA at hkinds
  cases hp : p.item with
  | group => rfl
  | token t =>
    rw [hp] at hkinds
    cases hk : t.kind <;> simp_all [Delimiter.opening, Delimiter.closing]

/-- The parentheses are out before brackets are taken out. -/
def Ready (d : Delimiter) (items : List Item) : Prop :=
  d = .bracket → Lacks Delimiter.paren.opening items ∧ Lacks Delimiter.paren.closing items

theorem ready_paren (is : List Item) : Ready .paren is := nofun

theorem Ready.of_lacks (h : Ready d is) (hs : ∀ k, Lacks k is → Lacks k js) : Ready d js :=
  fun hd => ⟨hs _ (h hd).1, hs _ (h hd).2⟩

end Lacks

/-- The delimiters open after an item; a group opens and closes its own. -/
def nestItem? (opened : List Delimiter) : Item → Option (List Delimiter)
  | .token t => nestStep? opened t
  | .group .. => some opened

def nestItems? (opened : List Delimiter) (items : List Item) : Option (List Delimiter) :=
  items.foldlM nestItem? opened

theorem nestItems?_cons (opened : List Delimiter) (i : Item) (items : List Item) :
    nestItems? opened (i :: items) = (nestItem? opened i).bind (nestItems? · items) := rfl

theorem nestItems?_append (opened : List Delimiter) (is js : List Item) :
    nestItems? opened (is ++ js) = (nestItems? opened is).bind (nestItems? · js) :=
  List.foldlM_append

theorem nestItems?_outer {opened rest : List Delimiter} (outer : List Delimiter) {items : List Item}
    (h : nestItems? opened items = some rest) :
    nestItems? (opened ++ outer) items = some (rest ++ outer) := by
  induction items generalizing opened with
  | nil =>
    cases h
    rfl
  | cons i items ih =>
    rw [nestItems?_cons, Option.bind_eq_some_iff] at h ⊢
    obtain ⟨next, hstep, hrest⟩ := h
    refine ⟨next ++ outer, ?_, ih hrest⟩
    cases i with
    | token t => exact nestStep?_append hstep
    | group =>
      cases hstep
      rfl

theorem Stands.nest?_eq {S : Store} {ps : List Piece} {used : List Nat} (h : Stands S ps used)
    (opened : List Delimiter) : nest? opened (tokensOf ps) = nestItems? opened (itemsOf ps) := by
  induction ps generalizing used opened with
  | nil => rfl
  | cons p ps ih =>
    obtain ⟨left, right, hp, hps, rfl⟩ := h.of_cons
    rw [tokensOf_cons, nest?_append, itemsOf_cons, nestItems?_cons]
    cases hi : p.item with
    | token t =>
      obtain ⟨rfl, -⟩ := hp.eq_ofToken hi
      change (nest? opened [t]).bind _ = _
      cases hs : nestStep? opened t with
      | none => simp [nest?, nestItem?, hs]
      | some next => simpa [nest?, nestItem?, hs] using ih hps next
    | group =>
      have hn : Nested (tokensOf [p]) := hp.nested (by simp [Piece.isDelimiter, hi])
      rw [tokensOf_cons, tokensOf_nil, List.append_nil] at hn
      rw [hn.nest?_eq]
      exact ih hps opened

section Items

variable {d : Delimiter} {opened rest outer : List Delimiter} {i : Item} {items : List Item}

theorem Item.eq_of_isA {k k' : TokenKind} (h : i.isA k = true) (h' : i.isA k' = true) :
    k = k' := by
  cases i with
  | token t => exact (beq_iff_eq.mp h).symm.trans (beq_iff_eq.mp h')
  | group => simp [isA] at h

theorem Item.exists_token_of_isA {kind : TokenKind} (h : i.isA kind = true) :
    ∃ t, i = .token t ∧ t.kind = kind := by
  cases i with
  | token t => exact ⟨t, rfl, beq_iff_eq.mp h⟩
  | group => cases h

theorem nestItem?_opening (h : i.isA d.opening = true) :
    nestItem? opened i = some (d :: opened) := by
  cases i with
  | token t => exact nestStep?_opening (beq_iff_eq.mp h)
  | group => simp [Item.isA] at h

theorem nestItem?_closing (h : i.isA d.closing = true) :
    nestItem? (d :: opened) i = some opened := by
  cases i with
  | token t => exact nestStep?_closing (beq_iff_eq.mp h)
  | group => simp [Item.isA] at h

theorem nestItem?_other (h : ∀ d : Delimiter, i.isA d.opening = false ∧ i.isA d.closing = false) :
    nestItem? opened i = some opened := by
  cases i with
  | token t =>
    refine nestStep?_other ?_
    have := And.intro (h .paren) (h .bracket)
    unfold Token.isDelimiter
    cases hk : t.kind <;> simp_all [Item.isA, Delimiter.opening, Delimiter.closing]
  | group => rfl

/-- All that an item can do to the open delimiters. -/
theorem nestItem?_cases {next : List Delimiter} (h : nestItem? opened i = some next) :
    (∃ d : Delimiter, i.isA d.opening = true ∧ next = d :: opened) ∨
    (∃ d : Delimiter, i.isA d.closing = true ∧ opened = d :: next) ∨
    (∀ d : Delimiter, i.isA d.opening = false ∧ i.isA d.closing = false) ∧ next = opened := by
  by_cases hopen : ∃ d : Delimiter, i.isA d.opening = true
  · obtain ⟨d, hd⟩ := hopen
    rw [nestItem?_opening hd] at h
    exact .inl ⟨d, hd, by simpa using h.symm⟩
  by_cases hclose : ∃ d : Delimiter, i.isA d.closing = true
  · obtain ⟨d, hd⟩ := hclose
    refine .inr (.inl ⟨d, hd, ?_⟩)
    cases i with
    | token t => exact exists_of_nestStep?_closing (beq_iff_eq.mp hd) h
    | group => simp [Item.isA] at hd
  · have hi : ∀ d : Delimiter, i.isA d.opening = false ∧ i.isA d.closing = false := by
      simp_all
    rw [nestItem?_other hi] at h
    exact .inr (.inr ⟨hi, by simpa using h.symm⟩)

theorem nestItems?_flat (h : ∀ d : Delimiter, Lacks d.opening items ∧ Lacks d.closing items) :
    nestItems? opened items = some opened := by
  induction items with
  | nil => rfl
  | cons i items ih =>
    simp only [lacks_cons] at h
    rw [nestItems?_cons, nestItem?_other fun d => ⟨(h d).1.1, (h d).2.1⟩]
    exact ih fun d => ⟨(h d).1.2, (h d).2.2⟩

/-- Without an opening delimiter of its kind a closing one fits on nothing. -/
theorem lacks_closing (h : nestItems? opened items = some rest) (hd : d ∉ opened)
    (hlacks : Lacks d.opening items) : Lacks d.closing items := by
  induction items generalizing opened with
  | nil => simp
  | cons i items ih =>
    rw [nestItems?_cons, Option.bind_eq_some_iff] at h
    obtain ⟨next, hstep, hrest⟩ := h
    rw [lacks_cons] at hlacks ⊢
    rcases nestItem?_cases hstep with ⟨d', hi, rfl⟩ | ⟨d', hi, rfl⟩ | ⟨hi, rfl⟩
    · have hne : d ≠ d' := by
        rintro rfl
        simp [hi] at hlacks
      refine ⟨?_, ih hrest (by simp [hne, hd]) hlacks.2⟩
      rw [← Bool.not_eq_true]
      intro hc
      have := Item.eq_of_isA hi hc
      cases d <;> cases d' <;> simp_all [Delimiter.opening, Delimiter.closing]
    · simp only [List.mem_cons, not_or] at hd
      refine ⟨?_, ih hrest hd.2 hlacks.2⟩
      rw [← Bool.not_eq_true]
      intro hc
      have := Item.eq_of_isA hi hc
      cases d <;> cases d' <;> simp_all [Delimiter.closing]
    · exact ⟨(hi d).2, ih hrest hd hlacks.2⟩

/-- What is open further in is closed before the delimiter itself. -/
theorem exists_closing (opened : List Delimiter)
    (h : nestItems? (opened ++ d :: outer) items = some []) :
    ∃ inside c after, items = inside ++ c :: after ∧ nestItems? opened inside = some [] ∧
      c.isA d.closing = true := by
  induction items generalizing opened with
  | nil => simp [nestItems?] at h
  | cons i items ih =>
    rw [nestItems?_cons, Option.bind_eq_some_iff] at h
    obtain ⟨next, hstep, hrest⟩ := h
    rcases nestItem?_cases hstep with ⟨d', hi, rfl⟩ | ⟨d', hi, hopened⟩ | ⟨hi, rfl⟩
    · obtain ⟨inside, c, after, rfl, hinside, hc⟩ := ih (d' :: opened) hrest
      refine ⟨i :: inside, c, after, rfl, ?_, hc⟩
      rw [nestItems?_cons, nestItem?_opening hi]
      exact hinside
    · cases opened with
      | nil =>
        simp only [List.nil_append, List.cons.injEq] at hopened
        exact ⟨[], i, items, rfl, rfl, hopened.1 ▸ hi⟩
      | cons d'' opened =>
        simp only [List.cons_append, List.cons.injEq] at hopened
        obtain ⟨rfl, rfl⟩ := hopened
        obtain ⟨inside, c, after, rfl, hinside, hc⟩ := ih opened hrest
        refine ⟨i :: inside, c, after, rfl, ?_, hc⟩
        rw [nestItems?_cons, nestItem?_closing hi]
        exact hinside
    · obtain ⟨inside, c, after, rfl, hinside, hc⟩ := ih opened hrest
      refine ⟨i :: inside, c, after, rfl, ?_, hc⟩
      rw [nestItems?_cons, nestItem?_other hi]
      exact hinside

theorem Group.strayBracket?_eq_none_iff {spans : List Span}
    (ho : Lacks Delimiter.paren.opening items) (hc : Lacks Delimiter.paren.closing items) :
    Group.strayBracket? spans items = none ↔
      nestItems? (List.replicate spans.length .bracket) items = some [] := by
  induction items generalizing spans with
  | nil => simp [strayBracket?, nestItems?]
  | cons i items ih =>
    rw [lacks_cons] at ho hc
    rw [nestItems?_cons]
    unfold strayBracket?
    by_cases hopen : i.isA .openBracket = true
    · rw [nestItem?_opening (d := .bracket) hopen, if_pos hopen, ih ho.2 hc.2]
      rfl
    rw [if_neg hopen]
    by_cases hclose : i.isA .closeBracket = true
    · rw [if_pos hclose]
      cases spans with
      | nil =>
        have : nestItem? [] i = none := by
          rw [← Option.not_isSome_iff_eq_none, Option.isSome_iff_exists]
          rintro ⟨next, hstep⟩
          rcases nestItem?_cases hstep with ⟨d, hi, -⟩ | ⟨d, -, hnil⟩ | ⟨hi, -⟩
          · have := Item.eq_of_isA hi hclose
            cases d <;> simp [Delimiter.opening] at this
          · simp at hnil
          · exact absurd hclose (Bool.eq_false_iff.mp (hi .bracket).2)
        simp [this]
      | cons span spans =>
        rw [List.length_cons, List.replicate_succ,
          nestItem?_closing (d := .bracket) hclose]
        exact ih ho.2 hc.2
    · have hi : ∀ d : Delimiter, i.isA d.opening = false ∧ i.isA d.closing = false := by
        rintro (_ | _)
        · exact ⟨ho.1, hc.1⟩
        · exact ⟨Bool.eq_false_iff.mpr hopen, Bool.eq_false_iff.mpr hclose⟩
      rw [if_neg hclose, nestItem?_other hi, ih ho.2 hc.2]
      rfl

/-- A group crosses nothing if its contents are nested. -/
theorem Group.crossing?_eq_none_iff (ho : Lacks d.opening items) (hc : Lacks d.closing items)
    (hready : Ready d items) :
    Group.crossing? d items = none ↔ nestItems? [] items = some [] := by
  cases d with
  | paren => exact strayBracket?_eq_none_iff ho hc
  | bracket =>
    refine iff_of_true rfl (nestItems?_flat ?_)
    rintro (_ | _)
    · exact hready rfl
    · exact ⟨ho, hc⟩

end Items

theorem exists_of_itemsOf_eq {ps : List Piece} {i : Item} {is js : List Item}
    (h : itemsOf ps = is ++ i :: js) :
    ∃ qs p rs, ps = qs ++ p :: rs ∧ itemsOf qs = is ∧ p.item = i ∧ itemsOf rs = js := by
  obtain ⟨qs, rest, rfl, hqs, hrest⟩ := List.map_eq_append_iff.mp h
  obtain ⟨p, rs, rfl, hp, hrs⟩ := List.map_eq_cons_iff.mp hrest
  exact ⟨qs, p, rs, rfl, hqs, hp, hrs⟩

/-- What may be left when pieces for `ts` have been regrouped. -/
structure Regroups (ts : List Token) (used : List Nat) (S : Store) (qs : List Piece)
    (used' : List Nat) (S' : Store) : Prop where
  tokens_eq : tokensOf qs = ts
  stands : Stands S' qs used'
  nodup : used'.Nodup
  used_or_fresh : ∀ i ∈ used', i ∈ used ∨ S.size ≤ i
  /-- No group is lost, neither an old one nor a new one. -/
  covers : ∀ i < S'.size, i ∈ used ∨ S.size ≤ i → i ∈ used'
  keeps : Keeps [] S S'

namespace Regroups

variable {ts : List Token} {used used' used'' : List Nat} {S S' S'' : Store} {ps qs : List Piece}

theorem refl (h : Stands S ps used) (hu : used.Nodup) : Regroups (tokensOf ps) used S ps used S :=
  ⟨rfl, h, hu, fun _ => .inl, fun _ hi => (Or.resolve_right · (Nat.not_le.mpr hi)), .refl [] S⟩

theorem trans (h : Regroups ts used S ps used' S')
    (h' : Regroups (tokensOf ps) used' S' qs used'' S'') : Regroups ts used S qs used'' S'' := by
  refine ⟨h'.tokens_eq.trans h.tokens_eq, h'.stands, h'.nodup, ?_, ?_,
    h.keeps.trans h'.keeps (by simp)⟩
  · intro i hi
    have := h.keeps.size_le
    rcases h'.used_or_fresh i hi with hi | hi
    · exact h.used_or_fresh i hi
    · exact .inr (by omega)
  · intro i hi hused
    by_cases hi' : i < S'.size
    · exact h'.covers i hi (.inl (h.covers i hi' hused))
    · exact h'.covers i hi (.inr (Nat.not_lt.mp hi'))

theorem cons {p : Piece} {left right : List Nat} (hp : Stands S [p] left)
    (hnodup : (left ++ right).Nodup) (h : Regroups ts right S qs used' S')
    (hadj : ∀ t, p.item = .token t → t.isWord → ∀ q ∈ qs.head?, q.isBare = false) :
    Regroups (p.tokens ++ ts) (left ++ right) S (p :: qs) (left ++ used') S' := by
  rw [List.nodup_append] at hnodup
  refine ⟨by rw [tokensOf_cons, h.tokens_eq], ?_, ?_, ?_, ?_, h.keeps⟩
  · exact (h.keeps.stands hp (by simp)).cons h.stands hadj
  · refine List.nodup_append.mpr ⟨hnodup.1, h.nodup, ?_⟩
    intro i hi j hj
    rcases h.used_or_fresh j hj with hj | hj
    · exact hnodup.2.2 i hi j hj
    · have := hp.lt_size i hi
      omega
  · intro i hi
    rw [List.mem_append] at hi ⊢
    rcases hi with hi | hi
    · exact .inl (.inl hi)
    · exact (h.used_or_fresh i hi).imp_left .inr
  · intro i hi hused
    rw [List.mem_append, or_assoc] at hused
    exact List.mem_append.mpr (hused.imp_right (h.covers i hi))

end Regroups

section Close

variable {d : Delimiter} {callee : Option Token} {opening : Token} {ps : List Piece}
  {used : List Nat} {items items' : List Item} {S S' T : Store}

/-- All that closing a group can do, if it does not fail. -/
theorem Group.close_eq_ok : (Group.close d callee opening items).run S = .ok items' S' ↔
    ∃ inside c after, items = inside ++ c :: after ∧ Lacks d.closing inside ∧
      c.isA d.closing = true ∧ Group.crossing? d inside = none ∧
      items' = .group S.size ((callee.getD opening).span.upTo c.span) :: after ∧
      S' = S.push ⟨d.groupKind callee, some inside, (callee.getD opening).span.upTo c.span⟩ := by
  unfold Group.close
  rw [List.span_eq_takeWhile_dropWhile]
  constructor
  · intro h
    cases hdrop : items.dropWhile (!·.isA d.closing) with
    | nil =>
      rw [hdrop] at h
      exact (run_throw_ne_ok h).elim
    | cons c after =>
      rw [hdrop] at h
      simp only at h
      split at h
      · exact (run_throw_ne_ok h).elim
      rename_i hcross
      obtain ⟨placeholder, T, hstore, h⟩ := run_bind_eq_ok.mp h
      obtain ⟨rfl, rfl⟩ := run_pure_eq_ok.mp h
      cases hstore
      refine ⟨_, c, after, ?_, ?_, ?_, hcross, rfl, rfl⟩
      · rw [← hdrop, List.takeWhile_append_dropWhile]
      · intro i hi
        simpa using List.mem_takeWhile_imp hi
      · have := List.head?_dropWhile_not (!·.isA d.closing) items
        rw [hdrop] at this
        simpa using this
  · rintro ⟨inside, c, after, rfl, hlacks, hc, hcross, rfl, rfl⟩
    have hinside : ∀ i ∈ inside, (!i.isA d.closing) = true := by
      simpa [Lacks] using hlacks
    have hc' : (!c.isA d.closing) = false := by simp [hc]
    rw [List.takeWhile_append_of_pos hinside, List.dropWhile_append_of_pos hinside]
    simp only [List.takeWhile_cons, hc', List.dropWhile_cons, Bool.false_eq_true, if_false,
      List.append_nil]
    rw [hcross]
    rfl

/-- A group that is closed becomes one piece. -/
theorem Group.close_regroups {ts : List Token} {used' : List Nat} (callee : Option Token)
    (hcallee : ∀ t ∈ callee, d = .paren ∧ t.isWord) (hopening : opening.kind = d.opening)
    (h : Regroups ts used S ps used' T) (hlacks : Lacks d.opening (itemsOf ps))
    (hready : Ready d (itemsOf ps))
    (hclose : (Group.close d callee opening (itemsOf ps)).run T = .ok items S') :
    ∃ qs used'', items = itemsOf qs ∧
      Regroups (callee.toList ++ opening :: ts) used S qs used'' S' ∧
      ∀ k, Lacks k (itemsOf ps) → Lacks k (itemsOf qs) := by
  obtain ⟨_, _, _, hps, hc, hkind, hcross, rfl, rfl⟩ := close_eq_ok.mp hclose
  obtain ⟨inside, c, after, rfl, rfl, rfl, rfl⟩ := exists_of_itemsOf_eq hps
  obtain ⟨hts, hstands, hnodup, hused, hcovers, hkeeps⟩ := h
  obtain ⟨inner, _, hinside, hrest, rfl⟩ := hstands.of_append
  obtain ⟨_, outer, hclosing, hafter, rfl⟩ := hrest.of_cons
  obtain ⟨closing, hitem, hends⟩ := Item.exists_token_of_isA hkind
  obtain ⟨rfl, rfl⟩ := hclosing.eq_ofToken hitem
  simp only [itemsOf_append, itemsOf_cons, lacks_append, lacks_cons] at hlacks
  have hready' : Ready d (itemsOf inside) := hready.of_lacks (by simp_all)
  have hnested : Nested (tokensOf inside) := by
    rw [Nested, hinside.nest?_eq]
    exact (crossing?_eq_none_iff hlacks.1 hc hready').mp hcross
  have hpush := Keeps.push T ⟨d.groupKind callee, some (itemsOf inside),
    (callee.getD opening).span.upTo (Piece.ofToken closing).item.span⟩
  have hfresh : T.size ∉ inner ++ ([] ++ outer) := by
    intro hm
    have := hstands.lt_size T.size hm
    omega
  refine ⟨⟨.group T.size _, callee.toList ++ opening :: (tokensOf inside ++ [closing])⟩ :: after,
    T.size :: (inner ++ outer), rfl, ⟨?_, ?_, ?_, ?_, ?_, hkeeps.trans hpush (by simp)⟩, ?_⟩
  · simp [← hts, Piece.ofToken]
  · exact .group Array.getElem?_push_size hcallee hopening hends hnested
      (hpush.stands hinside (by simp)) (hpush.stands hafter (by simp))
  · exact List.nodup_cons.mpr ⟨hfresh, hnodup⟩
  · rintro i (_ | ⟨_, hi⟩)
    · exact .inr hkeeps.size_le
    · exact hused i hi
  · intro i hi hused
    rw [Array.size_push] at hi
    rcases Nat.lt_succ_iff_lt_or_eq.mp hi with hi | rfl
    · exact List.mem_cons_of_mem _ (hcovers i hi hused)
    · exact List.mem_cons_self
  · simp_all [Item.isA]

theorem Group.consider_regroups {p : Piece} {ts : List Token} {left right used' : List Nat}
    (hp : Stands S [p] left) (hnodup : (left ++ right).Nodup) (h : Regroups ts right S ps used' T)
    (hlacks : Lacks d.opening (itemsOf ps)) (hready : Ready d (itemsOf ps))
    (hadj : ∀ t, p.item = .token t → t.isWord → ∀ q ∈ ps.head?, q.isBare = false)
    (hrun : (Group.consider d p.item (itemsOf ps)).run T = .ok items S') :
    ∃ qs used'', items = itemsOf qs ∧ Regroups (p.tokens ++ ts) (left ++ right) S qs used'' S' ∧
      Lacks d.opening (itemsOf qs) ∧
      ∀ k, Lacks k (p.item :: itemsOf ps) → Lacks k (itemsOf qs) := by
  by_cases hopen : p.item.isA d.opening = true
  · obtain ⟨t, ht, hkind⟩ := Item.exists_token_of_isA hopen
    obtain ⟨rfl, rfl⟩ := hp.eq_ofToken ht
    simp only [consider, Piece.ofToken, hkind, beq_self_eq_true, if_true] at hrun
    obtain ⟨qs, used'', rfl, hqs, hk⟩ := close_regroups none (by simp) hkind h hlacks hready hrun
    exact ⟨qs, used'', rfl, hqs, hk _ hlacks, fun k h => hk k (lacks_cons.mp h).2⟩
  · have hconsider : consider d p.item (itemsOf ps) = pure (itemsOf (p :: ps)) := by
      cases hi : p.item with
      | token t =>
        rw [hi] at hopen
        rw [itemsOf_cons, hi]
        exact if_neg hopen
      | group => simp only [consider, itemsOf_cons, hi]
    rw [hconsider] at hrun
    obtain ⟨rfl, rfl⟩ := run_pure_eq_ok.mp hrun
    refine ⟨p :: ps, _, rfl, h.cons hp hnodup hadj, ?_, fun k hk => hk⟩
    exact lacks_cons.mpr ⟨Bool.eq_false_iff.mpr hopen, hlacks⟩

/-- A word and a group in parentheses after it are one call, so none is left before the other. -/
theorem Group.not_isBare_of_call?_eq_none {p q : Piece} {qs : List Piece} {right used' : List Nat}
    (h : Stands S (p :: q :: ps) used) (hcall : d.call? p.item q.item = none)
    (hready : Ready d (itemsOf (q :: ps)))
    (hqs : Regroups (tokensOf (q :: ps)) right S qs used' T) :
    ∀ t, p.item = .token t → t.isWord → ∀ r ∈ qs.head?, r.isBare = false := by
  intro t ht hw r hr
  rw [← Bool.not_eq_true]
  intro hbare
  have hqt := hqs.tokens_eq
  obtain ⟨rs, rfl⟩ := List.head?_eq_some_iff.mp hr
  obtain ⟨o, os, hro, ho⟩ : ∃ o os, r.tokens = o :: os ∧ o.kind = .openParen := by
    unfold Piece.isBare at hbare
    split at hbare
    · rename_i hr
      exact ⟨_, _, hr, beq_iff_eq.mp hbare⟩
    · simp at hbare
  obtain ⟨_, _, -, hrest, rfl⟩ := h.of_cons
  have hne := hrest.tokens_ne_nil q (by simp)
  obtain ⟨o', os', hqo⟩ := List.exists_cons_of_ne_nil hne
  rw [tokensOf_cons, tokensOf_cons, hro, hqo] at hqt
  simp only [List.cons_append, List.cons.injEq] at hqt
  obtain ⟨rfl, -⟩ := hqt
  cases hi : q.item with
  | token t' =>
    obtain ⟨_, _, hq, -, rfl⟩ := hrest.of_cons
    obtain ⟨rfl, -⟩ := hq.eq_ofToken hi
    simp only [Piece.ofToken, List.cons.injEq] at hqo
    obtain ⟨rfl, -⟩ := hqo
    cases d with
    | paren => simp_all [Delimiter.call?, Piece.ofToken]
    | bracket =>
      have := (hready rfl).1
      simp_all [Piece.ofToken, Item.isA, Delimiter.opening]
  | group =>
    have := h.not_isBare ht hw q rfl
    simp_all [Piece.isBare]

theorem Delimiter.call?_eq_some {i j : Item} {call : Token × Token} (h : d.call? i j = some call) :
    d = .paren ∧ i = .token call.1 ∧ j = .token call.2 ∧ call.1.isWord ∧
      call.2.kind = .openParen := by
  unfold call? at h
  split at h
  · split at h
    · cases h
      simp_all
    · simp at h
  · simp at h

end Close

/-- A pass keeps the tokens in their order, and leaves no opening delimiter of its kind. -/
theorem Group.pass_regroups {d : Delimiter} {ps : List Piece} {used : List Nat}
    {items : List Item} {S S' : Store} (hps : Stands S ps used) (hnodup : used.Nodup)
    (hready : Ready d (itemsOf ps)) (hrun : (Group.pass d (itemsOf ps)).run S = .ok items S') :
    ∃ qs used', items = itemsOf qs ∧ Regroups (tokensOf ps) used S qs used' S' ∧
      Lacks d.opening (itemsOf qs) ∧ ∀ k, Lacks k (itemsOf ps) → Lacks k (itemsOf qs) := by
  match ps with
  | [] =>
    obtain ⟨rfl, rfl⟩ := run_pure_eq_ok.mp hrun
    exact ⟨[], used, rfl, .refl hps hnodup, by simp, fun _ h => h⟩
  | [p] =>
    have hnil : Regroups [] [] S [] [] S := .refl .nil List.nodup_nil
    simpa using consider_regroups hps (by simpa using hnodup) hnil (by simp) (fun _ => by simp)
      (by simp) hrun
  | p :: q :: rest =>
    obtain ⟨left, right, hp, hqrest, rfl⟩ := hps.of_cons
    rw [itemsOf_cons, itemsOf_cons, pass] at hrun
    cases hcall : d.call? p.item q.item with
    | some call =>
      obtain ⟨callee, opening⟩ := call
      obtain ⟨rfl, hp', hq', hword, hopening⟩ := Delimiter.call?_eq_some hcall
      obtain ⟨_, right, hq, hrest, rfl⟩ := hqrest.of_cons
      obtain ⟨rfl, rfl⟩ := hp.eq_ofToken hp'
      obtain ⟨rfl, rfl⟩ := hq.eq_ofToken hq'
      rw [hcall] at hrun
      obtain ⟨items', T, hpass, hclose⟩ := run_bind_eq_ok.mp hrun
      obtain ⟨qs, used', rfl, hqs, hlacks, hk⟩ := Group.pass_regroups hrest hnodup
        (ready_paren _) hpass
      obtain ⟨rs, used'', rfl, hrs, hk'⟩ := close_regroups (some callee)
        (by simpa using hword) hopening hqs hlacks (ready_paren _) hclose
      exact ⟨rs, used'', rfl, hrs, hk' _ hlacks, fun k h => hk' k (hk k (by simp_all))⟩
    | none =>
      rw [hcall] at hrun
      obtain ⟨items', T, hrest, hrun⟩ := run_bind_eq_ok.mp hrun
      have hright := (List.nodup_append.mp hnodup).2.1
      have hready' := hready.of_lacks fun k h => (lacks_cons.mp h).2
      obtain ⟨qs, used', rfl, hqs, hlacks, hk⟩ := Group.pass_regroups hqrest hright hready' hrest
      obtain ⟨rs, used'', rfl, hrs, hopening, hk'⟩ := consider_regroups hp hnodup hqs hlacks
        (hready'.of_lacks hk) (not_isBare_of_call?_eq_none hps hcall hready' hqs) hrun
      refine ⟨rs, used'', rfl, hrs, hopening, fun k h => hk' k ?_⟩
      exact lacks_cons.mpr ⟨(lacks_cons.mp h).1, hk k (lacks_cons.mp h).2⟩
termination_by ps.length

/-- The contents of all groups in a store have a property, as far as they were not fetched. -/
def Stored (P : List Item → Prop) (S : Store) : Prop := ∀ f ∈ S, ∀ contents ∈ f.contents, P contents

theorem Stored.push {P : List Item → Prop} {S : Store} {kind : GroupKind} {contents : List Item}
    {span : Span} (h : Stored P S) (hcontents : P contents) :
    Stored P (S.push ⟨kind, some contents, span⟩) := by
  intro f hf
  rcases Array.mem_push.mp hf with hf | rfl
  · exact h f hf
  · simpa using hcontents

/-- The contents of all groups in a store are nested. -/
abbrev Tidy : Store → Prop := Stored fun contents => nestItems? [] contents = some []

/-- What a pass leaves of items that close all that is open before them. -/
structure Leaves (opened : List Delimiter) (d : Delimiter) (items : List Item) (S : Store)
    (items' : List Item) (S' : Store) : Prop where
  nested : nestItems? opened items' = some []
  lacks : Lacks d.opening items'
  keeps : ∀ k, Lacks k items → Lacks k items'
  tidy : Tidy S → Tidy S'

section Success

variable {d : Delimiter} {opened : List Delimiter} {item : Item} {items : List Item}

/-- A delimiter that nested items follow, and that they close, finds where it is closed. -/
theorem Group.close_isOk (callee : Option Token) (opening : Token) (hlacks : Lacks d.opening items)
    (hready : Ready d items) (h : nestItems? (d :: opened) items = some []) (S : Store) :
    ∃ items' S', (Group.close d callee opening items).run S = .ok items' S' ∧
      Leaves opened d items S items' S' := by
  obtain ⟨inside, c, after, rfl, hinside, hc⟩ := exists_closing [] h
  rw [lacks_append, lacks_cons] at hlacks
  have hclosing := lacks_closing hinside (d := d) (by simp) hlacks.1
  have hready' : Ready d inside := hready.of_lacks fun k h => (lacks_append.mp h).1
  have hcross := (crossing?_eq_none_iff hlacks.1 hclosing hready').mpr hinside
  have hafter : nestItems? opened after = some [] := by
    have houter := nestItems?_outer (d :: opened) hinside
    rw [List.nil_append] at houter
    rwa [nestItems?_append, houter, Option.bind_some, nestItems?_cons, nestItem?_closing hc] at h
  refine ⟨_, _, close_eq_ok.mpr ⟨inside, c, after, rfl, hclosing, hc, hcross, rfl, rfl⟩, ?_⟩
  refine ⟨hafter, ?_, ?_, fun hS => hS.push hinside⟩
  · exact lacks_cons.mpr ⟨rfl, hlacks.2.2⟩
  · intro k hk
    simp only [lacks_append, lacks_cons] at hk
    exact lacks_cons.mpr ⟨rfl, hk.2.2⟩

theorem Group.consider_isOk (hlacks : Lacks d.opening items) (hready : Ready d items)
    (h : nestItems? opened (item :: items) = some []) (S : Store) :
    ∃ items' S', (Group.consider d item items).run S = .ok items' S' ∧
      Leaves opened d (item :: items) S items' S' := by
  by_cases hopen : item.isA d.opening = true
  · obtain ⟨t, rfl, -⟩ := Item.exists_token_of_isA hopen
    rw [nestItems?_cons, nestItem?_opening hopen] at h
    rw [show consider d (.token t) items = close d none t items from if_pos hopen]
    obtain ⟨items', S', hrun, hleaves⟩ := close_isOk none t hlacks hready h S
    refine ⟨items', S', hrun, hleaves.nested, hleaves.lacks, fun k hk => ?_, hleaves.tidy⟩
    exact hleaves.keeps k (lacks_cons.mp hk).2
  · have hconsider : consider d item items = pure (item :: items) := by
      cases item with
      | token t => exact if_neg hopen
      | group => rfl
    rw [hconsider]
    exact ⟨_, _, rfl, h, lacks_cons.mpr ⟨Bool.eq_false_iff.mpr hopen, hlacks⟩, fun _ => id, id⟩

/-- A pass goes through on what closes all that is open before it. -/
theorem Group.pass_isOk {d : Delimiter} {opened : List Delimiter} {items : List Item}
    (hready : Ready d items) (h : nestItems? opened items = some []) (S : Store) :
    ∃ items' S', (Group.pass d items).run S = .ok items' S' ∧
      Leaves opened d items S items' S' := by
  match items with
  | [] => exact ⟨_, _, rfl, h, by simp, fun _ => id, id⟩
  | [item] => exact consider_isOk (by simp) (fun _ => by simp) h S
  | item :: next :: rest =>
    rw [pass]
    cases hcall : d.call? item next with
    | some call =>
      obtain ⟨callee, opening⟩ := call
      obtain ⟨rfl, rfl, rfl, hword, hopening⟩ := Delimiter.call?_eq_some hcall
      have hrest : nestItems? (.paren :: opened) rest = some [] := by
        rwa [nestItems?_cons, nestItem?, nestStep?_other (Token.isDelimiter_of_isWord hword),
          Option.bind_some, nestItems?_cons, nestItem?, nestStep?_opening (d := .paren) hopening]
          at h
      obtain ⟨items, T, hpass, hleft⟩ := Group.pass_isOk (ready_paren _) hrest S
      obtain ⟨items', S', hclose, hleft'⟩ :=
        close_isOk (some callee) opening hleft.lacks (ready_paren _) hleft.nested T
      refine ⟨items', S', run_bind_eq_ok.mpr ⟨_, T, hpass, hclose⟩, hleft'.nested, hleft'.lacks,
        fun k hk => ?_, fun hS => hleft'.tidy (hleft.tidy hS)⟩
      exact hleft'.keeps k (hleft.keeps k (lacks_cons.mp (lacks_cons.mp hk).2).2)
    | none =>
      have hready' : Ready d (next :: rest) := hready.of_lacks fun k h => (lacks_cons.mp h).2
      rw [nestItems?_cons, Option.bind_eq_some_iff] at h
      obtain ⟨following, hstep, hrest⟩ := h
      obtain ⟨items, T, hpass, hleft⟩ := Group.pass_isOk hready' hrest S
      have hnested : nestItems? opened (item :: items) = some [] := by
        rw [nestItems?_cons, hstep]
        exact hleft.nested
      obtain ⟨items', S', hconsider, hleft'⟩ :=
        consider_isOk hleft.lacks (hready'.of_lacks hleft.keeps) hnested T
      refine ⟨items', S', run_bind_eq_ok.mpr ⟨_, T, hpass, hconsider⟩, hleft'.nested,
        hleft'.lacks, fun k hk => hleft'.keeps k ?_, fun hS => hleft'.tidy (hleft.tidy hS)⟩
      rw [lacks_cons] at hk ⊢
      exact ⟨hk.1, hleft.keeps k hk.2⟩
termination_by items.length

end Success

theorem Group.refuseStray_eq_ok {d : Delimiter} {items : List Item} {u : Unit} {S S' : Store} :
    (Group.refuseStray d items).run S = .ok u S' ↔ Lacks d.closing items ∧ S = S' := by
  unfold refuseStray
  cases hf : items.find? (·.isA d.closing) with
  | some stray =>
    have hm := List.mem_of_find?_eq_some hf
    have ht := List.find?_some hf
    refine iff_of_false run_throw_ne_ok ?_
    intro h
    simp [h.1 stray hm] at ht
  | none =>
    have hl : Lacks d.closing items := by simpa [Lacks] using hf
    exact run_pure_eq_ok.trans (by simp [hl])

/-- Extraction keeps the tokens in their order, and what it returns is flat. -/
theorem Group.extract_regroups {ps : List Piece} {used : List Nat} {items : List Item}
    {S S' : Store} (hps : Stands S ps used) (hnodup : used.Nodup)
    (hrun : (Group.extract (itemsOf ps)).run S = .ok items S') :
    ∃ qs used', items = itemsOf qs ∧ Regroups (tokensOf ps) used S qs used' S' ∧
      ∀ q ∈ qs, q.isDelimiter = false := by
  simp only [extract, run_bind_eq_ok, run_pure_eq_ok, refuseStray_eq_ok] at hrun
  obtain ⟨_, T, hparens, _, _, ⟨hstray, rfl⟩, _, T', hbrackets, _, _, ⟨hstray', rfl⟩, rfl, rfl⟩ :=
    hrun
  obtain ⟨qs, used', rfl, hqs, hlacks, -⟩ := pass_regroups hps hnodup (ready_paren _) hparens
  obtain ⟨rs, used'', rfl, hrs, hlacks', hk⟩ :=
    pass_regroups hqs.stands hqs.nodup (fun _ => ⟨hlacks, hstray⟩) hbrackets
  refine ⟨rs, used'', rfl, hqs.trans hrs, flat_of_lacks ?_⟩
  rintro (_ | _)
  · exact ⟨hk _ hlacks, hk _ hstray⟩
  · exact ⟨hlacks', hstray'⟩

/-- Extraction goes through on nested items, and so it does later on what it puts into the store. -/
theorem Group.extract_isOk {items : List Item} (h : nestItems? [] items = some []) (S : Store) :
    ∃ items' S', (Group.extract items).run S = .ok items' S' ∧ (Tidy S → Tidy S') := by
  obtain ⟨is, T, hparens, hleft⟩ := pass_isOk (ready_paren items) h S
  have hstray := lacks_closing hleft.nested (d := .paren) (by simp) hleft.lacks
  obtain ⟨js, T', hbrackets, hleft'⟩ := pass_isOk (fun _ => ⟨hleft.lacks, hstray⟩) hleft.nested T
  have hstray' := lacks_closing hleft'.nested (d := .bracket) (by simp) hleft'.lacks
  refine ⟨js, T', ?_, fun hS => hleft'.tidy (hleft.tidy hS)⟩
  simp only [extract, run_bind_eq_ok, run_pure_eq_ok, refuseStray_eq_ok]
  exact ⟨is, T, hparens, (), T, ⟨hstray, rfl⟩, js, T', hbrackets, (), T', ⟨hstray', rfl⟩, rfl, rfl⟩

end Formulary
