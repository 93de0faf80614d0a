import Formulary.Grammar.Group
import Formulary.Proofs.Grammar.Nesting
import Formulary.Proofs.Steps

/-!
What the items of a parse stand for. A piece is an item with the tokens that it replaces; those of
a placeholder are the tokens of the group that the store holds for it. A step of parsing changes
the store at the groups it was given only, and otherwise adds to it.
-/

namespace Formulary

/-- An item and the tokens that it stands for. -/
structure Piece where
  item : Item
  tokens : List Token

namespace Piece

def ofToken (t : Token) : Piece := ⟨.token t, [t]⟩

/-- Whether the piece is a group in parentheses that calls nothing. -/
def isBare (p : Piece) : Bool :=
  match p.item, p.tokens with
  | .group .., t :: _ => t.kind == .openParen
  | _, _ => false

/-- Whether the piece is a delimiter that no group was made of. -/
def isDelimiter (p : Piece) : Bool :=
  match p.item with
  | .token t => t.isDelimiter
  | .group .. => false

end Piece

/-- The tokens that all pieces together stand for. -/
def tokensOf (ps : List Piece) : List Token := ps.flatMap Piece.tokens

@[simp] theorem tokensOf_nil : tokensOf [] = [] := rfl

@[simp] theorem tokensOf_cons (p : Piece) (ps : List Piece) :
    tokensOf (p :: ps) = p.tokens ++ tokensOf ps := rfl

@[simp] theorem tokensOf_append (ps qs : List Piece) :
    tokensOf (ps ++ qs) = tokensOf ps ++ tokensOf qs := List.flatMap_append

/-- The items of the pieces, as a parse step takes them. -/
def itemsOf (ps : List Piece) : List Item := ps.map Piece.item

@[simp] theorem itemsOf_nil : itemsOf [] = [] := rfl

@[simp] theorem itemsOf_cons (p : Piece) (ps : List Piece) :
    itemsOf (p :: ps) = p.item :: itemsOf ps := rfl

@[simp] theorem itemsOf_append (ps qs : List Piece) :
    itemsOf (ps ++ qs) = itemsOf ps ++ itemsOf qs := List.map_append

/-- The store holds the groups of the pieces, at the places that are listed. Groups inside a group
count with it. -/
inductive Stands (S : Store) : List Piece → List Nat → Prop
  | nil : Stands S [] []
  | token {t : Token} {ps : List Piece} {used : List Nat} :
      (t.isWord → ∀ p ∈ ps.head?, p.isBare = false) → Stands S ps used →
      Stands S (.ofToken t :: ps) used
  | group {d : Delimiter} {callee : Option Token} {opening closing : Token} {index : Nat}
      {span area : Span} {contents ps : List Piece} {inner outer : List Nat} :
      S[index]? = some ⟨d.groupKind callee, some (itemsOf contents), area⟩ →
      (∀ t ∈ callee, d = .paren ∧ t.isWord) → opening.kind = d.opening →
      closing.kind = d.closing → Nested (tokensOf contents) → Stands S contents inner →
      Stands S ps outer →
      Stands S (⟨.group index span, callee.toList ++ opening :: (tokensOf contents ++ [closing])⟩ ::
        ps) (index :: (inner ++ outer))

namespace Stands

variable {S S' : Store} {ps qs : List Piece} {used : List Nat}

theorem congr (h : Stands S ps used) (hS : ∀ i ∈ used, S'[i]? = S[i]?) : Stands S' ps used := by
  induction h with
  | nil => exact .nil
  | token hword _ ih => exact .token hword (ih hS)
  | group hat hcallee ho hc hn _ _ ihinner ihouter =>
    simp only [List.mem_cons, List.mem_append, forall_eq_or_imp] at hS
    exact .group (hS.1.trans hat) hcallee ho hc hn (ihinner fun i hi => hS.2 i (.inl hi))
      (ihouter fun i hi => hS.2 i (.inr hi))

theorem lt_size (h : Stands S ps used) : ∀ i ∈ used, i < S.size := by
  induction h with
  | nil => simp
  | token _ _ ih => exact ih
  | group hat _ _ _ _ _ _ ihinner ihouter =>
    simp only [List.mem_cons, List.mem_append]
    rintro i (rfl | hi | hi)
    · exact (Array.getElem?_eq_some_iff.mp hat).1
    · exact ihinner i hi
    · exact ihouter i hi

/-- Pieces in a row hold apart what they use. -/
theorem of_append (h : Stands S (ps ++ qs) used) :
    ∃ left right, Stands S ps left ∧ Stands S qs right ∧ used = left ++ right := by
  induction ps generalizing used with
  | nil => exact ⟨[], used, .nil, h, rfl⟩
  | cons p ps ih =>
    rw [List.cons_append] at h
    cases h with
    | token hword h =>
      obtain ⟨left, right, hps, hqs, rfl⟩ := ih h
      refine ⟨left, right, .token (fun hw p hp => hword hw p ?_) hps, hqs, rfl⟩
      cases ps with
      | nil => simp at hp
      | cons => exact hp
    | group hat hcallee ho hc hn hinner h =>
      obtain ⟨left, right, hps, hqs, rfl⟩ := ih h
      exact ⟨_, right, .group hat hcallee ho hc hn hinner hps, hqs, by simp⟩

theorem of_cons {p : Piece} (h : Stands S (p :: ps) used) :
    ∃ left right, Stands S [p] left ∧ Stands S ps right ∧ used = left ++ right :=
  of_append (show Stands S ([p] ++ ps) used from h)

theorem eq_ofToken {p : Piece} {t : Token} (h : Stands S [p] used) (ht : p.item = .token t) :
    p = .ofToken t ∧ used = [] := by
  cases h with
  | token _ h =>
    cases ht
    cases h
    exact ⟨rfl, rfl⟩
  | group => simp at ht

/-- What may be called is not left beside the group that it calls. -/
theorem not_isBare {p : Piece} {t : Token} (h : Stands S (p :: ps) used) (ht : p.item = .token t)
    (hw : t.isWord) : ∀ q ∈ ps.head?, q.isBare = false := by
  cases h with
  | token hword =>
    cases ht
    exact hword hw
  | group => simp at ht

theorem cons {p : Piece} {left right : List Nat} (hp : Stands S [p] left) (hps : Stands S ps right)
    (hadj : ∀ t, p.item = .token t → t.isWord → ∀ q ∈ ps.head?, q.isBare = false) :
    Stands S (p :: ps) (left ++ right) := by
  cases hp with
  | token _ h =>
    cases h
    exact .token (hadj _ rfl) hps
  | group hat hcallee ho hc hn hinner h =>
    cases h
    simpa using Stands.group hat hcallee ho hc hn hinner hps

/-- Tokens that nothing was taken out of yet. -/
theorem ofTokens (S : Store) (ts : List Token) : Stands S (ts.map .ofToken) [] := by
  induction ts with
  | nil => exact .nil
  | cons t ts ih =>
    refine .token ?_ ih
    intro _ p hp
    cases ts with
    | nil => simp at hp
    | cons =>
      cases hp
      rfl

theorem tokens_ne_nil (h : Stands S ps used) : ∀ p ∈ ps, p.tokens ≠ [] := by
  induction h with
  | nil => simp
  | token _ _ ih =>
    rintro p (_ | ⟨_, hp⟩)
    · simp [Piece.ofToken]
    · exact ih p hp
  | group _ _ _ _ _ _ _ _ ih =>
    rintro p (_ | ⟨_, hp⟩)
    · simp
    · exact ih p hp

/-- Pieces that are no delimiters are nested: a group is as a whole. -/
theorem nested (h : Stands S ps used) (hps : ∀ p ∈ ps, p.isDelimiter = false) :
    Nested (tokensOf ps) := by
  induction h with
  | nil => rfl
  | token _ _ ih =>
    simp only [List.mem_cons, forall_eq_or_imp] at hps
    exact (nested_cons hps.1).mpr (ih hps.2)
  | group _ hcallee ho hc hn _ _ _ ih =>
    simp only [List.mem_cons, forall_eq_or_imp] at hps
    exact (hn.call _ (fun t ht => (hcallee t ht).2) ho hc).append (ih hps.2)

end Stands

@[simp] theorem tokensOf_ofToken (ts : List Token) : tokensOf (ts.map .ofToken) = ts := by
  induction ts with
  | nil => rfl
  | cons t ts ih => simp [Piece.ofToken, ih]

/-- A step of parsing that takes the groups at the listed places, and no others. -/
structure Keeps (used : List Nat) (S S' : Store) : Prop where
  size_le : S.size ≤ S'.size
  getElem?_eq : ∀ i < S.size, i ∉ used → S'[i]? = S[i]?

namespace Keeps

variable {S S' S'' : Store} {ps : List Piece} {used others : List Nat}

theorem refl (used : List Nat) (S : Store) : Keeps used S S := ⟨Nat.le_refl _, fun _ _ _ => rfl⟩

/-- Steps in a row; the second takes of the groups stored before them only what it may. -/
theorem trans (h : Keeps used S S') (h' : Keeps others S' S'')
    (ho : ∀ i ∈ others, i ∈ used ∨ S.size ≤ i) : Keeps used S S'' := by
  refine ⟨Nat.le_trans h.size_le h'.size_le, ?_⟩
  intro i hi hu
  rw [h'.getElem?_eq i (Nat.lt_of_lt_of_le hi h.size_le), h.getElem?_eq i hi hu]
  intro hm
  rcases ho i hm with hm | hm
  · exact hu hm
  · omega

theorem mono (h : Keeps used S S') (hs : used ⊆ others) : Keeps others S S' :=
  ⟨h.size_le, fun i hi hu => h.getElem?_eq i hi fun hm => hu (hs hm)⟩

theorem push (S : Store) (f : Fragment) : Keeps [] S (S.push f) := by
  refine ⟨by simp, ?_⟩
  intro i hi _
  rw [Array.getElem?_push, if_neg (by omega)]

theorem setIfInBounds (S : Store) (index : Nat) (f : Fragment) :
    Keeps [index] S (S.setIfInBounds index f) := by
  refine ⟨by simp, ?_⟩
  intro i _ hi
  rw [Array.getElem?_setIfInBounds_ne]
  rintro rfl
  simp at hi

/-- Other groups stay what they are. -/
theorem stands (h : Keeps used S S') (hps : Stands S ps others) (hd : ∀ i ∈ others, i ∉ used) :
    Stands S' ps others :=
  hps.congr fun i hi => h.getElem?_eq i (hps.lt_size i hi) (hd i hi)

end Keeps

theorem Stands.setIfInBounds {S : Store} {ps : List Piece} {used : List Nat} {index : Nat}
    (h : Stands S ps used) (hindex : index ∉ used) (f : Fragment) :
    Stands (S.setIfInBounds index f) ps used := by
  refine (Keeps.setIfInBounds S index f).stands h ?_
  intro i hi hmem
  rw [List.mem_singleton.mp hmem] at hi
  exact hindex hi

end Formulary
