import Formulary.Grammar.Parser

/-!
The grammar of expressions, apart from any way of reading: which token lists are phrases of which
sort, and the tree that a phrase has. Operators fold to the left, and a sign reaches as far as the
level it stands at.
-/

namespace Formulary

/-- The sorts of phrases. -/
inductive Phrase
  /-- What no operator weaker than the level cuts. -/
  | plain (level : Level)
  /-- Two or more elements with commas between them. -/
  | elements
  /-- A plain phrase with any signs before it. -/
  | signed (level : Level)
  deriving DecidableEq, Repr

namespace Phrase

/-- What stands to the right of an operator of the level. -/
def right : Level → Phrase
  | .equality => .plain .sequence
  | .sequence => .plain .addition
  | .addition => .plain .subtraction
  | .subtraction => .signed .division
  | .division => .signed .multiplication
  | .multiplication => .signed .power
  | .power => .signed .root
  | .root | .atom => .signed .atom

/-- What a plain phrase of the level is if no operator of the level cuts it. -/
def inner : Level → Phrase
  | .equality => .plain .sequence
  | .sequence => .plain .addition
  | .addition => .plain .subtraction
  | .subtraction => .signed .division
  | .division => .plain .multiplication
  | .multiplication => .plain .power
  | .power => .plain .root
  | .root | .atom => .plain .atom

end Phrase

/-- The arguments that stand between the parentheses of a call: those of a bare sequence, or one. -/
def Expr.arguments : Expr → List Expr
  | .nary .sequence es => es
  | e => [e]

/-- The token lists of each sort of phrase, and their trees. -/
inductive Derives : Phrase → List Token → Expr → Prop
  | operation {level : Level} {kind : BinaryKind} {op : Token} {ts us : List Token} {l r : Expr} :
      level.binary? = some kind → op.operator? = some level → Derives (.plain level) ts l →
      Derives (.right level) us r → Derives (.plain level) (ts ++ op :: us) (.binaryOf kind l r)
  | pair {comma : Token} {ts us : List Token} {l r : Expr} :
      comma.operator? = some .sequence → Derives (.plain .addition) ts l →
      Derives (.plain .addition) us r →
      Derives .elements (ts ++ comma :: us) (.nary .sequence [l, r])
  | more {comma : Token} {ts us : List Token} {es : List Expr} {r : Expr} :
      comma.operator? = some .sequence → Derives .elements ts (.nary .sequence es) →
      Derives (.plain .addition) us r →
      Derives .elements (ts ++ comma :: us) (.nary .sequence (es ++ [r]))
  | elements {ts : List Token} {e : Expr} :
      Derives .elements ts e → Derives (.plain .sequence) ts e
  | inner {level : Level} {ts : List Token} {e : Expr} :
      level ≠ .atom → Derives (.inner level) ts e → Derives (.plain level) ts e
  | sign {kind : BinaryKind} {level : Level} {op : Token} {ts : List Token} {e : Expr} :
      kind = .addition ∨ kind = .subtraction → op.operator? = some kind.level →
      Derives (.signed level) ts e → Derives (.signed level) (op :: ts) (.signed kind e)
  | unsigned {level : Level} {ts : List Token} {e : Expr} :
      Derives (.plain level) ts e → Derives (.signed level) ts e
  | int {t : Token} :
      t.kind = .int → Derives (.plain .atom) [t] (.number (Decimal.read t.lexeme))
  | name {t : Token} : t.isWord → Derives (.plain .atom) [t] (.named t.lexeme)
  | paren {opening closing : Token} {ts : List Token} {e : Expr} :
      opening.kind = .openParen → closing.kind = .closeParen → Derives (.plain .equality) ts e →
      Derives (.plain .atom) (opening :: (ts ++ [closing])) (.unary .paren e)
  | bracket {opening closing : Token} {ts : List Token} {e : Expr} :
      opening.kind = .openBracket → closing.kind = .closeBracket →
      Derives (.plain .equality) ts e →
      Derives (.plain .atom) (opening :: (ts ++ [closing])) (.unary .bracket e)
  | thunk {callee opening closing : Token} :
      callee.isWord → opening.kind = .openParen → closing.kind = .closeParen →
      Derives (.plain .atom) [callee, opening, closing] (.call callee.lexeme [])
  | call {callee opening closing : Token} {ts : List Token} {e : Expr} :
      callee.isWord → opening.kind = .openParen → closing.kind = .closeParen →
      Derives (.plain .equality) ts e →
      Derives (.plain .atom) (callee :: opening :: (ts ++ [closing]))
        (.call callee.lexeme e.arguments)

namespace Derives

theorem ne_nil {p : Phrase} {ts : List Token} {e : Expr} (h : Derives p ts e) : ts ≠ [] := by
  induction h with
  | elements _ ih | inner _ _ ih | unsigned _ ih => exact ih
  | _ => simp

/-- The tokens that make up phrases. -/
theorem kind_ne {p : Phrase} {ts : List Token} {e : Expr} (h : Derives p ts e) :
    ∀ t ∈ ts, t.kind ≠ .other ∧ t.kind ≠ .decimal := by
  have operator {t : Token} {level : Level} (ht : t.operator? = some level) :
      t.kind ≠ .other ∧ t.kind ≠ .decimal := by
    constructor <;> intro hk <;> simp [Token.operator?, hk] at ht
  have word {t : Token} (ht : t.isWord) : t.kind ≠ .other ∧ t.kind ≠ .decimal := by
    constructor <;> intro hk <;> simp [Token.isWord, hk] at ht
  induction h with
  | operation _ hop _ _ ihl ihr | pair hop _ _ ihl ihr | more hop _ _ ihl ihr =>
    simp only [List.mem_append, List.mem_cons]
    rintro t (ht | rfl | ht)
    · exact ihl t ht
    · exact operator hop
    · exact ihr t ht
  | elements _ ih | inner _ _ ih | unsigned _ ih => exact ih
  | sign _ hop _ ih =>
    rintro t (_ | ⟨_, ht⟩)
    · exact operator hop
    · exact ih t ht
  | int ht => simp [ht]
  | name ht => simpa using word ht
  | paren ho hc _ ih | bracket ho hc _ ih =>
    simp only [List.mem_cons, List.mem_append, List.not_mem_nil, or_false]
    rintro t (rfl | ht | rfl)
    · simp [ho]
    · exact ih t ht
    · simp [hc]
  | thunk hf ho hc => simpa [ho, hc] using word hf
  | call hf ho hc _ ih =>
    simp only [List.mem_cons, List.mem_append, List.not_mem_nil, or_false]
    rintro t (rfl | rfl | ht | rfl)
    · exact word hf
    · simp [ho]
    · exact ih t ht
    · simp [hc]

end Derives

end Formulary
