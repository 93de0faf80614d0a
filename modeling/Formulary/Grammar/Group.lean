import Formulary.Token
import Formulary.Grammar.Problem

/-!
Taking groups out of a token list. Every `(...)` and `[...]` is moved to a store of fragments and
leaves one placeholder behind, so that what remains is flat. Parentheses go first, from the right;
what stays between two of them keeps its brackets until it is opened itself.
-/

namespace Formulary

/-- A token, or the placeholder of a group in the store. -/
inductive Item
  | token (t : Token)
  | group (index : Nat) (span : Span)
  deriving DecidableEq, Repr

inductive GroupKind
  | paren
  | bracket
  | call (name : String)
  deriving DecidableEq, Repr

/-- A group that was taken out: what stands between its delimiters, until it is fetched, and the
region from its callee or delimiter to its end. -/
structure Fragment where
  kind : GroupKind
  contents : Option (List Item)
  span : Span
  deriving DecidableEq, Repr

abbrev Store := Array Fragment

/-- A step of parsing: it may fail, and keeps what was stored before it failed. -/
abbrev Parser := EStateM ParseError Store

namespace Item

def span : Item → Span
  | token t => t.span
  | group _ s => s

/-- Whether the item is a token of a given kind. -/
def isA (kind : TokenKind) : Item → Bool
  | token t => t.kind == kind
  | group .. => false

def operator? : Item → Option Level
  | token t => t.operator?
  | group .. => none

end Item

namespace Delimiter

def opening : Delimiter → TokenKind
  | paren => .openParen
  | bracket => .openBracket

def closing : Delimiter → TokenKind
  | paren => .closeParen
  | bracket => .closeBracket

/-- The callee and the delimiter of a call, if two items start one. Brackets make no calls. -/
def call? : Delimiter → Item → Item → Option (Token × Token)
  | paren, .token callee, .token delimiter =>
    if callee.isWord && delimiter.kind == .openParen then some (callee, delimiter) else none
  | _, _, _ => none

def groupKind (d : Delimiter) (callee : Option Token) : GroupKind :=
  match d, callee with
  | bracket, _ => .bracket
  | paren, none => .paren
  | paren, some t => .call t.lexeme

end Delimiter

namespace Group

/-- The first bracket that closes nothing, or else the last one that is left open. -/
def strayBracket? (opened : List Span) : List Item → Option Span
  | [] => opened.head?
  | item :: rest =>
    if item.isA .openBracket then strayBracket? (item.span :: opened) rest
    else if item.isA .closeBracket then
      match opened with
      | [] => some item.span
      | _ :: opened => strayBracket? opened rest
    else strayBracket? opened rest

/-- The delimiter that a group with these contents crosses. Brackets are taken out when no
parentheses are left to cross. -/
def crossing? (d : Delimiter) (inside : List Item) : Option Span :=
  match d with
  | .paren => strayBracket? [] inside
  | .bracket => none

/-- Stores a group, and leaves its placeholder. -/
def store (kind : GroupKind) (inside : List Item) (span : Span) : Parser Item := fun fragments =>
  .ok (.group fragments.size span) (fragments.push ⟨kind, some inside, span⟩)

/-- Closes the group that `delimiter` opens at the first closing delimiter of `rest`. -/
def close (d : Delimiter) (callee : Option Token) (delimiter : Token) (rest : List Item) :
    Parser (List Item) :=
  match rest.span (!·.isA d.closing) with
  | (_, []) => throw ⟨.unclosedGroup true d, [delimiter.span]⟩
  | (inside, closing :: after) =>
    match crossing? d inside with
    | some stray => throw ⟨.mismatchedGroup, [delimiter.span.upTo closing.span, stray]⟩
    | none => do
      let span := (callee.getD delimiter).span.upTo closing.span
      let placeholder ← store (d.groupKind callee) inside span
      return placeholder :: after

/-- Puts an item before items that hold no group any more, closing the group it may open. -/
def consider (d : Delimiter) (item : Item) (rest : List Item) : Parser (List Item) :=
  match item with
  | .token t => if t.kind == d.opening then close d none t rest else pure (item :: rest)
  | .group .. => pure (item :: rest)

/-- Takes out the groups of one kind of delimiter, the rightmost first. -/
def pass (d : Delimiter) : List Item → Parser (List Item)
  | [] => pure []
  | [item] => consider d item []
  | item :: next :: rest =>
    match d.call? item next with
    | some (callee, delimiter) => do close d (some callee) delimiter (← pass d rest)
    | none => do consider d item (← pass d (next :: rest))

/-- Fails at the first closing delimiter. -/
def refuseStray (d : Delimiter) (items : List Item) : Parser Unit :=
  match items.find? (·.isA d.closing) with
  | some stray => throw ⟨.unclosedGroup false d, [stray.span]⟩
  | none => pure ()

/-- Takes out all groups, and returns the flat rest. -/
def extract (items : List Item) : Parser (List Item) := do
  let items ← pass .paren items
  refuseStray .paren items
  let items ← pass .bracket items
  refuseStray .bracket items
  return items

/-- The kind and the contents of a stored group. Contents are fetched once only. -/
def fetch (index : Nat) : Parser (GroupKind × List Item) := fun fragments =>
  match fragments[index]? with
  | none => .error ⟨.stuck (.noFragment index), []⟩ fragments
  | some ⟨_, none, _⟩ => .error ⟨.stuck (.fragmentTaken index), []⟩ fragments
  | some ⟨kind, some items, span⟩ =>
    .ok (kind, items) (fragments.setIfInBounds index ⟨kind, none, span⟩)

end Group

end Formulary
