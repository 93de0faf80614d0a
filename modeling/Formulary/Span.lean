/-!
Regions of a text, measured in UTF-8 bytes, and the text they cover.
-/

namespace Formulary

/-- A region of a text; `stop` is the byte after its last one. -/
structure Span where
  start : Nat
  stop : Nat
  deriving DecidableEq, Repr, Inhabited

namespace Span

/-- The smallest region that covers both ends. -/
def upTo (first last : Span) : Span := ⟨first.start, last.stop⟩

end Span

/-- The number of bytes that a list of characters takes. -/
def byteLength : List Char → Nat
  | [] => 0
  | c :: cs => c.utf8Size + byteLength cs

/-- The characters that start at byte `n` or later, if `n` lies between two characters. -/
def dropBytes : Nat → List Char → Option (List Char)
  | 0, cs => some cs
  | _ + 1, [] => none
  | n + 1, c :: cs => if c.utf8Size ≤ n + 1 then dropBytes (n + 1 - c.utf8Size) cs else none

/-- The characters of the first `n` bytes, if `n` lies between two characters. -/
def takeBytes : Nat → List Char → Option (List Char)
  | 0, _ => some []
  | _ + 1, [] => none
  | n + 1, c :: cs =>
    if c.utf8Size ≤ n + 1 then (takeBytes (n + 1 - c.utf8Size) cs).map (c :: ·) else none

/-- The text a region covers, or the empty text if it cuts a character or leaves the source. -/
def Span.text (source : String) (span : Span) : String :=
  if span.start ≤ span.stop then
    match (dropBytes span.start source.toList).bind (takeBytes (span.stop - span.start)) with
    | some cs => String.ofList cs
    | none => ""
  else ""

end Formulary
