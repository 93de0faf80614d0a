/-!
Lines of input: cutting a text into lines, and trimming white space around them.
-/

namespace Formulary

/-- The characters that Unicode counts as white space. -/
def isWhiteSpace (c : Char) : Bool :=
  let n := c.toNat
  (0x09 ≤ n && n ≤ 0x0d) || n == 0x20 || n == 0x85 || n == 0xa0 || n == 0x1680 ||
    (0x2000 ≤ n && n ≤ 0x200a) || n == 0x2028 || n == 0x2029 || n == 0x202f || n == 0x205f ||
    n == 0x3000

namespace Line

def trimLeft (cs : List Char) : List Char := cs.dropWhile isWhiteSpace

def trim (cs : List Char) : List Char := (trimLeft (trimLeft cs).reverse).reverse

def isBlank (cs : List Char) : Bool := cs.all isWhiteSpace

/-- The lines of a text, after the characters of a line already read, the last one first. A line
ends at a line feed, with the carriage return that may stand before it. -/
def splitFrom (read : List Char) : List Char → List (List Char)
  | [] => if read.isEmpty then [] else [read.reverse]
  | c :: rest =>
    if c = '\n' then
      let line :=
        match read with
        | '\r' :: read => read
        | _ => read
      line.reverse :: splitFrom [] rest
    else splitFrom (c :: read) rest

def split (text : String) : List String := (splitFrom [] text.toList).map String.ofList

end Line

end Formulary
