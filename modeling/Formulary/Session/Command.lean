import Formulary.Session.Line

/-!
What a line of a session asks for. A line that starts with no keyword is an expression, so keywords
can still be used as names.
-/

namespace Formulary

inductive Command
  /-- Binds a name to the value of an expression. -/
  | assign (name expr : String)
  | retract (name : String)
  | tex (expr : String)
  | convert (expr : String)
  | unique (expr : String)
  | vars
  | evaluate (expr : String)
  deriving DecidableEq, Repr

namespace Command

/-- The trimmed rest of a line that starts with a keyword and white space. -/
def afterKeyword? (keyword : String) (line : List Char) : Option (List Char) :=
  if keyword.toList.isPrefixOf line then
    match line.drop keyword.toList.length with
    | c :: rest => if isWhiteSpace c then some (Line.trim (c :: rest)) else none
    | [] => none
  else none

/-- The two trimmed sides of the first equals sign, if there is one. -/
def atEquals? (cs : List Char) : Option (String × String) :=
  match cs.span (· != '=') with
  | (name, _ :: expr) => some (String.ofList (Line.trim name), String.ofList (Line.trim expr))
  | (_, []) => none

/-- A command of one argument, if a line starts with its keyword. -/
def simple? (line : List Char) (keyword : String) (command : String → Command) : Option Command :=
  (afterKeyword? keyword line).map fun rest => command (String.ofList rest)

def ofLine (line : String) : Command :=
  let line := Line.trim line.toList
  if line = "vars".toList then .vars
  else
    match (afterKeyword? "let" line).bind atEquals? with
    | some (name, expr) => .assign name expr
    | none =>
      let choices :=
        [simple? line "unlet" .retract, simple? line "tex" .tex, simple? line "convert" .convert,
          simple? line "unique" .unique]
      (choices.findSome? id).getD (.evaluate (String.ofList line))

end Command

end Formulary
