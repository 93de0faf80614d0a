import Formulary.Expr.Equality
import Formulary.Expr.Walk
import Formulary.Grammar.Parser
import Formulary.Render.Tex
import Formulary.Session.Command
import Formulary.Zone.Formula

/-!
Sessions: named values that stay from line to line, and what is answered to each line.
-/

namespace Formulary

inductive SessionError
  | parse (source : String) (error : ParseError)
  | zone (error : ZoneError)
  | notAName (target : String)
  deriving DecidableEq, Repr

/-- The line that reports an error. -/
def SessionError.line : SessionError → String
  | parse _ e => "Error: " ++ e.message
  | zone e => "error: " ++ e.message
  | notAName target => s!"error: cannot bind to `{target}`, which is not a name"

/-- The named values of a session. -/
structure Session where
  env : Environment

/-- A step that may change the values of a session, and may fail after having changed them. -/
abbrev SessionM := EStateM SessionError Session

namespace Session

def start : Session := ⟨.withConstants⟩

def read (source : String) : SessionM Expr :=
  match parse source with
  | .ok e => pure e
  | .error e => throw (.parse source e)

def liftZone {α : Type} : Except ZoneError α → SessionM α
  | .ok a => pure a
  | .error e => throw (.zone e)

/-- Says that a name has no value, and which similar names there are. -/
def unknownName (env : Environment) (name : String) : String :=
  let note := s!"note: `{name}` has no value"
  match env.similarNames name with
  | [] => note
  | names =>
    note ++ "; did you mean " ++ String.intercalate ", " (names.map fun n => "`" ++ n ++ "`") ++ "?"

def equation (name : String) (value : Expr) : String := name ++ " = " ++ value.text

/-- Binds a name to the value that an expression has now. -/
def assign (name expr : String) : SessionM String := do
  let target ← read name
  match target.symbolName? with
  | none => throw (.notAName name)
  | some _ =>
    let e ← read expr
    let s ← get
    let value := e.compute s.env
    set (⟨s.env.insert name value⟩ : Session)
    return equation name value

def retract (name : String) : SessionM String := do
  let s ← get
  match s.env[name]? with
  | some value =>
    set (⟨s.env.erase name⟩ : Session)
    return name ++ " was " ++ value.text
  | none => return unknownName s.env name

def tex (expr : String) : SessionM String := do
  let e ← read expr
  return e.tex

def convert (expr : String) : SessionM String := do
  let e ← read expr
  let s ← get
  return (e.converting s.env).text

/-- The distinct nodes of an expression, one a line. -/
def unique (expr : String) : SessionM String := do
  let e ← read expr
  let f ← liftZone (Formula.ofExpr e)
  let nodes := e.nodeCount
  let records := f.zone.size
  let root := f.root.text
  let lines ← (List.range records).mapM fun i => do
    let node ← liftZone (f.zone.toExpr ⟨i⟩)
    return (⟨i⟩ : NodeId).text ++ " " ++ node.text
  return String.intercalate "\n" (s!"{nodes} node(s) in {records} record(s), root {root}" :: lines)

def vars : SessionM String := do
  let s ← get
  return String.intercalate "\n" (s.env.toList.map fun (name, value) => equation name value)

/-- An expression, what it computes to if that is another, and a note for each name left over. -/
def evaluate (expr : String) : SessionM String := do
  let e ← read expr
  let s ← get
  let computed := e.compute s.env
  let result := if computed.equal e then e.text else e.text ++ " = " ++ computed.text
  return String.intercalate "\n" (result :: computed.names.map (unknownName s.env))

/-- Answers a command. -/
def run : Command → SessionM String
  | .assign name expr => assign name expr
  | .retract name => retract name
  | .tex expr => tex expr
  | .convert expr => convert expr
  | .unique expr => unique expr
  | .vars => vars
  | .evaluate expr => evaluate expr

/-- The answer to a line, and the session that it leaves. -/
def handle (s : Session) (line : String) : Except SessionError String × Session :=
  match (run (.ofLine line)).run s with
  | .ok out s => (.ok out, s)
  | .error e s => (.error e, s)

/-- The answers to lines, in order. -/
def handleAll (s : Session) : List String → List (Except SessionError String)
  | [] => []
  | line :: lines =>
    let (out, s) := s.handle line
    out :: s.handleAll lines

end Session

end Formulary
