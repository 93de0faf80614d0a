import Formulary.Session.Basic

/-!
Running a whole text as a session.
-/

namespace Formulary

/-- What a script printed, and one line for each line of it that failed. -/
structure Transcript where
  output : String
  errors : List String
  deriving DecidableEq, Repr

namespace Transcript

def ofAnswers : List (Except SessionError String) → Transcript
  | [] => ⟨"", []⟩
  | .ok out :: rest =>
    let t := ofAnswers rest
    if out.isEmpty then t else { t with output := out ++ "\n" ++ t.output }
  | .error e :: rest =>
    let t := ofAnswers rest
    { t with errors := e.line :: t.errors }

/-- Runs the lines of a text in a new session. Blank lines are passed over. -/
def ofScript (input : String) : Transcript :=
  let lines := (Line.split input).filter fun line => !Line.isBlank line.toList
  ofAnswers (Session.start.handleAll lines)

end Transcript

end Formulary
