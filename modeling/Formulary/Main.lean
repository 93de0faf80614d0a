import Formulary.Session.Script

/-!
The command line: runs the file that it is given, or else its standard input.
-/

/-- Reads a stream to its end. -/
partial def readAll (stream : IO.FS.Stream) (text : String) : IO String := do
  let line ← stream.getLine
  if line.isEmpty then return text else readAll stream (text ++ line)

def main (args : List String) : IO Unit := do
  let input ←
    match args with
    | file :: _ => IO.FS.readFile file
    | [] => readAll (← IO.getStdin) ""
  let transcript := Formulary.Transcript.ofScript input
  IO.print transcript.output
  for line in transcript.errors do
    IO.eprintln line
