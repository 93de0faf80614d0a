import Formulary.Proofs.Session.Handling
import Formulary.Session.Script

/-!
What the lines of a session do to each other. A line changes the values only if it binds or unbinds
a name and succeeds, and then this one value only; so the others can be left out, and nobody
notices.
-/

namespace Formulary

/-- What is left of a list without the elements that are marked by `false`. -/
def select {α : Type} : List Bool → List α → List α
  | [], xs => xs
  | _ :: _, [] => []
  | true :: keep, x :: xs => x :: select keep xs
  | false :: keep, _ :: xs => select keep xs

/-- The session after lines, whatever becomes of them. -/
def Session.after (s : Session) (lines : List String) : Session :=
  lines.foldl (fun s line => (s.handle line).2) s

/-- Whether the lines of a run that are marked by `false` fail, or do not bind or unbind a name. -/
def Session.Idle (s : Session) (lines : List String) (keep : List Bool) : Prop :=
  ∀ (i : Nat) line (out : Except SessionError String), keep[i]? = some false →
    lines[i]? = some line → (s.handleAll lines)[i]? = some out →
    (∃ err, out = .error err) ∨ (Command.ofLine line).isBinding = false

/-- The lines of a text that are not blank. -/
def scriptLines (input : String) : List String :=
  (Line.split input).filter fun line => !Line.isBlank line.toList

/-- Whether a text is one token to the lexer, blanks included, and this is a name. -/
def IsNameToken (name : String) : Prop :=
  rawTokens name = [⟨.name, name, ⟨0, byteLength name.toList⟩⟩] ∧ name ≠ rootName

instance (name : String) : Decidable (IsNameToken name) := inferInstanceAs (Decidable (_ ∧ _))

section Runs

variable {s : Session} {lines : List String} {keep : List Bool} {name : String}

theorem isNameToken_of_mem_start : ∀ k ∈ Session.start.env, IsNameToken k := by
  intro k hk
  simp only [Session.start, Environment.withConstants, constants, List.foldl_cons, List.foldl_nil,
    Std.ExtTreeMap.mem_insert, Std.LawfulEqCmp.compare_eq_iff_eq, Std.ExtTreeMap.not_mem_empty,
    or_false] at hk
  rcases hk with rfl | rfl | rfl | rfl <;> decide +kernel

/-- Only names have values. -/
theorem Session.isNameToken_after (h : ∀ k ∈ s.env, IsNameToken k) :
    ∀ k ∈ (s.after lines).env, IsNameToken k := by
  induction lines generalizing s with
  | nil => exact h
  | cons line lines ih =>
    refine ih fun k hk => ?_
    rcases mem_handle hk with hk | ⟨expr, hcommand, target, n, htarget, hn⟩
    · exact h k hk
    · obtain ⟨t, htokens, ht⟩ := ((parse_iff_derives k target).mp htarget).exists_word hn
      exact rawTokens_of_word (Command.trimmed_of_ofLine hcommand) htokens ht

theorem Session.handleAll_cons (s : Session) (line : String) (lines : List String) :
    s.handleAll (line :: lines) = (s.handle line).1 :: (s.handle line).2.handleAll lines :=
  rfl

/-- Lines that fail, or that do not bind or unbind a name, can be left out of a run. -/
theorem Session.handleAll_select (h : s.Idle lines keep) :
    s.handleAll (select keep lines) = select keep (s.handleAll lines) := by
  induction lines generalizing s keep with
  | nil => cases keep <;> rfl
  | cons line lines ih =>
    cases keep with
    | nil => rfl
    | cons flag keep =>
      have htail : (s.handle line).2.handleAll (select keep lines) =
          select keep ((s.handle line).2.handleAll lines) :=
        ih fun i line' out => h (i + 1) line' out
      cases flag with
      | true =>
        rw [select, handleAll_cons, handleAll_cons, select, htail]
      | false =>
        have hline : (s.handle line).2 = s := by
          rcases h 0 line (s.handle line).1 rfl rfl rfl with ⟨err, herr⟩ | hbinding
          · exact handle_snd_of_error herr
          · exact handle_snd_of_not_isBinding hbinding
        rw [hline] at htail
        rw [select, htail, handleAll_cons, select, hline]

/-- What lines change in a session, and which of them can be left out of a run. -/
structure Session.Isolated (s : Session) : Prop where
  /-- A line that fails, or that does not bind or unbind a name, changes nothing. -/
  unchanged : ∀ line, (∃ err, (s.handle line).1 = .error err) ∨
    (Command.ofLine line).isBinding = false → (s.handle line).2 = s
  /-- Binding gives one name a value: what the expression computed to before. -/
  assigned : ∀ line name expr out, Command.ofLine line = .assign name expr →
    (s.handle line).1 = .ok out →
      ∃ e, parse expr = .ok e ∧ ∀ k : String, (s.handle line).2.env[k]? =
        if k = name then some (e.compute s.env) else s.env[k]?
  retracted : ∀ line name, Command.ofLine line = .retract name →
    ∀ k : String, (s.handle line).2.env[k]? = if k = name then none else s.env[k]?
  /-- Without lines of the first sort, all others are answered as they were. -/
  omitted : ∀ lines keep, s.Idle lines keep →
    s.handleAll (select keep lines) = select keep (s.handleAll lines)

theorem Session.isolated (s : Session) : s.Isolated where
  unchanged line := by
    rintro (⟨err, herr⟩ | hbinding)
    · exact handle_snd_of_error herr
    · exact handle_snd_of_not_isBinding hbinding
  assigned line name expr out hcommand hok := by
    obtain ⟨-, -, e, -, -, hvalue, henv⟩ := handle_assign hcommand hok
    refine ⟨e, hvalue, fun k => ?_⟩
    simp [henv, Std.ExtTreeMap.getElem?_insert, @eq_comm _ k]
  retracted _ _ := getElem?_handle_retract
  omitted _ _ := handleAll_select

/-- Whatever the lines of a session are, only names have values in it, and lines that change nothing
can be left out of a run or of a script. -/
theorem session_isolated :
    (∀ lines, ∀ name ∈ (Session.start.after lines).env, IsNameToken name) ∧
    (∀ s : Session, s.Isolated) ∧
    ∀ (input input' : String) (keep : List Bool), Session.start.Idle (scriptLines input) keep →
      scriptLines input' = select keep (scriptLines input) →
        Transcript.ofScript input' =
          .ofAnswers (select keep (Session.start.handleAll (scriptLines input))) := by
  refine ⟨fun lines => Session.isNameToken_after isNameToken_of_mem_start, Session.isolated, ?_⟩
  intro input input' keep hidle hlines
  rw [← Session.handleAll_select hidle, ← hlines]
  rfl

/-- The second line is no name to bind, and the third one binds none. -/
theorem session_isolated_script :
    let lines := ["let x = a", "let (y) = a", "tex x", "x"]
    let answers := Session.start.handleAll lines
    Session.start.handleAll ["let x = a", "x"] = select [true, false, false, true] answers ∧
      Transcript.ofScript "let x = a\n\nx\n" =
        .ofAnswers (select [true, false, false, true] answers) := by
  intro lines answers
  obtain ⟨-, hisolated, hscript⟩ := session_isolated
  have hidle : Session.start.Idle lines [true, false, false, true] := by
    intro i line out hkeep hline hout
    match i with
    | 0 | 3 => cases hkeep
    | 1 =>
      have herror : answers[1]? = some (.error (.notAName "(y)")) := by decide +kernel
      exact .inl ⟨_, Option.some.inj (hout.symm.trans herror)⟩
    | 2 =>
      obtain rfl := Option.some.inj hline
      exact .inr (by decide +kernel)
    | _ + 4 => cases hkeep
  have hlines : scriptLines "let x = a\nlet (y) = a\ntex x\nx\n" = lines := by decide +kernel
  refine ⟨(hisolated Session.start).omitted lines _ hidle, ?_⟩
  have htranscript := hscript "let x = a\nlet (y) = a\ntex x\nx\n" "let x = a\n\nx\n"
    [true, false, false, true]
  rw [hlines] at htranscript
  exact htranscript hidle (by decide +kernel)

end Runs

end Formulary
