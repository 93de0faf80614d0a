import Formulary.Proofs.Session.Names
import Formulary.Proofs.Steps
import Formulary.Session.Basic

/-!
What one line does to a session. Most commands only look at the values; the two that change one have
nothing left to fail afterwards, so a line that fails has changed nothing.
-/

namespace Formulary

/-- Whether a command is one to bind or unbind a name. -/
def Command.isBinding : Command → Bool
  | assign .. | retract _ => true
  | _ => false

section Commands

variable {line : List Char} {keyword : String} {name expr : String} {command : String → Command}

theorem trimmed_of_atEquals? {cs : List Char} (h : Command.atEquals? cs = some (name, expr)) :
    Trimmed name.toList := by
  unfold Command.atEquals? at h
  split at h
  · cases h
    rw [String.toList_ofList]
    exact trimmed_trim _
  · cases h

/-- The name that a line binds has no white space around it. -/
theorem Command.trimmed_of_ofLine {line : String} (h : ofLine line = .assign name expr) :
    Trimmed name.toList := by
  unfold ofLine at h
  simp only at h
  split at h
  · cases h
  · split at h
    · rename_i hequals
      cases h
      obtain ⟨rest, -, hrest⟩ := Option.bind_eq_some_iff.mp hequals
      exact trimmed_of_atEquals? hrest
    · cases hchoice : List.findSome? id [simple? (Line.trim line.toList) "unlet" .retract,
          simple? (Line.trim line.toList) "tex" .tex,
          simple? (Line.trim line.toList) "convert" .convert,
          simple? (Line.trim line.toList) "unique" .unique] with
      | none =>
        rw [hchoice] at h
        cases h
      | some chosen =>
        rw [hchoice] at h
        obtain rfl : chosen = .assign name expr := h
        obtain ⟨choice, hmem, hchosen⟩ := List.exists_of_findSome?_eq_some hchoice
        obtain rfl : choice = some (.assign name expr) := hchosen
        simp only [List.mem_cons, List.not_mem_nil, or_false, simple?] at hmem
        rcases hmem with hmem | hmem | hmem | hmem
        all_goals
          obtain ⟨_, -, hcommand⟩ := Option.map_eq_some_iff.mp hmem.symm
          cases hcommand

end Commands

section Steps

/-- Reading fails, or it returns the tree of a text. -/
theorem Session.read_eq_ok {source : String} {e : Expr} {s s' : Session} :
    (read source).run s = .ok e s' ↔ parse source = .ok e ∧ s = s' := by
  unfold read
  cases parse source with
  | ok e' => exact run_pure_eq_ok.trans (by simp)
  | error err => exact iff_of_false run_throw_ne_ok nofun

theorem Session.looks_read (source : String) : Looks (read source) := by
  unfold read
  split
  · exact .pure _
  · exact .throw _

theorem Session.looks_liftZone {α : Type} (x : Except ZoneError α) : Looks (liftZone x) := by
  unfold liftZone
  split
  · exact .pure _
  · exact .throw _

/-- Nothing fails after a name was bound. -/
theorem Session.atomic_assign (name expr : String) : Atomic (assign name expr) := by
  refine (looks_read name).bind_atomic fun target => ?_
  cases target.symbolName? with
  | none => exact (Looks.throw _).atomic
  | some n =>
    refine (looks_read expr).bind_atomic fun e => Looks.get.bind_atomic fun s => ?_
    exact fun _ _ _ => nofun

theorem Session.atomic_retract (name : String) : Atomic (retract name) := by
  refine Looks.get.bind_atomic fun s => ?_
  cases s.env[name]? with
  | none => exact .pure _
  | some value => exact fun _ _ _ => nofun

theorem Session.looks_unique (expr : String) : Looks (unique expr) := by
  refine (looks_read expr).bind fun e => (looks_liftZone _).bind fun f => ?_
  refine Looks.bind (.mapM (fun i => ?_) _) fun lines => .pure _
  exact (looks_liftZone _).bind fun node => .pure _

theorem Session.looks_evaluate (expr : String) : Looks (evaluate expr) :=
  (looks_read expr).bind fun _ => Looks.get.bind fun _ => .pure _

/-- A command that neither binds nor unbinds a name changes nothing. -/
theorem Session.looks_run {command : Command} (h : command.isBinding = false) :
    Looks (run command) := by
  cases command with
  | assign name expr | retract name => cases h
  | tex expr => exact (looks_read expr).bind fun _ => .pure _
  | convert expr => exact (looks_read expr).bind fun _ => Looks.get.bind fun _ => .pure _
  | unique expr => exact looks_unique expr
  | vars => exact Looks.get.bind fun _ => .pure _
  | evaluate expr => exact looks_evaluate expr

/-- A command that fails has changed nothing. -/
theorem Session.atomic_run (command : Command) : Atomic (run command) := by
  by_cases h : command.isBinding = false
  · exact (looks_run h).atomic
  · cases command with
    | assign name expr => exact atomic_assign name expr
    | retract name => exact atomic_retract name
    | _ => exact absurd rfl h

end Steps

section Handle

variable {s : Session} {line name expr out : String} {err : SessionError}

theorem Session.handle_of_ok {s' : Session} (h : (run (.ofLine line)).run s = .ok out s') :
    s.handle line = (.ok out, s') := by
  rw [handle, h]

theorem Session.handle_of_error {s' : Session} (h : (run (.ofLine line)).run s = .error err s') :
    s.handle line = (.error err, s') := by
  rw [handle, h]

theorem Session.run_of_handle (h : (s.handle line).1 = .ok out) :
    (run (.ofLine line)).run s = .ok out (s.handle line).2 := by
  cases hrun : (run (.ofLine line)).run s with
  | ok out' s' =>
    rw [handle_of_ok hrun] at h ⊢
    rw [Except.ok.inj h]
  | error err s' =>
    rw [handle_of_error hrun] at h
    cases h

/-- A line that fails changes nothing. -/
theorem Session.handle_snd_of_error (h : (s.handle line).1 = .error err) :
    (s.handle line).2 = s := by
  cases hrun : (run (.ofLine line)).run s with
  | ok out s' =>
    rw [handle_of_ok hrun] at h
    cases h
  | error err' s' =>
    rw [handle_of_error hrun]
    exact atomic_run _ s err' s' hrun

theorem Session.handle_snd_of_not_isBinding (h : (Command.ofLine line).isBinding = false) :
    (s.handle line).2 = s := by
  cases hout : (s.handle line).1 with
  | ok out => exact (looks_run h).of_ok _ _ _ (run_of_handle hout)
  | error err => exact handle_snd_of_error hout

theorem Session.assign_eq_ok {s' : Session} (h : (assign name expr).run s = .ok out s') :
    ∃ target n e, parse name = .ok target ∧ target.symbolName? = some n ∧ parse expr = .ok e ∧
      s'.env = s.env.insert name (e.compute s.env) := by
  obtain ⟨target, s₁, hread, h⟩ := run_bind_eq_ok.mp h
  obtain ⟨htarget, rfl⟩ := read_eq_ok.mp hread
  cases hname : target.symbolName? with
  | none =>
    rw [hname] at h
    exact absurd h run_throw_ne_ok
  | some n =>
    rw [hname] at h
    obtain ⟨e, s₂, hread', h⟩ := run_bind_eq_ok.mp h
    obtain ⟨hvalue, rfl⟩ := read_eq_ok.mp hread'
    cases h
    exact ⟨target, n, e, htarget, hname, hvalue, rfl⟩

/-- A line that binds a name takes it and its value from the texts around the equals sign. -/
theorem Session.handle_assign (h : Command.ofLine line = .assign name expr)
    (hok : (s.handle line).1 = .ok out) :
    ∃ target n e, parse name = .ok target ∧ target.symbolName? = some n ∧ parse expr = .ok e ∧
      (s.handle line).2.env = s.env.insert name (e.compute s.env) := by
  have hrun := run_of_handle hok
  rw [h] at hrun
  exact assign_eq_ok hrun

theorem Session.run_retract (s : Session) (name : String) : (retract name).run s =
    match s.env[name]? with
    | some value => .ok (name ++ " was " ++ value.text) ⟨s.env.erase name⟩
    | none => .ok (unknownName s.env name) s := by
  rw [retract, EStateM.run_bind, EStateM.run_get]
  dsimp only
  cases s.env[name]? <;> rfl

/-- A line that unbinds a name cannot fail. -/
theorem Session.handle_retract (h : Command.ofLine line = .retract name) : s.handle line =
    match s.env[name]? with
    | some value => (.ok (name ++ " was " ++ value.text), ⟨s.env.erase name⟩)
    | none => (.ok (unknownName s.env name), s) := by
  rw [handle, h, run, run_retract]
  cases s.env[name]? <;> rfl

theorem Session.getElem?_handle_retract (h : Command.ofLine line = .retract name) (k : String) :
    (s.handle line).2.env[k]? = if k = name then none else s.env[k]? := by
  rw [handle_retract h]
  cases hvalue : s.env[name]? with
  | some value => simp [Std.ExtTreeMap.getElem?_erase, @eq_comm _ k]
  | none =>
    by_cases hk : k = name
    · simp [hk, hvalue]
    · simp [hk]

/-- A value that a line leaves was there before, or its name was just bound by the line. -/
theorem Session.mem_handle {k : String} (h : k ∈ (s.handle line).2.env) :
    k ∈ s.env ∨ ∃ expr, Command.ofLine line = .assign k expr ∧
      ∃ target n, parse k = .ok target ∧ target.symbolName? = some n := by
  cases hcommand : Command.ofLine line with
  | assign name expr =>
    cases hout : (s.handle line).1 with
    | error err =>
      rw [handle_snd_of_error hout] at h
      exact .inl h
    | ok out =>
      obtain ⟨target, n, e, htarget, hn, -, henv⟩ := handle_assign hcommand hout
      rw [henv, Std.ExtTreeMap.mem_insert] at h
      rcases h with hk | h
      · obtain rfl : name = k := by simpa using hk
        exact .inr ⟨expr, rfl, target, n, htarget, hn⟩
      · exact .inl h
  | retract name =>
    rw [← Std.ExtTreeMap.isSome_getElem?_iff_mem, getElem?_handle_retract hcommand] at h
    split at h
    · cases h
    · exact .inl (Std.ExtTreeMap.isSome_getElem?_iff_mem.mp h)
  | _ =>
    rw [handle_snd_of_not_isBinding (by rw [hcommand]; rfl)] at h
    exact .inl h

end Handle

end Formulary
