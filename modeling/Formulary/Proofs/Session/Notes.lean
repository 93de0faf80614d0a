import Formulary.Proofs.Evaluation.Cycles
import Formulary.Proofs.Grammar.Trees
import Formulary.Proofs.Session.Isolation
import Formulary.Proofs.Traversal.PostOrder

/-!
The notes under an answer. Each name that computation leaves has one note. The note says that the
name has no value, which is true exactly if evaluation did not return to the name inside the name's
own value. No evaluation does in a session whose lines leave no name in its own value.
-/

namespace Formulary

namespace Session

section Start

variable {n : String} {v : Expr}

theorem exists_number_of_start (h : start.env[n]? = some v) : ∃ x, v = .number x := by
  simp only [start, Environment.withConstants, constants, List.foldl_cons, List.foldl_nil,
    Std.ExtTreeMap.getElem?_insert, Std.ExtTreeMap.getElem?_empty] at h
  repeat' split at h
  all_goals cases h
  all_goals exact ⟨_, rfl⟩

theorem isFree_start : start.env.IsFree := by
  intro n v hv
  obtain ⟨x, rfl⟩ := exists_number_of_start hv
  rfl

theorem acyclic_start : start.env.Acyclic := by
  intro n hn
  obtain ⟨m, ⟨v, hv, hm⟩, -⟩ := Relation.TransGen.head'_iff.mp hn
  obtain ⟨x, rfl⟩ := exists_number_of_start hv
  cases hm

end Start

section Free

variable {s : Session} {lines : List String}

/-- What is read has no values in it, and what it computes to has none either. -/
theorem isFree_handle (h : s.env.IsFree) (line : String) : (s.handle line).2.env.IsFree := by
  cases hcommand : Command.ofLine line with
  | assign name expr =>
    cases hout : (s.handle line).1 with
    | error err => rwa [handle_snd_of_error hout]
    | ok out =>
      obtain ⟨-, -, e, -, -, hparse, henv⟩ := handle_assign hcommand hout
      intro n v hv
      rw [henv, Std.ExtTreeMap.getElem?_insert] at hv
      split at hv
      · cases hv
        exact Expr.isFree_evaluate h ((parse_iff_derives expr e).mp hparse).isFree
      · exact h n v hv
  | retract name =>
    intro n v hv
    rw [getElem?_handle_retract hcommand] at hv
    split at hv
    · cases hv
    · exact h n v hv
  | _ => rwa [handle_snd_of_not_isBinding (by rw [hcommand]; rfl)]

theorem isFree_after (h : s.env.IsFree) : (s.after lines).env.IsFree := by
  induction lines generalizing s with
  | nil => exact h
  | cons line lines ih => exact ih (isFree_handle h line)

end Free

/-- Whether a line leaves no name that it binds in the name's own value. -/
def Grounds (s : Session) (line : String) : Prop :=
  ∀ name expr v, Command.ofLine line = .assign name expr → (s.handle line).2.env[name]? = some v →
    v.mentions name = false

/-- Whether all lines of a run are such. -/
def Grounded (s : Session) : List String → Prop
  | [] => True
  | line :: lines => s.Grounds line ∧ (s.handle line).2.Grounded lines

section Grounded

variable {s : Session} {line : String} {lines : List String}

/-- What a line binds was computed, so it mentions no name with a value, and not its own name. -/
theorem Grounds.acyclic (h : s.Grounds line) (hfree : s.env.IsFree) (hs : s.env.Acyclic) :
    (s.handle line).2.env.Acyclic := by
  cases hcommand : Command.ofLine line with
  | assign name expr =>
    cases hout : (s.handle line).1 with
    | error err => rwa [handle_snd_of_error hout]
    | ok out =>
      obtain ⟨-, -, e, -, -, hparse, henv⟩ := handle_assign hcommand hout
      have he : e.isFree = true := ((parse_iff_derives expr e).mp hparse).isFree
      have hself : (e.compute s.env).mentions name = false := by
        refine h name expr _ hcommand ?_
        rw [henv, Std.ExtTreeMap.getElem?_insert_self]
      rw [henv]
      refine hs.insert fun m hm => ⟨?_, hs.not_mem_of_mentions hfree he hm⟩
      rintro rfl
      cases hself.symm.trans hm
  | retract name =>
    refine hs.mono fun k v hv => ?_
    rw [getElem?_handle_retract hcommand] at hv
    split at hv
    · cases hv
    · exact hv
  | _ => rwa [handle_snd_of_not_isBinding (by rw [hcommand]; rfl)]

theorem Grounded.acyclic (h : s.Grounded lines) (hfree : s.env.IsFree) (hs : s.env.Acyclic) :
    (s.after lines).env.Acyclic := by
  induction lines generalizing s with
  | nil => exact hs
  | cons line lines ih => exact ih h.2 (isFree_handle hfree line) (h.1.acyclic hfree hs)

end Grounded

variable {s : Session} {lines : List String} {line expr out : String}

theorem evaluate_eq_ok {s' : Session} (h : (evaluate expr).run s = .ok out s') :
    ∃ e result, parse expr = .ok e ∧
      (result = e.text ∨ result = e.text ++ " = " ++ (e.compute s.env).text) ∧
      out = String.intercalate "\n"
        (result :: (e.compute s.env).names.map (unknownName s.env)) := by
  obtain ⟨e, s₁, hread, h⟩ := run_bind_eq_ok.mp h
  obtain ⟨hparse, rfl⟩ := read_eq_ok.mp hread
  cases h
  refine ⟨e, _, hparse, ?_, rfl⟩
  split
  · exact .inl rfl
  · exact .inr rfl

/-- What the answer to an expression is made of: its text, what it computes to if that is another,
and a note for each of some names. -/
structure Answers (s : Session) (expr out : String) (e : Expr) (result : String)
    (names : List String) : Prop where
  parsed : parse expr = .ok e
  result_eq : result = e.text ∨ result = e.text ++ " = " ++ (e.compute s.env).text
  text : out = String.intercalate "\n" (result :: names.map (unknownName s.env))
  /-- No name has two notes. -/
  once : names.Nodup
  /-- The names with a note are those that computation leaves. -/
  left : ∀ name, name ∈ names ↔ (e.compute s.env).mentions name = true
  /-- A name that is noted to have no value has one exactly if evaluation returns to it. -/
  valued : ∀ name ∈ names, name ∈ s.env ↔ e.Returns s.env name []
  truthful : (∀ name ∈ names, name ∉ s.env) ↔ ¬ e.Reenters s.env []

theorem exists_answers {s' : Session} (hfree : s.env.IsFree)
    (h : (evaluate expr).run s = .ok out s') :
    ∃ e result, s.Answers expr out e result (e.compute s.env).names := by
  obtain ⟨e, result, hparse, hresult, htext⟩ := evaluate_eq_ok h
  have he : e.isFree = true := ((parse_iff_derives expr e).mp hparse).isFree
  have hnames (name : String) : name ∈ (e.compute s.env).names ↔
      (e.compute s.env).mentions name = true :=
    Expr.mem_names_iff_mentions (Expr.isFree_evaluate hfree he)
  have hreturns (name : String) : e.Returns s.env name [] ↔
      name ∈ (e.compute s.env).names ∧ name ∈ s.env := by
    rw [hnames, Expr.returns_iff hfree he]
    simp [Expr.compute]
  refine ⟨e, result, hparse, hresult, htext, Expr.names_nodup _, hnames, ?_, ?_⟩
  · intro name hname
    rw [hreturns]
    exact (and_iff_right hname).symm
  · rw [Expr.reenters_iff, not_exists]
    simp only [hreturns, not_and]

/-- Whatever the lines before were, the answer to an expression has a note for each name that is
left of it, and no second one. All notes are true exactly if no name is re-entered, and they are if
no line has left a name in its own value. -/
theorem notes_after (hs : s = start.after lines) (hcommand : Command.ofLine line = .evaluate expr)
    (hout : (s.handle line).1 = .ok out) :
    ∃ e result, s.Answers expr out e result (e.compute s.env).names ∧
      (start.Grounded lines → ∀ name ∈ (e.compute s.env).names, name ∉ s.env) := by
  subst hs
  have hfree : (start.after lines).env.IsFree := isFree_after isFree_start
  have hrun := run_of_handle hout
  rw [hcommand] at hrun
  obtain ⟨e, result, hanswers⟩ := exists_answers hfree hrun
  refine ⟨e, result, hanswers, fun hgrounded name hname => ?_⟩
  have he : e.isFree = true := ((parse_iff_derives expr e).mp hanswers.parsed).isFree
  have hacyclic := hgrounded.acyclic isFree_start acyclic_start
  exact hacyclic.not_mem_of_mentions hfree he ((hanswers.left name).mp hname)

/-- The value of `rate` has `rate` in it, so there is a value although there is a note. -/
theorem notes_after_selfReference :
    let s := start.after ["let rate = rate*2"]
    let e := Expr.binaryOf .addition (.named "rate") (.named "sum")
    let out := "rate+sum = rate*2+sum\nnote: `rate` has no value\nnote: `sum` has no value"
    Command.ofLine "rate+sum" = .evaluate "rate+sum" ∧ (s.handle "rate+sum").1 = .ok out ∧
      "rate" ∈ s.env ∧ "sum" ∉ s.env ∧
      s.Answers "rate+sum" out e "rate+sum = rate*2+sum" ["rate", "sum"] := by
  intro s e out
  have hcommand : Command.ofLine "rate+sum" = .evaluate "rate+sum" := by decide +kernel
  have hout : (s.handle "rate+sum").1 = .ok out := by decide +kernel
  have hrate : "rate" ∈ s.env := by decide +kernel
  have hsum : "sum" ∉ s.env := by decide +kernel
  obtain ⟨e', result, hanswers, -⟩ := notes_after rfl hcommand hout
  have hparse : parse "rate+sum" = .ok e := by decide +kernel
  obtain rfl : e' = e := Except.ok.inj (hanswers.parsed.symm.trans hparse)
  have hnames : (e.compute s.env).names = ["rate", "sum"] := by decide +kernel
  have hresult : result = "rate+sum = rate*2+sum" := by
    rcases hanswers.result_eq with rfl | rfl
    · exact absurd hanswers.text (by decide +kernel)
    · decide +kernel
  rw [hnames, hresult] at hanswers
  exact ⟨hcommand, hout, hrate, hsum, hanswers⟩

end Session

end Formulary
