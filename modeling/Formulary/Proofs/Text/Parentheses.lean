import Formulary.Proofs.Binding.Bare
import Formulary.Proofs.Text.Faithful

/-!
Where parentheses stand. An expression of signs and operations is known from what it is without
parentheses and from the places of the parentheses among its tokens.
-/

namespace Formulary

/-- How many more parentheses are open after a token than before it. -/
def Token.turn (t : Token) : Int :=
  match t.kind with
  | .openParen => 1
  | .closeParen => -1
  | _ => 0

theorem Token.turn_of_operator? {t : Token} {level : Level} (h : t.operator? = some level) :
    t.turn = 0 := by
  unfold operator? at h
  unfold turn
  split at h <;> simp_all

theorem Token.turn_of_isWord {t : Token} (h : t.isWord) : t.turn = 0 := by
  simp only [isWord, Bool.and_eq_true, beq_iff_eq] at h
  rw [turn, h.1]

namespace Expr

/-- The turns of the tokens of an expression. Whatever is no sign, no operation and not in
parentheses counts as one token. -/
def turns : Expr → List Int
  | .unary .paren e => 1 :: (e.turns ++ [-1])
  | .binary ⟨_, true⟩ _ r => 0 :: r.turns
  | .binary ⟨_, false⟩ l r => l.turns ++ 0 :: r.turns
  | _ => [0]

/-- Names and numbers with signs, operators and parentheses. -/
inductive Operational : Expr → Prop
  | number (x : Float) : Operational (.number x)
  | symbol (kind : SymbolKind) (name : String) (bound : Option Expr) :
      Operational (.symbol kind name bound)
  | paren {e : Expr} : Operational e → Operational (.unary .paren e)
  | signed {kind : BinaryKind} {e : Expr} : Operational e → Operational (.signed kind e)
  | operation {kind : BinaryKind} {l r : Expr} :
      Operational l → Operational r → Operational (.binaryOf kind l r)

section Turns

variable {e l r s t : Expr} {kind : BinaryKind}

theorem sum_turns (e : Expr) : e.turns.sum = 0 := by
  fun_induction turns e with
  | case1 e ih => simp [ih]
  | case2 _ _ r ih => simp [ih]
  | case3 _ l r ihl ihr => simp [ihl, ihr]
  | case4 => rfl

/-- No parenthesis is closed before it was opened. -/
theorem sum_take_turns (e : Expr) (n : Nat) : 0 ≤ (e.turns.take n).sum := by
  fun_induction turns e generalizing n with
  | case1 e ih =>
    cases n with
    | zero => simp
    | succ n =>
      have hlast : ∀ m, -1 ≤ (List.take m [(-1 : Int)]).sum := by
        rintro (_ | m) <;> simp
      rw [List.take_succ_cons, List.sum_cons, List.take_append, List.sum_append]
      have := ih n
      have := hlast (n - e.turns.length)
      omega
  | case2 _ _ r ih =>
    cases n with
    | zero => simp
    | succ n => simpa using ih n
  | case3 _ l r ihl ihr =>
    rw [List.take_append, List.sum_append]
    have hr : 0 ≤ (List.take (n - l.turns.length) (0 :: r.turns)).sum := by
      cases n - l.turns.length with
      | zero => simp
      | succ m => simpa using ihr m
    have := ihl n
    omega
  | case4 => cases n <;> simp

/-- What stands before an operator outside of all parentheses does not begin with a parenthesis that
is closed after the operator. -/
theorem turns_paren_ne : (Expr.unary .paren s).turns ≠ (Expr.binaryOf kind l r).turns := by
  intro h
  simp only [turns, binaryOf] at h
  have hlength := congrArg List.length h
  have htake := congrArg (List.take l.turns.length) h
  rw [List.take_left] at htake
  simp only [List.length_cons, List.length_append, List.length_nil] at hlength
  cases hn : l.turns.length with
  | zero =>
    rw [List.eq_nil_of_length_eq_zero hn] at h
    simp at h
  | succ n =>
    -- The tokens before the operator end inside the parentheses, where one more is open.
    have hpast : n - s.turns.length = 0 := by omega
    rw [hn, List.take_succ_cons, List.take_append, hpast, List.take_zero, List.append_nil] at htake
    have hsum := sum_turns l
    rw [← htake, List.sum_cons] at hsum
    have := sum_take_turns s n
    omega

/-- How many tokens are not parentheses does not depend on the parentheses. -/
theorem count_turns (e : Expr) : e.dropParens.turns.count 0 = e.turns.count 0 := by
  induction e with
  | unary op e ih => cases op <;> simp [dropParens, turns, ih]
  | binary op l r ihl ihr =>
    obtain ⟨kind, implicit⟩ := op
    cases implicit <;> simp [dropParens, turns, ihl, ihr]
  | _ => rfl

theorem append_cons_inj_of_count {α : Type} [DecidableEq α] {a : α} {xs ys us vs : List α}
    (h : xs ++ a :: ys = us ++ a :: vs) (hcount : xs.count a = us.count a) : xs = us ∧ ys = vs := by
  rcases List.append_eq_append_iff.mp h with ⟨cs, rfl, hcs⟩ | ⟨cs, rfl, hcs⟩
  · cases cs with
    | nil => simpa using hcs
    | cons c cs =>
      obtain ⟨rfl, -⟩ := List.cons.inj hcs
      simp at hcount
  · cases cs with
    | nil => simpa [eq_comm] using hcs
    | cons c cs =>
      obtain ⟨rfl, -⟩ := List.cons.inj hcs
      simp at hcount

/-- An expression is known from what it is without parentheses and from the turns of its tokens. -/
theorem Operational.eq_of_turns (hs : Operational s) (ht : Operational t)
    (hturns : s.turns = t.turns) (hdrop : s.dropParens = t.dropParens) : s = t := by
  induction hs generalizing t with
  | number | symbol =>
    cases ht with
    | number | symbol => exact hdrop
    | paren => simp [turns] at hturns
    | signed | operation => cases hdrop
  | @paren e _ ih =>
    cases ht with
    | number | symbol | signed => simp [turns, Expr.signed] at hturns
    | @paren e' ht =>
      have hturns' : e.turns = e'.turns := by simpa [turns] using hturns
      rw [ih ht hturns' hdrop]
    | operation => exact absurd hturns turns_paren_ne
  | @signed kind e _ ih =>
    cases ht with
    | number | symbol | operation => cases hdrop
    | paren => simp [turns, Expr.signed] at hturns
    | @signed kind' e' ht =>
      simp only [Expr.signed, dropParens, binary.injEq, BinaryOp.mk.injEq] at hdrop
      have hturns' : e.turns = e'.turns := by simpa [turns, Expr.signed] using hturns
      rw [hdrop.1.1, ih ht hturns' hdrop.2.2]
  | @operation kind l r _ _ ihl ihr =>
    cases ht with
    | number | symbol | signed => cases hdrop
    | paren => exact absurd hturns.symm turns_paren_ne
    | @operation kind' l' r' hl hr =>
      simp only [binaryOf, dropParens, binary.injEq, BinaryOp.mk.injEq] at hdrop
      -- The operator is the one with as many other tokens before it, so it stands in one place.
      have hcount : l.turns.count 0 = l'.turns.count 0 := by
        rw [← count_turns, hdrop.2.1, count_turns]
      obtain ⟨hturnsl, hturnsr⟩ := append_cons_inj_of_count hturns hcount
      rw [hdrop.1.1, ihl hl hturnsl hdrop.2.1, ihr hr hturnsr hdrop.2.2]

theorem Operational.dropParens (h : Operational e) : Operational e.dropParens := by
  induction h with
  | number x => exact .number x
  | symbol kind name bound => exact .symbol kind name bound
  | paren _ ih => exact ih
  | signed _ ih => exact .signed ih
  | operation _ _ ihl ihr => exact .operation ihl ihr

theorem Operational.inGroup (h : Operational e) (grouped : Bool) :
    Operational (e.inGroup grouped) := by
  cases grouped with
  | false => exact h
  | true => exact .paren h

end Turns

end Expr

/-- The tokens of a phrase turn as its tree says, if nothing else than parentheses is in the way. -/
theorem Derives.turns {p : Phrase} {ts : List Token} {t : Expr} (h : Derives p ts t)
    (hdrop : t.dropParens.Operational) : t.Operational ∧ ts.map Token.turn = t.turns := by
  induction h with
  | operation _ hop _ _ ihl ihr =>
    cases hdrop with
    | operation hl hr =>
      obtain ⟨hl, hturnsl⟩ := ihl hl
      obtain ⟨hr, hturnsr⟩ := ihr hr
      refine ⟨.operation hl hr, ?_⟩
      simp [Expr.turns, Expr.binaryOf, hturnsl, hturnsr, Token.turn_of_operator? hop]
  | elements _ ih | inner _ _ ih | unsigned _ ih => exact ih hdrop
  | sign _ hop _ ih =>
    cases hdrop with
    | signed hr =>
      obtain ⟨hr, hturns⟩ := ih hr
      exact ⟨.signed hr, by simp [Expr.turns, Expr.signed, hturns, Token.turn_of_operator? hop]⟩
  | int ht => exact ⟨.number _, by simp [Expr.turns, Token.turn, ht]⟩
  | name ht => exact ⟨.symbol _ _ _, by simp [Expr.turns, Expr.named, Token.turn_of_isWord ht]⟩
  | paren ho hc _ ih =>
    obtain ⟨he, hturns⟩ := ih hdrop
    exact ⟨.paren he, by simp [Expr.turns, hturns, Token.turn, ho, hc]⟩
  | _ => cases hdrop

end Formulary
