import Formulary.Proofs.Grammar.Layout

/-!
Errors point at the text. The regions of an error cover whole characters, the texts that it quotes
are those of its regions, and of two regions the second one follows the first or lies inside it.
-/

namespace Formulary

/-- The texts that a problem quotes from the source. -/
def Problem.quotes : Problem → List String
  | .emptyOperand text | .emptyGroup text | .unrecognizedToken text | .decimalLiteral text => [text]
  | .missingOperator lhs rhs => [lhs, rhs]
  | _ => []

/-- What an error says about a text is true of the text. -/
structure ParseError.PointsAt (source : String) (err : ParseError) : Prop where
  /-- All regions are regions of the text, and there is a first one. -/
  regions : ∀ span ∈ err.spans, span.start ≤ span.stop ∧ span.stop ≤ byteLength source.toList ∧
    Boundary source span.start ∧ Boundary source span.stop
  first : ∃ span, err.spans.head? = some span ∧
    (err.problem ≠ .emptyExpression → span.start < span.stop)
  quotes : err.problem.quotes ≠ [] → err.problem.quotes = err.spans.map (·.text source)
  follows : ∀ lhs rhs, err.problem = .missingOperator lhs rhs →
    ∃ span span', err.spans = [span, span'] ∧ span.stop ≤ span'.start
  inside : err.problem = .mismatchedGroup →
    ∃ span span', err.spans = [span, span'] ∧ span.start ≤ span'.start ∧ span'.stop ≤ span.stop

section PointsAt

variable {source : String} {problem : Problem} {span span' : Span}

theorem Span.Solid.region (h : span.Solid source) :
    span.start ≤ span.stop ∧ span.stop ≤ byteLength source.toList ∧
      Boundary source span.start ∧ Boundary source span.stop :=
  ⟨Nat.le_of_lt h.start_lt_stop, h.stop.le, h.start, h.stop⟩

/-- An error with one region. -/
theorem pointsAt_one (h : span.Solid source)
    (hquotes : problem.quotes = [] ∨ problem.quotes = [span.text source])
    (hone : problem ≠ .mismatchedGroup) : ParseError.PointsAt source ⟨problem, [span]⟩ := by
  refine ⟨by simpa using h.region, ⟨span, rfl, fun _ => h.start_lt_stop⟩, ?_, ?_,
    fun hm => absurd hm hone⟩
  · intro hne
    exact hquotes.resolve_left hne
  · rintro lhs rhs rfl
    simp [Problem.quotes] at hquotes

end PointsAt

namespace Parser

variable {source : String} {items : List Item} {t : Token} {err : ParseError}

theorem refused?_pointsAt (ht : t ∈ tokens source) (h : refused? t = some err) :
    err.PointsAt source := by
  obtain ⟨hsolid, htext⟩ := solid_and_text_of_mem_tokens ht
  unfold refused? at h
  split at h
  · cases h
    exact pointsAt_one hsolid (.inr (by rw [htext]; rfl)) nofun
  · cases h
    exact pointsAt_one hsolid (.inr (by rw [htext]; rfl)) nofun
  · cases h

theorem unpaired_pointsAt (h : Group.Unpaired (tokens source) err) : err.PointsAt source := by
  cases h with
  | unclosed ht => exact pointsAt_one (solid_and_text_of_mem_tokens ht).1 (.inl rfl) nofun
  | stray ht => exact pointsAt_one (solid_and_text_of_mem_tokens ht).1 (.inl rfl) nofun
  | @crossed opening between closing hts =>
    have hpairs := (pairwise_tokens source).sublist hts
    simp only [List.pairwise_cons, List.mem_cons, forall_eq_or_imp, List.not_mem_nil] at hpairs
    obtain ⟨⟨hbetween, hclosing, -⟩, ⟨hbetween', -⟩, -⟩ := hpairs
    have hopening := (solid_and_text_of_mem_tokens (hts.subset (by simp) : opening ∈ _)).1
    have hmid := (solid_and_text_of_mem_tokens (hts.subset (by simp) : between ∈ _)).1
    have hlast := (solid_and_text_of_mem_tokens (hts.subset (by simp) : closing ∈ _)).1
    have hpair := hopening.upTo hlast hclosing
    refine ⟨?_, ⟨_, rfl, fun _ => hpair.start_lt_stop⟩, fun hne => absurd rfl hne, nofun,
      fun _ => ?_⟩
    · simpa using ⟨hpair.region, hmid.region⟩
    · refine ⟨_, _, rfl, ?_, ?_⟩
      · exact Nat.le_trans (Nat.le_of_lt hopening.start_lt_stop) hbetween
      · exact Nat.le_trans hbetween' (Nat.le_of_lt hlast.start_lt_stop)

theorem Faults.pointsAt (h : Faults source items err) (hitems : Laid source 0 items) :
    err.PointsAt source := by
  cases h with
  | @operand op =>
    have hop := hitems.placed (.token op) (by simp)
    exact pointsAt_one hop.solid (.inr (by rw [Problem.quotes, ← hop.text op rfl])) nofun
  | operator =>
    cases hitems with
    | cons _ hlhs hrest =>
      cases hrest with
      | cons hle hrhs _ =>
        refine ⟨?_, ⟨_, rfl, fun _ => hlhs.solid.start_lt_stop⟩, fun _ => rfl, ?_, nofun⟩
        · simpa using ⟨hlhs.solid.region, hrhs.solid.region⟩
        · exact fun _ _ _ => ⟨_, _, rfl, hle⟩
  | group => exact pointsAt_one (hitems.placed _ List.mem_cons_self).solid (.inr rfl) nofun

end Parser

/-- Every error of a parse points at the text. -/
theorem parse_error_pointsAt {source : String} {err : ParseError} (h : parse source = .error err) :
    err.PointsAt source := by
  rcases Parser.parse_eq_error_cases h with ⟨before, t, after, hts, ht, -⟩ | ⟨-, rfl⟩ | ⟨S, hrun⟩ |
    ⟨c, hc, hfault⟩
  · exact Parser.refused?_pointsAt (by simp [hts]) ht
  · have hend : Boundary source (byteLength source.toList) := ⟨source.toList, [], by simp, rfl⟩
    refine ⟨?_, ⟨_, rfl, fun hne => absurd rfl hne⟩, fun hne => absurd rfl hne, nofun, nofun⟩
    simpa using hend
  · have hunpaired := Group.extract_unpaired hrun
    rw [tokensAmong_map] at hunpaired
    exact Parser.unpaired_pointsAt hunpaired
  · exact hfault.pointsAt hc.laid.items

theorem parse_bracketAfterNumber :
    parse "f(2[a])" = .error ⟨.missingOperator "2" "[a]", [⟨2, 3⟩, ⟨3, 6⟩]⟩ := by
  have htokens : tokens "f(2[a])" = [⟨.name, "f", ⟨0, 1⟩⟩, ⟨.openParen, "(", ⟨1, 2⟩⟩,
      ⟨.int, "2", ⟨2, 3⟩⟩, ⟨.openBracket, "[", ⟨3, 4⟩⟩, ⟨.name, "a", ⟨4, 5⟩⟩,
      ⟨.closeBracket, "]", ⟨5, 6⟩⟩, ⟨.closeParen, ")", ⟨6, 7⟩⟩] := by
    decide +kernel
  rw [parse, htokens]
  rfl

/-- Inside a call, the second region is that of a group. -/
theorem parse_error_pointsAt_bracketAfterNumber :
    ∃ err, parse "f(2[a])" = .error err ∧ err.PointsAt "f(2[a])" :=
  ⟨_, parse_bracketAfterNumber, parse_error_pointsAt parse_bracketAfterNumber⟩

end Formulary
