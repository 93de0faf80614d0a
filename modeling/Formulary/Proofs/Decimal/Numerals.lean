import Formulary.Proofs.Decimal.Doubles

/-!
Numerals of whole numbers: they are runs of decimal digits, after a minus sign if the number is
negative. No numeral at all has other characters than letters, digits, points and minus signs.
-/

namespace Formulary

open Float.Model (UnpackedFloat)

/-- Characters that make up one token of digits. -/
def IsDigits (cs : List Char) : Prop := cs ≠ [] ∧ ∀ c ∈ cs, c.isDigit = true

namespace Decimal

theorem isDigits_digits (n : Nat) : IsDigits (digits n) :=
  ⟨Nat.toDigits_ne_nil, fun _ hc => Nat.isDigit_of_mem_toDigits (by decide) (by decide) hc⟩

section Grids

variable {m n : Nat} {e : Int}

/-- A double that is a whole number is a point of the grid of whole numbers. -/
theorem interval_value (h : whole? m e = some n) :
    (interval m e).value = n * (interval m e).den := by
  unfold whole? at h
  simp only [Option.ite_none_right_eq_some, Option.some.injEq, Nat.pow_eq] at h
  obtain ⟨hmod, rfl⟩ := h
  have hdvd := Nat.dvd_of_mod_eq_zero hmod
  simp only [interval, Nat.pow_eq]
  rcases Int.lt_or_le e 0 with he | he
  · rw [show e.toNat = 0 by omega, Nat.pow_zero, Nat.mul_one] at hdvd ⊢
    rw [show (e - 2).toNat = 0 by omega, show (2 - e).toNat = (-e).toNat + 2 by omega,
      Nat.pow_zero, Nat.mul_one, Nat.pow_add, ← Nat.mul_assoc, Nat.div_mul_cancel hdvd]
    omega
  · rw [show (-e).toNat = 0 by omega, Nat.pow_zero, Nat.div_one]
    rcases Int.lt_or_le e 2 with h2 | h2
    · obtain rfl | rfl : e = 0 ∨ e = 1 := by omega
      · change 4 * m * 1 = m * 1 * 4
        omega
      · change 4 * m * 1 = m * 2 * 2
        omega
    · rw [show (2 - e).toNat = 0 by omega, show e.toNat = (e - 2).toNat + 2 by omega, Nat.pow_zero,
        Nat.pow_add, Nat.mul_one, Nat.mul_comm 4 m, Nat.mul_assoc, Nat.mul_comm 4 (2 ^ _)]

theorem inUnits_zero (i : Interval) : i.inUnits 0 = i := by
  simp [Interval.inUnits]

/-- The value of an interval lies in it. -/
theorem contains_value (hm : 0 < m) (h : (interval m e).value = n * (interval m e).den) :
    (interval m e).contains n = true := by
  have hlow : (interval m e).low < (interval m e).value := by
    simp only [interval, Nat.pow_eq]
    exact Nat.mul_lt_mul_of_pos_right (by split <;> omega) (Nat.pow_pos (by decide))
  have hhigh : (interval m e).value < (interval m e).high := by
    simp only [interval, Nat.pow_eq]
    exact Nat.mul_lt_mul_of_pos_right (by omega) (Nat.pow_pos (by decide))
  unfold Interval.contains
  rw [← h]
  split
  · exact decide_eq_true ⟨Nat.le_of_lt hlow, Nat.le_of_lt hhigh⟩
  · exact decide_eq_true ⟨hlow, hhigh⟩

theorem interval_den_pos (m : Nat) (e : Int) : 0 < (interval m e).den := Nat.pow_pos (by decide)

theorem exists_whole? (hm : 0 < m) (h : whole? m e = some n) :
    ∃ d, ((interval m e).inUnits 0).whole? = some d := by
  have hvalue := interval_value h
  have hdown : (interval m e).value / (interval m e).den = n := by
    rw [hvalue, Nat.mul_div_cancel _ (interval_den_pos m e)]
  rw [inUnits_zero]
  unfold Interval.whole?
  simp only [hdown, contains_value hm hvalue]
  split <;> simp_all

theorem magnitude_nonneg (hm : 0 < m) (h : whole? m e = some n) :
    0 ≤ (interval m e).magnitude := by
  have hvalue := interval_value h
  have hpos : 0 < (interval m e).value := by
    simp only [interval, Nat.pow_eq]
    exact Nat.mul_pos (by omega) (Nat.pow_pos (by decide))
  have hle : (interval m e).den ≤ (interval m e).value := by
    rw [hvalue] at hpos ⊢
    exact Nat.le_mul_of_pos_left _ (Nat.pos_of_mul_pos_right hpos)
  unfold Interval.magnitude
  rw [if_pos hle]
  exact Int.natCast_nonneg _

/-- The digits of a whole number reach down to its units at most. -/
theorem shortest_nonneg (hm : 0 < m) (h : whole? m e = some n) : 0 ≤ (shortest m e).2 := by
  unfold shortest
  simp only
  generalize hgrids : (List.range 18).map (fun (n : Nat) => (interval m e).magnitude - (n : Int)) =
    grids
  cases hfind : grids.findSome? fun k => ((interval m e).inUnits k).whole?.map (·, k) with
  | none => simp
  | some found =>
    obtain ⟨before, k, after, hsplit, hk, hbefore⟩ := List.findSome?_eq_some_iff.mp hfind
    obtain ⟨d, -, rfl⟩ := Option.map_eq_some_iff.mp hk
    change 0 ≤ k
    apply Int.not_lt.mp
    intro hneg
    have hp : 0 ≤ (interval m e).magnitude := magnitude_nonneg hm h
    have hdec : grids.Pairwise (· > ·) := by
      rw [← hgrids, List.pairwise_map]
      exact List.pairwise_lt_range.imp (by omega)
    have hzero : 0 ∈ grids := by
      have hmem : k ∈ grids := by simp [hsplit]
      rw [← hgrids, List.mem_map] at hmem ⊢
      obtain ⟨i, hi, rfl⟩ := hmem
      rw [List.mem_range] at hi
      exact ⟨(interval m e).magnitude.toNat, List.mem_range.mpr (by omega), by omega⟩
    rw [hsplit, List.pairwise_append, List.pairwise_cons] at hdec
    rw [hsplit, List.mem_append, List.mem_cons] at hzero
    rcases hzero with hzero | hzero | hzero
    · obtain ⟨d', hd'⟩ := exists_whole? hm h
      simpa [hd'] using hbefore 0 hzero
    · omega
    · have := hdec.2.1.1 0 hzero
      omega

end Grids

theorem isDigits_magnitude {m n : Nat} {e : Int} (hm : 0 < m) (h : whole? m e = some n) :
    IsDigits (magnitude m e) := by
  have hpositional : IsDigits (positional (shortest m e).1 (shortest m e).2) := by
    unfold positional
    simp only
    rw [if_pos (shortest_nonneg hm h)]
    have hd := isDigits_digits (shortest m e).1
    refine ⟨by simp [hd.1], ?_⟩
    intro c hc
    rcases List.mem_append.mp hc with hc | hc
    · exact hd.2 c hc
    · rw [List.eq_of_mem_replicate hc]
      rfl
  unfold magnitude
  rw [h]
  simp only
  split
  · exact isDigits_digits n
  · exact hpositional

end Decimal

/-- The finite whole numbers, of which `-0` is not one. -/
def IsWhole (x : Float) : Prop :=
  match x.toModel.unpack with
  | .zero .positive => True
  | .finite _ m e _ => (Decimal.whole? m e).isSome = true
  | _ => False

instance (x : Float) : Decidable (IsWhole x) := by
  unfold IsWhole
  split <;> infer_instance

section Whole

variable {x : Float}

/-- A whole number that is not negative is written as digits. -/
theorem IsWhole.isDigits_numeral (h : IsWhole x) (hx : ¬ x < 0) : IsDigits (numeral x).toList := by
  unfold IsWhole at h
  rw [lt_zero_iff] at hx
  unfold numeral
  cases hu : x.toModel.unpack with
  | notANumber => simp [hu] at h
  | infinity s => simp [hu] at h
  | zero s => exact ⟨by simp, by simp⟩
  | finite s m e hm =>
    simp only [hu] at h
    obtain ⟨n, hn⟩ := Option.isSome_iff_exists.mp h
    cases s with
    | negative => exact absurd (.inr ⟨m, e, hm, hu⟩) hx
    | positive => simpa [Decimal.sign] using Decimal.isDigits_magnitude hm hn

/-- A negative whole number is written as its opposite after a minus sign. -/
theorem IsWhole.numeral_of_neg (h : IsWhole x) (hx : x < 0) :
    numeral x = "-" ++ numeral (-x) ∧ IsWhole (-x) ∧ ¬ -x < 0 := by
  rcases (lt_zero_iff x).mp hx with hu | ⟨m, e, hm, hu⟩
  · simp [IsWhole, hu] at h
  · have hneg : (-x).toModel.unpack = .finite .positive m e hm := by
      rw [unpack_neg, hu]
      rfl
    refine ⟨?_, ?_, ?_⟩
    · simp [numeral, hu, hneg, Decimal.sign]
    · simpa [IsWhole, hu, hneg] using h
    · simp [lt_zero_iff, hneg]

end Whole

section Characters

/-- The characters that numbers are written with. -/
def isNumeralChar (c : Char) : Bool := c.isAlphanum || c == '.' || c == '-'

variable {x : Float} {c : Char}

theorem isNumeralChar_of_isDigit (h : c.isDigit = true) : isNumeralChar c = true := by
  simp [isNumeralChar, Char.isAlphanum, h]

namespace Decimal

theorem isNumeralChar_of_mem_digits {n : Nat} (h : c ∈ digits n) : isNumeralChar c = true :=
  isNumeralChar_of_isDigit ((isDigits_digits n).2 c h)

theorem isNumeralChar_of_mem_zeros {n : Nat} (h : c ∈ zeros n) : isNumeralChar c = true := by
  rw [List.eq_of_mem_replicate h]
  rfl

theorem isNumeralChar_of_mem_positional {d : Nat} {k : Int} (h : c ∈ positional d k) :
    isNumeralChar c = true := by
  unfold positional at h
  simp only at h
  split at h
  · rcases List.mem_append.mp h with h | h
    · exact isNumeralChar_of_mem_digits h
    · exact isNumeralChar_of_mem_zeros h
  split at h
  · rcases List.mem_append.mp h with h | h
    · exact isNumeralChar_of_mem_digits (List.mem_of_mem_take h)
    rcases List.mem_cons.mp h with rfl | h
    · rfl
    · exact isNumeralChar_of_mem_digits (List.mem_of_mem_drop h)
  · rcases List.mem_append.mp h with h | h
    · rcases List.mem_cons.mp h with rfl | h
      · rfl
      rcases List.mem_cons.mp h with rfl | h
      · rfl
      · exact isNumeralChar_of_mem_zeros h
    · exact isNumeralChar_of_mem_digits h

theorem isNumeralChar_of_mem_magnitude {m : Nat} {e : Int} (h : c ∈ magnitude m e) :
    isNumeralChar c = true := by
  unfold magnitude at h
  split at h
  · split at h
    · exact isNumeralChar_of_mem_digits h
    · exact isNumeralChar_of_mem_positional h
  · exact isNumeralChar_of_mem_positional h

theorem isNumeralChar_of_mem_sign {s : UnpackedFloat.Sign} (h : c ∈ sign s) :
    isNumeralChar c = true := by
  cases s with
  | positive => cases h
  | negative =>
    cases List.mem_singleton.mp h
    rfl

end Decimal

theorem isNumeralChar_of_mem_numeral (h : c ∈ (numeral x).toList) : isNumeralChar c = true := by
  have hnan : "NaN".toList.all isNumeralChar = true := by decide +kernel
  have hinf : "inf".toList.all isNumeralChar = true := by decide +kernel
  have hzero : "0".toList.all isNumeralChar = true := by decide +kernel
  unfold numeral at h
  split at h
  · exact List.all_eq_true.mp hnan c h
  · rw [String.toList_ofList] at h
    rcases List.mem_append.mp h with h | h
    · exact Decimal.isNumeralChar_of_mem_sign h
    · exact List.all_eq_true.mp hinf c h
  · exact List.all_eq_true.mp hzero c h
  · rw [String.toList_ofList] at h
    rcases List.mem_append.mp h with h | h
    · exact Decimal.isNumeralChar_of_mem_sign h
    · exact Decimal.isNumeralChar_of_mem_magnitude h

end Characters

end Formulary
