import Formulary.Proofs.Decimal.Numerals

/-!
Whole numbers stay whole when they are rounded to doubles. Digits are dropped at the end of a
mantissa only, and those below the units are zero.
-/

namespace Formulary

open Float.Model (Format UnpackedFloat totalExponent)
open Float.Model.UnpackedFloat (Sign ExtendedMantissa roundWithAccuracy shiftToExponent
  shiftToTargetExponent)

section Shifts

variable {m k : Nat} {e : Int}

theorem shiftRight_succ (em : ExtendedMantissa) (k : Nat) :
    em >>> (k + 1) = (em >>> k).shiftRightOne := rfl

theorem mantissa_shiftRight (em : ExtendedMantissa) (k : Nat) :
    (em >>> k).mantissa = em.mantissa / 2 ^ k := by
  induction k with
  | zero => exact (Nat.div_one _).symm
  | succ k ih =>
    rw [shiftRight_succ, Nat.pow_succ, ← Nat.div_div_eq_div_mul, ← ih]
    rfl

/-- Nothing is lost when the digits that are dropped are zeros. -/
theorem shiftRight_exact (h : 2 ^ k ∣ m) :
    (⟨m, false, false⟩ : ExtendedMantissa) >>> k = ⟨m / 2 ^ k, false, false⟩ := by
  induction k with
  | zero =>
    rw [Nat.pow_zero, Nat.div_one]
    rfl
  | succ k ih =>
    have hdvd : 2 ∣ m / 2 ^ k := by
      apply Nat.dvd_div_of_mul_dvd
      rwa [← Nat.pow_succ]
    have hmod : m / 2 ^ k % 2 = 0 := Nat.mod_eq_zero_of_dvd hdvd
    rw [shiftRight_succ, ih (Nat.dvd_trans (Nat.pow_dvd_pow 2 (Nat.le_succ k)) h)]
    simp [ExtendedMantissa.shiftRightOne, hmod, Nat.pow_succ, Nat.div_div_eq_div_mul]

theorem roundedMantissa_near (em : ExtendedMantissa) :
    em.mantissa ≤ em.roundedMantissa ∧ em.roundedMantissa ≤ em.mantissa + 1 := by
  unfold ExtendedMantissa.roundedMantissa Float.Model.UnpackedFloat.Accuracy.roundToNearestEven
  split <;> omega

/-- The first 53 digits of a mantissa, and what is to be known of the others. -/
def leading (m : Nat) : ExtendedMantissa :=
  (⟨m, false, false⟩ : ExtendedMantissa) >>> (m.log2 - 52)

theorem shiftToTargetExponent_eq (hm : 2 ^ 52 ≤ m) (he : -1074 ≤ e) :
    shiftToTargetExponent .binary64 m e .exact =
      (leading m, e + (m.log2 - 52 : Nat)) := by
  have hlog : 52 ≤ m.log2 := (Nat.le_log2 (by omega)).mpr hm
  have htarget : (Format.targetExponent .binary64 (totalExponent m e) - e).toNat = m.log2 - 52 := by
    change (max ((m.log2 + 1 + e : Int) - (53 : Nat)) (-1074) - e).toNat = _
    omega
  unfold shiftToTargetExponent shiftToExponent
  simp only [htarget]
  rfl

end Shifts

/-- A full mantissa at an exponent at which it stands for a whole number. -/
structure WholeAt (m : Nat) (e : Int) : Prop where
  full : 2 ^ 52 ≤ m
  least : -1074 ≤ e
  units : 2 ^ (-e).toNat ∣ m

namespace WholeAt

variable {m k : Nat} {e : Int}

theorem div_lt (h : WholeAt m e) : m / 2 ^ (m.log2 - 52) < 2 ^ 53 := by
  have hlog : 52 ≤ m.log2 := (Nat.le_log2 (by have := h.full; omega)).mpr h.full
  apply Nat.div_lt_of_lt_mul
  rw [← Nat.pow_add, show m.log2 - 52 + 53 = m.log2 + 1 by omega]
  exact Nat.lt_log2_self

theorem le_div (h : WholeAt m e) : 2 ^ 52 ≤ m / 2 ^ (m.log2 - 52) := by
  have hne : m ≠ 0 := by
    have := h.full
    omega
  have hlog : 52 ≤ m.log2 := (Nat.le_log2 hne).mpr h.full
  rw [Nat.le_div_iff_mul_le (Nat.pow_pos (by decide)), ← Nat.pow_add,
    show 52 + (m.log2 - 52) = m.log2 by omega]
  exact Nat.log2_self_le hne

/-- Either all digits of the whole number are kept, or those that are dropped are zeros. -/
theorem drop (h : WholeAt m e) (k : Nat) :
    0 ≤ e + k ∨ 2 ^ k ∣ m ∧ 2 ^ (-(e + k)).toNat ∣ m / 2 ^ k := by
  by_cases hk : 0 ≤ e + k
  · exact .inl hk
  · right
    have hunits := h.units
    rw [show (-e).toNat = k + (-(e + k)).toNat by omega, Nat.pow_add] at hunits
    exact ⟨Nat.dvd_trans (Nat.dvd_mul_right _ _) hunits, Nat.dvd_div_of_mul_dvd hunits⟩

theorem units_of_nonneg (h : 0 ≤ e) (m : Nat) : 2 ^ (-e).toNat ∣ m := by
  rw [show (-e).toNat = 0 by omega]
  exact Nat.one_dvd m

theorem mantissa (h : WholeAt m e) :
    WholeAt (leading m).mantissa (e + (m.log2 - 52 : Nat)) := by
  have hleast := h.least
  rw [leading, mantissa_shiftRight]
  refine ⟨h.le_div, by omega, ?_⟩
  rcases h.drop (m.log2 - 52) with hnonneg | ⟨-, hunits⟩
  · exact units_of_nonneg hnonneg _
  · exact hunits

theorem rounded (h : WholeAt m e) :
    WholeAt (leading m).roundedMantissa (e + (m.log2 - 52 : Nat)) := by
  have hleast := h.least
  obtain ⟨hle, -⟩ := roundedMantissa_near (leading m)
  rw [leading, mantissa_shiftRight] at hle
  refine ⟨Nat.le_trans h.le_div hle, by omega, ?_⟩
  rcases h.drop (m.log2 - 52) with hnonneg | ⟨hzeros, hunits⟩
  · exact units_of_nonneg hnonneg _
  · rw [leading, shiftRight_exact hzeros]
    exact hunits

/-- What a whole number is rounded to is a whole number, with 53 digits in its mantissa. -/
theorem roundWithAccuracy (h : WholeAt m e) (s : Sign) :
    ∃ m' e' hpos, roundWithAccuracy .binary64 s m e .exact = .finite s m' e' hpos ∧
      WholeAt m' e' ∧ m' < 2 ^ 53 ∧ e ≤ e' := by
  have hfinal := h.rounded.mantissa
  have hpos : 0 < (leading (leading m).roundedMantissa).mantissa :=
    Nat.lt_of_lt_of_le (by decide) hfinal.full
  have hlt : (leading (leading m).roundedMantissa).mantissa < 2 ^ 53 := by
    rw [leading, mantissa_shiftRight]
    exact h.rounded.div_lt
  unfold UnpackedFloat.roundWithAccuracy
  rw [shiftToTargetExponent_eq h.full h.least]
  simp only
  rw [shiftToTargetExponent_eq h.rounded.full h.rounded.least]
  simp only
  rw [dif_neg (Nat.ne_of_gt hpos)]
  exact ⟨_, _, hpos, rfl, hfinal, hlt, by omega⟩

/-- A whole number that is too great for a double is packed as infinity. -/
theorem unpack_pack (h : WholeAt m e) (hlt : m < 2 ^ 53) (hpos : 0 < m) (s : Sign) :
    UnpackedFloat.unpack .binary64 (UnpackedFloat.pack .binary64 (.finite s m e hpos)) =
        .finite s m e hpos ∨
      UnpackedFloat.unpack .binary64 (UnpackedFloat.pack .binary64 (.finite s m e hpos)) =
        .infinity s := by
  by_cases hge : e ≤ 971
  · exact .inl (unpack_pack_finite s ⟨hpos, hlt, h.least, hge, .inl h.full⟩)
  · right
    have hbig : 2 ^ Format.binary64.exponentBits ≤ (e + (Format.binary64.exponentBias : Int) +
        (Format.binary64.mantissaBitsWithoutImplicit : Int)).toNat + 1 := by
      change 2 ^ 11 ≤ (e + 1023 + 52).toNat + 1
      omega
    unfold UnpackedFloat.pack
    simp only
    rw [if_pos hbig]
    cases s <;> rfl

end WholeAt

/-- What digits may be rounded to: a whole number that is not negative, or infinity. -/
inductive Unsigned : UnpackedFloat → Prop
  | zero : Unsigned (.zero .positive)
  | infinity : Unsigned (.infinity .positive)
  | finite {m : Nat} {e : Int} {h : 0 < m} :
      WholeAt m e → Unsigned (.finite .positive m e h)

section Digits

variable {m n : Nat} {e : Int}

/-- The double next to a whole number, and a bound for its exponent. -/
theorem unpack_pack_round (h : WholeAt m e) :
    let u := UnpackedFloat.unpack .binary64
      (UnpackedFloat.pack .binary64 (roundWithAccuracy .binary64 .positive m e .exact))
    u = .infinity .positive ∨
      ∃ m' e' hpos, u = .finite .positive m' e' hpos ∧ WholeAt m' e' ∧ e ≤ e' := by
  obtain ⟨m', e', hpos, heq, hwhole, hlt, hle⟩ := h.roundWithAccuracy .positive
  rw [heq]
  rcases hwhole.unpack_pack hlt hpos .positive with hfinite | hinfinite
  · exact .inr ⟨m', e', hpos, hfinite, hwhole, hle⟩
  · exact .inl hinfinite

theorem unpack_mul (x y : Float) :
    (x * y).toModel.unpack = UnpackedFloat.unpack .binary64
      (UnpackedFloat.pack .binary64
        (UnpackedFloat.mul .binary64 x.toModel.unpack y.toModel.unpack)) := rfl

theorem unpack_toFloat (hpos : 0 < n) (hlt : n < 2 ^ 53) :
    n.toUInt64.toFloat.toModel.unpack = .infinity .positive ∨
      ∃ m e h, n.toUInt64.toFloat.toModel.unpack = .finite .positive m e h ∧ WholeAt m e ∧
        -52 ≤ e := by
  have hlog : n.log2 ≤ 52 := Nat.le_of_lt_succ ((Nat.log2_lt (Nat.ne_of_gt hpos)).mpr hlt)
  have hround : UnpackedFloat.ofUInt64 .binary64 n.toUInt64 =
      roundWithAccuracy .binary64 .positive (n <<< (52 - n.log2)) (-(52 - n.log2 : Nat))
        .exact := by
    have hnat : n.toUInt64.toNat = n := by
      simp
      omega
    have hcompare : compare (n : Int) 0 = .gt := by
      rw [Int.compare_eq_gt]
      omega
    have htarget : Format.targetExponent .binary64 (totalExponent n 0) = -(52 - n.log2 : Nat) := by
      change max ((n.log2 + 1 + 0 : Int) - (53 : Nat)) (-1074) = _
      omega
    unfold UnpackedFloat.ofUInt64 UnpackedFloat.ofNat UnpackedFloat.ofInt UnpackedFloat.normalize
    rw [hnat, hcompare]
    simp only
    unfold UnpackedFloat.round UnpackedFloat.decreaseExponent
    simp only [Int.toNat_natCast, htarget]
    congr 2 <;> omega
  have hwhole : WholeAt (n <<< (52 - n.log2)) (-(52 - n.log2 : Nat)) := by
    rw [Nat.shiftLeft_eq]
    refine ⟨?_, by omega, ?_⟩
    · calc
        2 ^ 52 = 2 ^ n.log2 * 2 ^ (52 - n.log2) := by rw [← Nat.pow_add]; congr 1; omega
        _ ≤ n * 2 ^ (52 - n.log2) :=
          Nat.mul_le_mul_right _ (Nat.log2_self_le (Nat.ne_of_gt hpos))
    · rw [show (-(-(52 - n.log2 : Nat) : Int)).toNat = 52 - n.log2 by omega]
      exact Nat.dvd_mul_left _ _
  change UnpackedFloat.unpack .binary64
      (UnpackedFloat.pack .binary64 (UnpackedFloat.ofUInt64 .binary64 n.toUInt64)) = _ ∨ ∃ m e h,
    UnpackedFloat.unpack .binary64
      (UnpackedFloat.pack .binary64 (UnpackedFloat.ofUInt64 .binary64 n.toUInt64)) = _ ∧ _
  rw [hround]
  rcases unpack_pack_round hwhole with hinf | ⟨m', e', hpos', heq, hw, hle⟩
  · exact .inl hinf
  · exact .inr ⟨m', e', hpos', heq, hw, by omega⟩

theorem unsigned_mul_one {x : Float} (h : x.toModel.unpack = .infinity .positive ∨
    ∃ m e h, x.toModel.unpack = .finite .positive m e h ∧ WholeAt m e ∧ -52 ≤ e) :
    Unsigned (x * Float.ofBits 0x3FF0000000000000).toModel.unpack := by
  have hone : (Float.ofBits 0x3FF0000000000000).toModel.unpack =
      .finite .positive (2 ^ 52) (-52) (by decide) := by
    rfl
  rw [unpack_mul, hone]
  rcases h with h | ⟨m, e, hpos, h, hw, hle⟩
  · rw [h]
    exact .infinity
  · rw [h]
    have hfull := hw.full
    have hproduct : WholeAt (m * 2 ^ 52) (e + -52) := by
      refine ⟨by omega, by omega, ?_⟩
      have hdvd : 2 ^ ((-e).toNat + 52) ∣ m * 2 ^ 52 := by
        rw [Nat.pow_add]
        exact Nat.mul_dvd_mul_right hw.units _
      exact Nat.dvd_trans (Nat.pow_dvd_pow 2 (by omega)) hdvd
    rcases unpack_pack_round hproduct with hinf | ⟨m', e', hpos', heq, hw', -⟩
    · exact hinf ▸ .infinity
    · exact heq ▸ .finite hw'

theorem unsigned_ofScientific (hn : 2 ^ 53 ≤ n) :
    Unsigned (Float.Model.ofScientific n 0).unpack := by
  have hne : n ≠ 0 := by omega
  have hmul : UnpackedFloat.ofScientific .binary64 n 0 =
      roundWithAccuracy .binary64 .positive (n <<< 53 * 10 ^ 0) (-53 + 0) .exact := by
    have hlarge : ¬ (0 : Int) < -((2 ^ Format.binary64.exponentBits : Int) + n.log2) := by
      change ¬ (0 : Int) < -(2048 + (n.log2 : Int))
      omega
    unfold UnpackedFloat.ofScientific
    rw [dif_neg hne, if_neg (by decide), if_neg hlarge, if_pos (by decide)]
    rfl
  have hwhole : WholeAt (n <<< 53 * 10 ^ 0) (-53 + 0) := by
    rw [Nat.shiftLeft_eq, Nat.pow_zero, Nat.mul_one]
    exact ⟨by omega, by decide, Nat.dvd_mul_left _ _⟩
  change Unsigned (UnpackedFloat.unpack .binary64
    (UnpackedFloat.pack .binary64 (UnpackedFloat.ofScientific .binary64 n 0)))
  rw [hmul]
  rcases unpack_pack_round hwhole with hinf | ⟨m', e', hpos', heq, hw', -⟩
  · exact hinf ▸ .infinity
  · exact heq ▸ .finite hw'

/-- Natural numbers are rounded to whole numbers. -/
theorem unsigned_ofNat (n : Nat) : Unsigned (Float.ofNat n).toModel.unpack := by
  by_cases hzero : n = 0
  · rw [hzero]
    exact .zero
  · by_cases hn : n < 2 ^ 53
    · have heq : Float.ofNat n = n.toUInt64.toFloat * Float.ofBits 0x3FF0000000000000 :=
        dif_pos ⟨hn, by decide⟩
      rw [heq]
      exact unsigned_mul_one (unpack_toFloat (Nat.pos_of_ne_zero hzero) hn)
    · have heq : Float.ofNat n = Float.ofModel (Float.Model.ofScientific n 0) :=
        dif_neg fun h => hn h.1
      rw [heq]
      exact unsigned_ofScientific (Nat.le_of_not_lt hn)

end Digits

theorem whole?_isSome {m : Nat} {e : Int} (h : 2 ^ (-e).toNat ∣ m) :
    (Decimal.whole? m e).isSome = true := by
  unfold Decimal.whole?
  simp only [Nat.pow_eq]
  rw [if_pos (Nat.mod_eq_zero_of_dvd (Dvd.dvd.mul_right h _))]
  rfl

/-- No run of digits stands for a negative number. -/
theorem not_read_lt_zero (lexeme : String) : ¬ Decimal.read lexeme < 0 := by
  have hunsigned : Unsigned (Decimal.read lexeme).toModel.unpack := unsigned_ofNat _
  rw [lt_zero_iff]
  rintro (hu | ⟨m, e, hpos, hu⟩)
  · rw [hu] at hunsigned
    cases hunsigned
  · rw [hu] at hunsigned
    cases hunsigned

/-- A run of digits stands for a whole number, unless the number is too great. -/
theorem isWhole_read {lexeme : String} (h : (Decimal.read lexeme).isFinite = true) :
    IsWhole (Decimal.read lexeme) := by
  change (Decimal.read lexeme).toModel.unpack.isFinite = true at h
  have hunsigned : Unsigned (Decimal.read lexeme).toModel.unpack := unsigned_ofNat _
  unfold IsWhole
  cases hu : (Decimal.read lexeme).toModel.unpack with
  | notANumber => simp [hu, UnpackedFloat.isFinite] at h
  | infinity s => simp [hu, UnpackedFloat.isFinite] at h
  | zero s =>
    rw [hu] at hunsigned
    cases hunsigned
    simp
  | finite s m e hpos =>
    rw [hu] at hunsigned
    cases hunsigned with
    | finite hw => simpa using whole?_isSome hw.units

end Formulary
