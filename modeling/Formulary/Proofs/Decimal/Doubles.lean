import Mathlib
import Formulary.Decimal.Numeral

/-!
Doubles taken apart and put together again. A sign, a mantissa and an exponent in the form that
doubles are kept in survive being packed into bits, and so does what is taken out of them.
-/

namespace Formulary

open Float.Model (Format UnpackedFloat)
open Float.Model.UnpackedFloat (Sign packComponents unpackSign unpackExponent unpackMantissa)

/-- A mantissa and an exponent of a double as it is kept: the mantissa is full, unless the exponent
can fall no lower. -/
structure Canonical (m : Nat) (e : Int) : Prop where
  pos : 0 < m
  lt : m < 2 ^ 53
  le : -1074 ≤ e
  ge : e ≤ 971
  full : 2 ^ 52 ≤ m ∨ e = -1074

section Components

variable {s : Sign} {m : Nat} {e : Int}

theorem unpackSign_packComponents {spec : Format} (s : Sign) (e : BitVec spec.exponentBits)
    (m : BitVec spec.mantissaBitsWithoutImplicit) :
    unpackSign (packComponents spec s e m) = s.toBitVec := by
  change (BitVec.extractLsb _ _ (s.toBitVec ++ e ++ m)).cast _ = _
  ext i hi
  obtain rfl : i = 0 := by omega
  simp [BitVec.getLsbD_append, BitVec.getElem_append]

theorem ofBitVec_toBitVec (s : Sign) : Sign.ofBitVec s.toBitVec = s := by
  cases s <;> rfl

theorem toNat_one_append (m : BitVec 52) : (1#1 ++ m).toNat = 2 ^ 52 + m.toNat := by
  rw [BitVec.toNat_append, ← Nat.shiftLeft_add_eq_or_of_lt m.isLt]
  simp [Nat.shiftLeft_eq]

theorem unpack_normal (s : Sign) {e : BitVec 11} (m : BitVec 52) (hones : e ≠ -1#11)
    (hzero : e ≠ 0#11) :
    UnpackedFloat.unpack .binary64 (packComponents .binary64 s e m) =
      .finite s (2 ^ 52 + m.toNat) (e.toNat - 1075) (by omega) := by
  unfold UnpackedFloat.unpack
  simp only [UnpackedFloat.unpackMantissa_packComponents,
    UnpackedFloat.unpackExponent_packComponents, unpackSign_packComponents, ofBitVec_toBitVec]
  rw [if_neg hones, if_neg hzero]
  simp only [UnpackedFloat.finite.injEq, true_and]
  exact ⟨toNat_one_append m, rfl⟩

theorem unpack_subnormal (s : Sign) {m : BitVec 52} (hpos : 0 < m.toNat) :
    UnpackedFloat.unpack .binary64 (packComponents .binary64 s 0#11 m) =
      .finite s m.toNat (-1074) hpos := by
  have hne : m ≠ 0#52 := by
    rintro rfl
    simp at hpos
  unfold UnpackedFloat.unpack
  simp only [UnpackedFloat.unpackMantissa_packComponents,
    UnpackedFloat.unpackExponent_packComponents, unpackSign_packComponents, ofBitVec_toBitVec]
  rw [if_neg (by decide), if_pos trivial, dif_neg hne]
  rfl

end Components

/-- What is kept as it is comes back as it was. -/
theorem unpack_pack_finite (s : Sign) {m : Nat} {e : Int} (h : Canonical m e) :
    UnpackedFloat.unpack .binary64 (UnpackedFloat.pack .binary64 (.finite s m e h.pos)) =
      .finite s m e h.pos := by
  obtain ⟨hpos, hlt, hle, hge, hfull⟩ := h
  have hbias : (e + (Format.binary64.exponentBias : Int) +
      (Format.binary64.mantissaBitsWithoutImplicit : Int)).toNat = (e + 1075).toNat := by
    change (e + 1023 + 52).toNat = _
    omega
  have hfits : ¬ 2 ^ Format.binary64.exponentBits ≤ (e + 1075).toNat + 1 := by
    change ¬ 2 ^ 11 ≤ _
    omega
  unfold UnpackedFloat.pack
  simp only [hbias]
  rw [if_neg hfits]
  by_cases hm : 2 ^ 52 ≤ m
  · have hlog : m.log2 = 52 := (Nat.log2_eq_iff (by omega)).mpr ⟨hm, hlt⟩
    have hexp : (BitVec.ofNat 11 (e + 1075).toNat).toNat = (e + 1075).toNat := by
      rw [BitVec.toNat_ofNat]
      omega
    have hmant : (BitVec.ofNat 52 m).toNat = m - 2 ^ 52 := by
      rw [BitVec.toNat_ofNat]
      omega
    rw [if_pos (by rw [hlog]; rfl)]
    refine (unpack_normal s _ ?_ ?_).trans ?_
    · intro h
      have := congrArg BitVec.toNat h
      rw [hexp] at this
      simp at this
      omega
    · intro h
      have := congrArg BitVec.toNat h
      rw [hexp] at this
      simp at this
      omega
    · simp only [UnpackedFloat.finite.injEq, true_and]
      rw [hmant, hexp]
      omega
  · have hlog : m.log2 + 1 ≠ Format.binary64.mantissaBits := by
      have := (Nat.log2_lt (by omega)).mpr (Nat.lt_of_not_le hm)
      change _ ≠ 53
      omega
    have hmant : (BitVec.ofNat 52 m).toNat = m := by
      rw [BitVec.toNat_ofNat]
      omega
    rw [if_neg hlog]
    refine (unpack_subnormal s (by rw [hmant]; exact hpos)).trans ?_
    simp only [UnpackedFloat.finite.injEq, true_and]
    exact ⟨hmant, (hfull.resolve_left hm).symm⟩

/-- What is taken out of a double has the form that doubles are kept in. -/
theorem canonical_of_unpack {b : BitVec Format.binary64.numBits} {s : Sign} {m : Nat} {e : Int}
    {h : 0 < m} (hu : UnpackedFloat.unpack .binary64 b = .finite s m e h) : Canonical m e := by
  have hexp : (unpackExponent b).toNat < 2 ^ 11 := (unpackExponent b).isLt
  have hmant : (unpackMantissa b).toNat < 2 ^ 52 := (unpackMantissa b).isLt
  have hbias : ((Format.binary64.exponentBias : Nat) : Int) = 1023 := rfl
  have hbits : ((Format.binary64.mantissaBitsWithoutImplicit : Nat) : Int) = 52 := rfl
  unfold UnpackedFloat.unpack at hu
  simp only at hu
  split at hu
  · split at hu <;> simp at hu
  rename_i hones
  split at hu
  · rename_i hzero
    split at hu
    · simp at hu
    · simp only [UnpackedFloat.finite.injEq] at hu
      obtain ⟨-, rfl, rfl⟩ := hu
      have : (unpackExponent b).toNat = 0 := by
        rw [hzero]
        rfl
      have hleast : (((unpackExponent b).toNat : Int) - ((Format.binary64.exponentBias : Nat) +
          (Format.binary64.mantissaBitsWithoutImplicit : Nat)) + 1) = -1074 := by
        rw [this, hbias, hbits]
        rfl
      rw [hleast]
      exact ⟨h, by omega, by omega, by omega, .inr rfl⟩
  · rename_i hzero
    simp only [UnpackedFloat.finite.injEq] at hu
    obtain ⟨-, rfl, rfl⟩ := hu
    have hone : (1#1 ++ unpackMantissa b).toNat = 2 ^ 52 + (unpackMantissa b).toNat :=
      toNat_one_append _
    have hmost : (unpackExponent b).toNat ≠ 2047 := fun h =>
      hones (BitVec.eq_of_toNat_eq (by simpa using h))
    have hleast : (unpackExponent b).toNat ≠ 0 := fun h =>
      hzero (BitVec.eq_of_toNat_eq (by simpa using h))
    refine ⟨h, ?_, ?_, ?_, .inl ?_⟩
    · omega
    · simp only [hbias, hbits]
      omega
    · simp only [hbias, hbits]
      omega
    · omega

/-- A double with its sign changed is taken apart into the same parts. -/
theorem unpack_neg (x : Float) : (-x).toModel.unpack = x.toModel.unpack.neg := by
  change UnpackedFloat.unpack .binary64 (UnpackedFloat.pack .binary64 x.toModel.unpack.neg) = _
  cases hu : x.toModel.unpack with
  | notANumber => rfl
  | infinity s => cases s <;> rfl
  | zero s => cases s <;> rfl
  | finite s m e h => exact unpack_pack_finite (-s) (canonical_of_unpack hu)

theorem unpack_zero : (0 : Float).toModel.unpack = .zero .positive := rfl

theorem lt_iff (x y : Float) : x < y ↔ x.toModel.unpack.lt y.toModel.unpack = true := by
  change decide (x.toModel.unpack.lt y.toModel.unpack = true) = true ↔ _
  exact decide_eq_true_iff

/-- The negative numbers are those with the sign, zero aside. -/
theorem lt_zero_iff (x : Float) :
    x < 0 ↔ x.toModel.unpack = .infinity .negative ∨
      ∃ m e h, x.toModel.unpack = .finite .negative m e h := by
  rw [lt_iff, unpack_zero]
  cases x.toModel.unpack with
  | notANumber => simp [UnpackedFloat.lt, UnpackedFloat.compare]
  | infinity s => cases s <;> simp [UnpackedFloat.lt, UnpackedFloat.compare]
  | zero s => simp [UnpackedFloat.lt, UnpackedFloat.compare]
  | finite s m e h => cases s <;> simp [UnpackedFloat.lt, UnpackedFloat.compare, h]

end Formulary
