import Formulary.Proofs.Decimal.Rounding

/-!
Zero added and one multiplied change nothing. A double is packed into the bits that it was taken
apart from, so a sum or a product that is one of its operands before rounding is that operand.
-/

namespace Formulary

open Float.Model (Format UnpackedFloat totalExponent)
open Float.Model.UnpackedFloat (Sign ExtendedMantissa packComponents unpackSign unpackExponent
  unpackMantissa roundWithAccuracy shiftToExponent shiftToTargetExponent)

section Packing

variable {b : BitVec Format.binary64.numBits} {s : Sign} {m : Nat} {e : Int}

theorem toBitVec_ofBitVec (b : BitVec 1) : (Sign.ofBitVec b).toBitVec = b := by
  revert b
  decide

/-- Bits are a sign, an exponent and a mantissa. -/
theorem packComponents_unpack (b : BitVec Format.binary64.numBits) :
    packComponents .binary64 (Sign.ofBitVec (unpackSign b)) (unpackExponent b)
      (unpackMantissa b) = b := by
  rw [packComponents, toBitVec_ofBitVec]
  ext i hi
  simp only [unpackSign, unpackExponent, unpackMantissa, BitVec.extractLsb]
  grind

theorem pack_normal (s : Sign) (h : Canonical m e) (hm : 2 ^ 52 ≤ m) :
    UnpackedFloat.pack .binary64 (.finite s m e h.pos) =
      packComponents .binary64 s (BitVec.ofNat 11 (e + 1075).toNat) (BitVec.ofNat 52 m) := by
  have hle := h.le
  have hge := h.ge
  have hlog : m.log2 = 52 := (Nat.log2_eq_iff (by omega)).mpr ⟨hm, h.lt⟩
  have hbias : (e + (Format.binary64.exponentBias : Int) +
      (Format.binary64.mantissaBitsWithoutImplicit : Int)).toNat = (e + 1075).toNat := by
    change (e + 1023 + 52).toNat = _
    omega
  have hfits : ¬ 2 ^ Format.binary64.exponentBits ≤ (e + 1075).toNat + 1 := by
    change ¬ 2 ^ 11 ≤ _
    omega
  unfold UnpackedFloat.pack
  simp only [hbias]
  rw [if_neg hfits, if_pos (by rw [hlog]; rfl)]

theorem pack_subnormal (s : Sign) (hpos : 0 < m) (hm : m < 2 ^ 52) :
    UnpackedFloat.pack .binary64 (.finite s m (-1074) hpos) =
      packComponents .binary64 s 0#11 (BitVec.ofNat 52 m) := by
  have hlog : m.log2 + 1 ≠ Format.binary64.mantissaBits := by
    have := (Nat.log2_lt (by omega)).mpr hm
    change _ ≠ 53
    omega
  unfold UnpackedFloat.pack
  simp only
  rw [if_neg (by decide), if_neg hlog]

/-- Nothing is lost when valid bits are taken apart: there is one NaN only. -/
theorem pack_unpack (hb : Format.binary64.Valid b) :
    UnpackedFloat.pack .binary64 (UnpackedFloat.unpack .binary64 b) = b := by
  obtain ⟨s, e, m, rfl⟩ : ∃ (s : Sign) (e : BitVec 11) (m : BitVec 52),
      b = packComponents .binary64 s e m := ⟨_, _, _, (packComponents_unpack b).symm⟩
  by_cases hones : e = -1#11
  · subst hones
    by_cases hm : m = 0#52
    · subst hm
      cases s <;> rfl
    · rw [hb.eq_packedNaN (by simp) (by simpa using hm)]
      rfl
  · by_cases hzero : e = 0#11
    · subst hzero
      by_cases hm : m = 0#52
      · subst hm
        cases s <;> rfl
      · have hpos : 0 < m.toNat :=
          Nat.pos_of_ne_zero fun h => hm (BitVec.eq_of_toNat_eq h)
        rw [unpack_subnormal s hpos, pack_subnormal s hpos m.isLt]
        simp
    · have hu := unpack_normal s m hones hzero
      have hc := canonical_of_unpack hu
      rw [hu, pack_normal s hc (by omega)]
      congr 1
      · have : e.toNat < 2 ^ 11 := e.isLt
        apply BitVec.eq_of_toNat_eq
        rw [BitVec.toNat_ofNat]
        omega
      · apply BitVec.eq_of_toNat_eq
        rw [BitVec.toNat_ofNat]
        omega

theorem ofModel_pack_unpack (x : Float) : .ofModel (.pack x.toModel.unpack) = x := by
  obtain ⟨⟨bits, hvalid⟩⟩ := x
  have hpack := pack_unpack hvalid
  simp only [Float.Model.pack, Float.Model.unpack, hpack]

end Packing

section Identities

variable {s : Sign} {m : Nat} {e : Int}

/-- The exponent of a double stays when zeros are put after its mantissa. -/
theorem shiftToTargetExponent_zeros (h : Canonical m e) (k : Nat) :
    shiftToTargetExponent .binary64 (2 ^ k * m) (-k + e) .exact = (⟨m, false, false⟩, e) := by
  have hne : m ≠ 0 := Nat.ne_of_gt h.pos
  have hlog : (2 ^ k * m).log2 = k + m.log2 := by
    rw [Nat.log2_eq_iff (by positivity), Nat.add_assoc, Nat.pow_add, Nat.pow_add 2 k]
    exact ⟨Nat.mul_le_mul_left _ (Nat.log2_self_le hne),
      Nat.mul_lt_mul_of_pos_left Nat.lt_log2_self (by positivity)⟩
  have htarget : (Format.targetExponent .binary64 (totalExponent (2 ^ k * m) (-k + e)) -
      (-k + e)).toNat = k := by
    change (max (((2 ^ k * m).log2 + 1 + (-k + e) : Int) - (53 : Nat)) (-1074) - (-k + e)).toNat = k
    have hle := h.le
    have hlt := (Nat.log2_lt hne).mpr h.lt
    rcases h.full with hfull | hleast
    · have := (Nat.le_log2 hne).mpr hfull
      omega
    · omega
  unfold shiftToTargetExponent shiftToExponent
  simp only [htarget]
  refine Prod.ext ?_ (by simp)
  refine (shiftRight_exact (Nat.dvd_mul_right (2 ^ k) m)).trans ?_
  rw [Nat.mul_div_cancel_left m (by positivity)]

theorem roundWithAccuracy_zeros (s : Sign) (h : Canonical m e) :
    roundWithAccuracy .binary64 s (2 ^ 52 * m) (-52 + e) .exact = .finite s m e h.pos := by
  have hfirst := shiftToTargetExponent_zeros h 52
  have hsecond := shiftToTargetExponent_zeros h 0
  rw [Nat.pow_zero, Nat.one_mul] at hsecond
  have hexponent : -((0 : Nat) : Int) + e = e := by omega
  rw [hexponent] at hsecond
  have hrounded : (⟨m, false, false⟩ : ExtendedMantissa).roundedMantissa = m := rfl
  unfold roundWithAccuracy
  rw [show (-52 : Int) = -((52 : Nat) : Int) from rfl, hfirst]
  simp only [hrounded, hsecond]
  exact dif_neg (Nat.ne_of_gt h.pos)

theorem zero_add_of_ne {x : Float} (h : (x == 0) = false) : 0 + x = x := by
  have hsum :
      UnpackedFloat.add .binary64 (.zero .positive) x.toModel.unpack = x.toModel.unpack := by
    change x.toModel.unpack.beq (.zero .positive) = false at h
    cases hu : x.toModel.unpack with
    | notANumber | infinity s | finite s m e hpos => rfl
    | zero s =>
      rw [hu] at h
      cases h
  change Float.ofModel (.pack (UnpackedFloat.add .binary64 (.zero .positive) x.toModel.unpack)) = x
  rw [hsum, ofModel_pack_unpack]

theorem one_mul_self (x : Float) : 1 * x = x := by
  have hproduct : UnpackedFloat.mul .binary64 (.finite .positive (2 ^ 52) (-52) (by decide))
      x.toModel.unpack = x.toModel.unpack := by
    cases hu : x.toModel.unpack with
    | notANumber => rfl
    | infinity s | zero s => cases s <;> rfl
    | finite s m e hpos =>
      cases s <;> exact roundWithAccuracy_zeros _ (canonical_of_unpack hu)
  change Float.ofModel (.pack (UnpackedFloat.mul .binary64
    (.finite .positive (2 ^ 52) (-52) (by decide)) x.toModel.unpack)) = x
  rw [hproduct, ofModel_pack_unpack]

end Identities

end Formulary
