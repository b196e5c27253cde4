import Mathlib
import Scriptlet.Proofs.Clearing

/-!
# Rounding of long mantissas

A number keeps fifty-three bits of its mantissa. A mantissa with more bits is shifted, and what falls
out decides whether the rest goes up by one. So the result is one of the two neighbours of the exact
value, and it is exact if only zeros fall out. The mantissas here have at least fifty-three bits, as
those of products and quotients have, and their exponents are far from the least one.

## Contents

- §1 shifting
- §2 rounding
- §3 packing
-/

namespace Scriptlet

open Float.Model (Format UnpackedFloat totalExponent)
open Float.Model.UnpackedFloat (Sign Accuracy ExtendedMantissa roundWithAccuracy
  shiftToTargetExponent shiftToExponent packComponents unpackSign)
open Float.Model.UnpackedFloat.ExtendedMantissa (ofMantissaAndAccuracy)

/-! ## §1 Shifting -/

theorem mantissa_shiftRight (em : ExtendedMantissa) (k : Nat) :
    (em >>> k).mantissa = em.mantissa / 2 ^ k := by
  induction k with
  | zero =>
    rw [pow_zero, Nat.div_one]
    rfl
  | succ k ih =>
    change (em >>> k).mantissa / 2 = _
    rw [ih, Nat.div_div_eq_div_mul, pow_succ]

/-- Zeros that fall out leave no trace. -/
theorem shiftRight_exact (v k : Nat) :
    (⟨v * 2 ^ k, false, false⟩ : ExtendedMantissa) >>> k = ⟨v, false, false⟩ := by
  induction k generalizing v with
  -- one shift for each factor two: the last of them drops a zero as well
  | zero =>
    rw [pow_zero, mul_one]
    rfl
  | succ k ih =>
    have hshift := ih (v * 2)
    rw [mul_assoc, ← pow_succ'] at hshift
    change ((⟨v * 2 ^ (k + 1), false, false⟩ : ExtendedMantissa) >>> k).shiftRightOne = _
    rw [hshift]
    simp [ExtendedMantissa.shiftRightOne]

theorem roundedMantissa_neighbour (em : ExtendedMantissa) :
    em.roundedMantissa = em.mantissa ∨ em.roundedMantissa = em.mantissa + 1 := by
  rcases em with ⟨m, round, sticky⟩
  cases round <;> cases sticky <;>
    simp [ExtendedMantissa.roundedMantissa, ExtendedMantissa.accuracy,
      Accuracy.roundToNearestEven]
  omega

theorem mantissa_ofMantissaAndAccuracy (m : Nat) (a : Accuracy) :
    (ofMantissaAndAccuracy m a).mantissa = m := by
  cases a with
  | exact => rfl
  | inexact o => cases o <;> rfl

/-- The number of bits that a mantissa has too many. -/
def surplus (m : Nat) : Nat := m.log2 - 52

section

variable {m : Nat}

theorem log2_eq_surplus (hm : 2 ^ 52 ≤ m) : m.log2 = surplus m + 52 := by
  have hlog : 52 ≤ m.log2 := (Nat.le_log2 (by omega)).mpr hm
  unfold surplus
  omega

/-- Without the surplus there are fifty-three bits. -/
theorem div_surplus_bounds (hm : 2 ^ 52 ≤ m) :
    2 ^ 52 ≤ m / 2 ^ surplus m ∧ m / 2 ^ surplus m < 2 ^ 53 := by
  have hpos : 0 < 2 ^ surplus m := by positivity
  -- the surplus is by how much the logarithm exceeds that of fifty-three bits
  have hlow := Nat.log2_self_le (n := m) (by omega)
  have hhigh := Nat.lt_log2_self (n := m)
  rw [log2_eq_surplus hm] at hlow hhigh
  constructor
  · rw [Nat.le_div_iff_mul_le hpos, ← pow_add, Nat.add_comm]
    exact hlow
  · rw [Nat.div_lt_iff_lt_mul hpos, ← pow_add]
    apply hhigh.trans_eq
    congr 1
    omega

/-- A mantissa of the right length is not shifted. -/
theorem surplus_eq_zero (hm : m < 2 ^ 53) : surplus m = 0 := by
  unfold surplus
  by_cases hzero : m = 0
  · rw [hzero]
    rfl
  · have := (Nat.log2_lt hzero).mpr hm
    omega

theorem shiftToTargetExponent_long {e : Int} (a : Accuracy) (hm : 2 ^ 52 ≤ m)
    (he : -1074 ≤ e + surplus m) :
    shiftToTargetExponent Format.binary64 m e a
      = (ofMantissaAndAccuracy m a >>> surplus m, e + surplus m) := by
  have htarget : Format.binary64.targetExponent (totalExponent m e) = e + surplus m := by
    have hmin : Format.binary64.minExponent = -1074 := rfl
    have hbits : Format.binary64.mantissaBits = 53 := rfl
    simp only [Format.targetExponent, totalExponent, hmin, hbits, log2_eq_surplus hm]
    omega
  have hshift : (e + surplus m - e).toNat = surplus m := by omega
  simp only [shiftToTargetExponent, htarget, shiftToExponent, hshift]

/-! ## §2 Rounding -/

/-- A mantissa after rounding: the carry of a mantissa of ones takes one bit more. -/
theorem shiftToTargetExponent_carry {e : Int} (hlow : 2 ^ 52 ≤ m) (hhigh : m ≤ 2 ^ 53)
    (he : -1074 ≤ e) :
    ∃ c r : Nat, shiftToTargetExponent Format.binary64 m e .exact = (⟨r, false, false⟩, e + c) ∧
      c ≤ 1 ∧ 2 ^ 52 ≤ r ∧ r < 2 ^ 53 ∧ m = r * 2 ^ c := by
  rw [shiftToTargetExponent_long .exact hlow (by omega)]
  -- only a mantissa of ones carries into a new bit
  rcases hhigh.lt_or_eq with hshort | rfl
  · refine ⟨0, m, ?_, by norm_num, hlow, hshort, by rw [pow_zero, mul_one]⟩
    rw [surplus_eq_zero hshort]
    rfl
  · refine ⟨1, 2 ^ 52, ?_, le_rfl, le_rfl, by norm_num, by norm_num⟩
    rw [surplus, Nat.log2_two_pow]
    rfl

/-- A long mantissa is shifted until it has fifty-three bits, and rounded there. -/
theorem roundWithAccuracy_long (s : Sign) {e : Int} (a : Accuracy) (hm : 2 ^ 52 ≤ m)
    (he : -1074 ≤ e + surplus m) :
    ∃ (c r : Nat) (hr : 0 < r),
      roundWithAccuracy Format.binary64 s m e a = .finite s r (e + surplus m + c) hr ∧
      c ≤ 1 ∧ 2 ^ 52 ≤ r ∧ r < 2 ^ 53 ∧
      (ofMantissaAndAccuracy m a >>> surplus m).roundedMantissa = r * 2 ^ c := by
  have hbounds := div_surplus_bounds hm
  -- what the shift leaves is the quotient or its successor, and may carry once
  have hneighbour := roundedMantissa_neighbour (ofMantissaAndAccuracy m a >>> surplus m)
  rw [mantissa_shiftRight, mantissa_ofMantissaAndAccuracy] at hneighbour
  obtain ⟨c, r, hcarry, hc, hlow, hhigh, heq⟩ :=
    shiftToTargetExponent_carry
      (m := (ofMantissaAndAccuracy m a >>> surplus m).roundedMantissa) (by omega) (by omega) he
  have hr : 0 < r := by omega
  refine ⟨c, r, hr, ?_, hc, hlow, hhigh, heq⟩
  unfold roundWithAccuracy
  simp only [shiftToTargetExponent_long a hm he, hcarry, hr.ne', ↓reduceDIte]

theorem log2_mul_pow {v : Nat} (hv : v ≠ 0) (k : Nat) : (v * 2 ^ k).log2 = v.log2 + k := by
  have hpos : 0 < 2 ^ k := by positivity
  rw [Nat.log2_eq_iff (Nat.mul_ne_zero hv hpos.ne')]
  constructor
  · rw [pow_add]
    exact Nat.mul_le_mul_right _ (Nat.log2_self_le hv)
  · rw [add_right_comm, pow_add]
    exact Nat.mul_lt_mul_of_pos_right Nat.lt_log2_self hpos

/-- A number of at most fifty-three bits stays what it is, whatever power of two it was scaled by. -/
theorem roundWithAccuracy_exact (s : Sign) {v k : Nat} (hv : v < 2 ^ 53) (hm : 2 ^ 52 ≤ v * 2 ^ k) :
    ∃ (j : Nat) (hr : 0 < v * 2 ^ j),
      roundWithAccuracy Format.binary64 s (v * 2 ^ k) (-(k : Int)) .exact
        = .finite s (v * 2 ^ j) (-(j : Int)) hr ∧
      2 ^ 52 ≤ v * 2 ^ j ∧ v * 2 ^ j < 2 ^ 53 := by
  have hzero : v ≠ 0 := by
    rintro rfl
    omega
  have hlog := log2_mul_pow hzero k
  have hsmall : v.log2 < 53 := (Nat.log2_lt hzero).mpr hv
  have hsurplus := log2_eq_surplus hm
  -- the surplus falls out, and nothing but zeros with it
  obtain ⟨j, hj⟩ : ∃ j, j + surplus (v * 2 ^ k) = k := ⟨52 - v.log2, by omega⟩
  have hsplit : v * 2 ^ k = v * 2 ^ j * 2 ^ surplus (v * 2 ^ k) := by
    rw [mul_assoc, ← pow_add, hj]
  have hexact : ofMantissaAndAccuracy (v * 2 ^ k) .exact >>> surplus (v * 2 ^ k)
      = ⟨v * 2 ^ j, false, false⟩ := by
    change (⟨v * 2 ^ k, false, false⟩ : ExtendedMantissa) >>> surplus (v * 2 ^ k) = _
    nth_rewrite 1 [hsplit]
    exact shiftRight_exact ..
  have hbounds := div_surplus_bounds hm
  rw [Nat.div_eq_of_eq_mul_left (by positivity) hsplit] at hbounds
  obtain ⟨c, r, hr, hround, -, hlow, -, hmantissa⟩ :=
    roundWithAccuracy_long s (e := -(k : Int)) .exact hm (by omega)
  rw [hexact] at hmantissa
  change v * 2 ^ j = r * 2 ^ c at hmantissa
  have hc : c = 0 := by
    by_contra hne
    have htwo : 2 ^ 1 ≤ 2 ^ c := Nat.pow_le_pow_right (by norm_num) (by omega)
    have := Nat.mul_le_mul_left r htwo
    omega
  subst hc
  rw [pow_zero, mul_one] at hmantissa
  subst hmantissa
  refine ⟨j, hr, ?_, hbounds⟩
  rw [hround]
  congr 1
  omega

end

/-! ## §3 Packing -/

@[simp]
theorem unpackSign_packComponents {s : Sign} {e : BitVec 11} {m : BitVec 52} :
    @unpackSign Format.binary64 (packComponents Format.binary64 s e m) = s.toBitVec := by
  -- as natural numbers: the sign is what is left above the sixty-three bits
  apply BitVec.eq_of_toNat_eq
  rw [toNat_unpackSign]
  change (s.toBitVec ++ e ++ m).toNat / 2 ^ 63 = _
  have hm := m.isLt
  have he := e.isLt
  rw [BitVec.toNat_append, BitVec.toNat_append, ← Nat.shiftLeft_add_eq_or_of_lt hm,
    ← Nat.shiftLeft_add_eq_or_of_lt he, Nat.shiftLeft_eq, Nat.shiftLeft_eq]
  omega

@[simp]
theorem ofBitVec_toBitVec (s : Sign) : Sign.ofBitVec s.toBitVec = s := by
  cases s <;> rfl

/-- The leading bit, which is not stored, is put back. -/
theorem toNat_leading {m : Nat} (hlow : 2 ^ 52 ≤ m) (hhigh : m < 2 ^ 53) :
    (1#1 ++ BitVec.ofNat 52 m).toNat = m := by
  rw [BitVec.toNat_append, ← Nat.shiftLeft_add_eq_or_of_lt (BitVec.isLt _), BitVec.toNat_ofNat]
  change 2 ^ 52 + m % 2 ^ 52 = m
  omega

/-- A finite number with fifty-three bits and an exponent in range is kept as it is. -/
theorem unpack_pack_normal {s : Sign} {m : Nat} {e : Int} {hm : 0 < m} (hlow : 2 ^ 52 ≤ m)
    (hhigh : m < 2 ^ 53) (hleast : -1074 ≤ e) (hgreatest : e ≤ 971) :
    (Float.Model.pack (.finite s m e hm)).unpack = .finite s m e hm := by
  have hlog : m.log2 + 1 = Format.binary64.mantissaBits := by
    rw [log2_eq_surplus hlow, surplus_eq_zero hhigh]
    rfl
  -- the exponent bits are neither all ones nor all zeros
  obtain ⟨b, hb⟩ : ∃ b : Nat, (b : Int) = e + 1075 := ⟨(e + 1075).toNat, by omega⟩
  have hbits : (BitVec.ofNat 11 b).toNat = b := Nat.mod_eq_of_lt (by omega)
  have hones : BitVec.ofNat 11 b ≠ -1#11 := by bv_omega
  have hzeros : BitVec.ofNat 11 b ≠ 0#11 := by bv_omega
  have hpack : UnpackedFloat.pack Format.binary64 (.finite s m e hm)
      = packComponents Format.binary64 s (BitVec.ofNat 11 b) (BitVec.ofNat 52 m) := by
    have hbiased : (e + Format.binary64.exponentBias + Format.binary64.mantissaBitsWithoutImplicit).toNat
        = b := by
      change (e + 1023 + 52).toNat = b
      omega
    unfold UnpackedFloat.pack
    simp only [hbiased, hlog, ↓reduceIte]
    rw [if_neg (by omega)]
  change UnpackedFloat.unpack Format.binary64 (UnpackedFloat.pack Format.binary64 _) = _
  rw [hpack]
  unfold UnpackedFloat.unpack
  simp only [Float.Model.UnpackedFloat.unpackExponent_packComponents,
    Float.Model.UnpackedFloat.unpackMantissa_packComponents, unpackSign_packComponents,
    ofBitVec_toBitVec, hones, hzeros, ↓reduceIte, toNat_leading hlow hhigh, hbits]
  congr 1
  change (b : Int) - 1075 = e
  omega

end Scriptlet
