import Mathlib
import Scriptlet.Assembly.Emit
import Scriptlet.Proofs.Rounding

/-!
# Whole numbers among floating-point numbers

Whole numbers of at most fifty-three bits are numbers. A sum or difference of two of them is exact if
it has no more bits. A product or quotient may have been rounded, but not if the result is such a
number: a product that is too long ends in zeros, and a quotient that is not whole is further from the
nearest whole number than rounding moves it.

## Contents

- §1 whole numbers
- §2 reading a number
- §3 exact results
- §4 order
-/

namespace Scriptlet

open Float.Model (Format UnpackedFloat totalExponent)
open Float.Model.UnpackedFloat (Sign Accuracy roundWithAccuracy unpackExponent unpackMantissa
  unpackSign unpack decreaseExponent)
open Float.Model.UnpackedFloat.ExtendedMantissa (ofMantissaAndAccuracy)
open Assembly

/-! ## §1 Whole numbers -/

/-- The number is the integer, and has the mantissa and exponent that numbers are kept with. -/
inductive Whole : UnpackedFloat → Int → Prop
  | zero (s : Sign) : Whole (.zero s) 0
  | finite {s : Sign} {m : Nat} {e n : Int} {hm : 0 < m} (v j : Nat) (hlow : 2 ^ 52 ≤ m)
      (hhigh : m < 2 ^ 53) (hmantissa : m = v * 2 ^ j) (hexponent : e = -(j : Int))
      (hvalue : n = s.apply v) : Whole (.finite s m e hm) n

namespace Whole

variable {f : UnpackedFloat} {n k : Int}

/-- A float is one whole number only. -/
theorem unique (hn : Whole f n) (hk : Whole f k) : n = k := by
  cases hn with
  | zero => cases hk; rfl
  | finite v j _ _ hmantissa hexponent hvalue =>
    cases hk with
    | finite w i _ _ hmantissa' hexponent' hvalue' =>
      obtain rfl : j = i := by omega
      have hpos : 0 < 2 ^ j := by positivity
      obtain rfl : v = w := Nat.eq_of_mul_eq_mul_right hpos (hmantissa.symm.trans hmantissa')
      exact hvalue.trans hvalue'.symm

/-- The exponent is between that of the unit and that of the greatest number. -/
theorem shift_le {m v j : Nat} (hlow : 2 ^ 52 ≤ m) (hhigh : m < 2 ^ 53) (hm : m = v * 2 ^ j) :
    j ≤ 52 := by
  by_contra hlarge
  have hv : 0 < v := by
    rcases Nat.eq_zero_or_pos v with rfl | hv
    · omega
    · exact hv
  have hpow : 2 ^ 53 ≤ 2 ^ j := Nat.pow_le_pow_right (by norm_num) (by omega)
  have := Nat.le_mul_of_pos_left (2 ^ j) hv
  omega

/-- Packing a whole number and unpacking it again loses nothing. -/
theorem unpack_pack (h : Whole f n) : (Float.Model.pack f).unpack = f := by
  cases h with
  | zero s => cases s <;> rfl
  | finite v j hlow hhigh hmantissa hexponent _ =>
    have := shift_le hlow hhigh hmantissa
    exact unpack_pack_normal hlow hhigh (by omega) (by omega)

end Whole

/-! ## §2 Reading a number -/

/-- What unpacking finds, as reading the bits says it. -/
def classOf (narrow : Bool) : UnpackedFloat → Decimal.Class
  | .notANumber => .nan
  | .infinity s => .infinite (s == .negative)
  | .zero s => .zero (s == .negative)
  | .finite s m e _ => .finite (s == .negative) ⟨m, e, narrow⟩

theorem sign_of_bit (b : BitVec 1) : (Sign.ofBitVec b == .negative) = (b.toNat == 1) := by
  revert b
  decide

theorem toNat_beq_of_ne {w n : Nat} {b : BitVec w} (hne : b ≠ BitVec.ofNat w n) (hn : n < 2 ^ w) :
    (b.toNat == n) = false := by
  rw [beq_eq_false_iff_ne]
  rintro rfl
  exact hne (BitVec.eq_of_toNat_eq (Nat.mod_eq_of_lt hn).symm)

/-- The bits are read in the same way as they are unpacked. -/
theorem classify_eq (x : Float) : ∃ narrow, Decimal.classify x = classOf narrow x.toModel.unpack := by
  have hparts : ∀ s e m : Nat, s = x.toBits.toNat / 2 ^ 63 → e = x.toBits.toNat / 2 ^ 52 % 2 ^ 11 →
      m = x.toBits.toNat % 2 ^ 52 → Decimal.classify x
        = if e == 2047 then if m == 0 then .infinite (s == 1) else .nan
          else if e == 0 then
            if m == 0 then .zero (s == 1) else .finite (s == 1) ⟨m, -1074, false⟩
          else .finite (s == 1) ⟨2 ^ 52 + m, (e : Int) - 1075, m == 0 && e > 1⟩ := by
    rintro _ _ _ rfl rfl rfl
    rfl
  have hclass := hparts _ _ _ (toNat_unpackSign x.toBits.toBitVec)
    (toNat_unpackExponent x.toBits.toBitVec) (toNat_unpackMantissa x.toBits.toBitVec)
  rw [← sign_of_bit] at hclass
  change ∃ narrow, _ = classOf narrow (unpack Format.binary64 x.toBits.toBitVec)
  unfold unpack
  simp only
  -- the greatest exponent and the least one are special, all others have the leading bit
  split
  · next hmax =>
    rw [hmax] at hclass
    split
    · next hzero =>
      rw [hzero] at hclass
      exact ⟨false, hclass⟩
    · next hzero =>
      rw [toNat_beq_of_ne (n := 0) hzero (by norm_num)] at hclass
      exact ⟨false, hclass⟩
  · next hmax =>
    rw [toNat_beq_of_ne (n := 2047) hmax (by norm_num)] at hclass
    split
    · next hmin =>
      rw [hmin] at hclass
      split
      · next hzero =>
        rw [hzero] at hclass
        exact ⟨false, hclass⟩
      · next hzero =>
        rw [toNat_beq_of_ne (n := 0) hzero (by norm_num)] at hclass
        refine ⟨false, hclass.trans ?_⟩
        rw [classOf, hmin]
        rfl
    · next hmin =>
      rw [toNat_beq_of_ne (n := 0) hmin (by norm_num)] at hclass
      refine ⟨(@unpackMantissa Format.binary64 x.toBits.toBitVec).toNat == 0
        && decide ((@unpackExponent Format.binary64 x.toBits.toBitVec).toNat > 1), hclass.trans ?_⟩
      have hleading : (1#1 ++ @unpackMantissa Format.binary64 x.toBits.toBitVec).toNat
          = 2 ^ 52 + (@unpackMantissa Format.binary64 x.toBits.toBitVec).toNat := by
        rw [BitVec.toNat_append, ← Nat.shiftLeft_add_eq_or_of_lt (BitVec.isLt _)]
        rfl
      rw [classOf, hleading]
      rfl

/-- Unpacked mantissas have fifty-three bits, apart from those of the least numbers. -/
theorem unpack_shape {b : BitVec 64} {s : Sign} {m : Nat} {e : Int} {hm : 0 < m}
    (h : unpack Format.binary64 b = .finite s m e hm) :
    m < 2 ^ 53 ∧ (2 ^ 52 ≤ m ∨ e = -1074) := by
  have hbits : (@unpackMantissa Format.binary64 b).toNat < 2 ^ 52 := BitVec.isLt _
  unfold unpack at h
  simp only at h
  split at h
  -- the cases of the exponent field: all ones, zero, and any other
  · split at h <;> cases h
  · split at h
    · next hmin =>
      split at h
      · cases h
      · injection h with _ hmantissa hexponent
        rw [hmin] at hexponent
        exact ⟨by omega, .inr hexponent.symm⟩
    · injection h with _ hmantissa _
      rw [BitVec.toNat_append, ← Nat.shiftLeft_add_eq_or_of_lt (BitVec.isLt _)] at hmantissa
      change 2 ^ 52 + (@unpackMantissa Format.binary64 b).toNat = m at hmantissa
      exact ⟨by omega, .inl (by omega)⟩

/-- A number read as an integer of at most fifty-three bits is that integer. -/
theorem whole_of_integer? {x : Float} {n : Int} (h : Emit.integer? x = some n)
    (hn : n.natAbs < 2 ^ 53) : Whole x.toModel.unpack n := by
  obtain ⟨narrow, hclass⟩ := classify_eq x
  unfold Emit.integer? at h
  rw [hclass] at h
  generalize hf : x.toModel.unpack = f at h
  cases f with
  -- only a finite number is an integer, and only one whose fraction is empty
  | notANumber => cases h
  | infinity s => cases h
  | zero s =>
    cases h
    exact .zero s
  | finite s m e hm =>
    obtain ⟨hhigh, hlow⟩ := unpack_shape hf
    simp only [classOf, Nat.pow_eq] at h
    split at h
    · next hmod =>
      have hvalue : n = s.apply (m * 2 ^ e.toNat / 2 ^ (-e).toNat : Nat) := by
        cases s <;> exact (Option.some.inj h).symm
      have hsize : n.natAbs = m * 2 ^ e.toNat / 2 ^ (-e).toNat := by
        rw [hvalue]
        cases s <;> simp only [Sign.apply, Int.natAbs_neg, Int.natAbs_natCast]
      rcases Int.lt_or_le 0 e with hpos | hneg
      · -- with a positive exponent the integer would be too large
        have htwo : 2 ^ 1 ≤ 2 ^ e.toNat := Nat.pow_le_pow_right (by norm_num) (by omega)
        have hlarge := Nat.mul_le_mul_left m htwo
        rw [show (-e).toNat = 0 by omega, pow_zero, Nat.div_one] at hsize
        omega
      · rw [show e.toNat = 0 by omega, pow_zero, mul_one] at hmod hvalue
        have hmantissa := (Nat.div_mul_cancel (Nat.dvd_of_mod_eq_zero hmod)).symm
        refine .finite _ (-e).toNat ?_ hhigh hmantissa (by omega) hvalue
        rcases hlow with hlow | hleast
        · exact hlow
        · -- the least numbers are below one
          exfalso
          have hpow : 2 ^ 53 ≤ 2 ^ (-e).toNat := Nat.pow_le_pow_right (by norm_num) (by omega)
          have := Nat.le_of_dvd hm (Nat.dvd_of_mod_eq_zero hmod)
          omega
    · cases h

/-! ## §3 Exact results -/

theorem Sign.apply_mul (s : Sign) (a b : Int) : s.apply (a * b) = s.apply a * b := by
  cases s with
  | positive => rfl
  | negative => exact (Int.neg_mul a b).symm

/-- Rounding keeps whole numbers of at most 53 bits. -/
theorem whole_roundWithAccuracy (s : Sign) {v k : Nat} (hv : v < 2 ^ 53)
    (hm : 2 ^ 52 ≤ v * 2 ^ k) :
    Whole (roundWithAccuracy Format.binary64 s (v * 2 ^ k) (-(k : Int)) .exact) (s.apply v) := by
  obtain ⟨j, hr, hround, hlow, hhigh⟩ := roundWithAccuracy_exact s hv hm
  rw [hround]
  exact .finite v j hlow hhigh rfl rfl rfl

/-- A short mantissa gets the zeros it needs. -/
theorem whole_round (s : Sign) {v k : Nat} (hpos : 0 < v) (hv : v < 2 ^ 53) :
    Whole (UnpackedFloat.round Format.binary64 s (v * 2 ^ k) (-(k : Int))) (s.apply v) := by
  have hlog := log2_mul_pow hpos.ne' k
  have hsmall : v.log2 < 53 := (Nat.log2_lt hpos.ne').mpr hv
  -- the mantissa is brought to the exponent where it has fifty-three bits
  have htarget : Format.binary64.targetExponent (totalExponent (v * 2 ^ k) (-(k : Int)))
      = (v.log2 : Int) - 52 := by
    have hmin : Format.binary64.minExponent = -1074 := rfl
    have hbits : Format.binary64.mantissaBits = 53 := rfl
    simp only [Format.targetExponent, totalExponent, hmin, hbits, hlog]
    omega
  unfold UnpackedFloat.round
  simp only [htarget, decreaseExponent, Nat.shiftLeft_eq, mul_assoc, ← pow_add]
  generalize hd : (-(k : Int) - ((v.log2 : Int) - 52)).toNat = d
  have hexponent : -(k : Int) - d = -((k + d : Nat) : Int) := by omega
  rw [hexponent]
  apply whole_roundWithAccuracy s hv
  have hself := Nat.log2_self_le hpos.ne'
  calc 2 ^ 52 ≤ 2 ^ (v.log2 + (k + d)) := Nat.pow_le_pow_right (by norm_num) (by omega)
    _ = 2 ^ v.log2 * 2 ^ (k + d) := pow_add ..
    _ ≤ v * 2 ^ (k + d) := Nat.mul_le_mul_right _ hself

/-- Normalizing keeps whole numbers of at most 53 bits. -/
theorem whole_normalize {n : Int} {k : Nat} (zeroSign : Sign) (hn : n.natAbs < 2 ^ 53) :
    Whole (UnpackedFloat.normalize Format.binary64 (n * 2 ^ k) (-(k : Int)) zeroSign) n := by
  have hpow : (0 : Int) < 2 ^ k := by positivity
  unfold UnpackedFloat.normalize
  -- the sign of the integer decides which mantissa is rounded
  rcases lt_trichotomy n 0 with hneg | rfl | hpos
  · have hcompare : compare (n * 2 ^ k) 0 = .lt :=
      compare_lt_iff_lt.mpr (mul_neg_of_neg_of_pos hneg hpow)
    rw [hcompare]
    obtain ⟨v, rfl⟩ : ∃ v : Nat, n = -(v : Int) := ⟨n.natAbs, by omega⟩
    have hmantissa : -(-(v : Int) * 2 ^ k) = (v * 2 ^ k : Nat) := by
      push_cast
      rw [neg_mul, neg_neg]
    simp only [hmantissa, Int.toNat_natCast]
    exact whole_round .negative (by omega) (by omega)
  · have hcompare : compare (0 * 2 ^ k : Int) 0 = .eq := by
      rw [Int.zero_mul]
      rfl
    rw [hcompare]
    exact .zero zeroSign
  · have hcompare : compare (n * 2 ^ k) 0 = .gt := compare_gt_iff_gt.mpr (mul_pos hpos hpow)
    rw [hcompare]
    obtain ⟨v, rfl⟩ : ∃ v : Nat, n = v := ⟨n.natAbs, by omega⟩
    have hmantissa : (v : Int) * 2 ^ k = (v * 2 ^ k : Nat) := by push_cast; rfl
    simp only [hmantissa, Int.toNat_natCast]
    exact whole_round .positive (by omega) (by omega)

/-- The mantissa for a smaller unit. -/
theorem rescaled {m v j k : Nat} (hm : m = v * 2 ^ j) (hj : j ≤ k) :
    m * 2 ^ (-(j : Int) - -(k : Int)).toNat = v * 2 ^ k := by
  have hshift : (-(j : Int) - -(k : Int)).toNat = k - j := by omega
  rw [hshift, hm, mul_assoc, ← pow_add, Nat.add_sub_cancel' hj]

theorem decreaseExponent_whole {m v j k : Nat} (hm : m = v * 2 ^ j) (hj : j ≤ k) :
    (decreaseExponent m (-(j : Int)) (-(k : Int))).1 = v * 2 ^ k := by
  rw [decreaseExponent, Nat.shiftLeft_eq, rescaled hm hj]

namespace Whole

variable {x y : UnpackedFloat} {a b c : Int}

theorem neg (hx : Whole x a) : Whole x.neg (-a) := by
  cases hx with
  | zero s => exact .zero (-s)
  | @finite s m e n hm v j hlow hhigh hmantissa hexponent hvalue =>
    refine .finite v j hlow hhigh hmantissa hexponent ?_
    subst hvalue
    cases s with
    | positive => rfl
    | negative => exact Int.neg_neg v

/-- The sum of whole numbers is theirs, when it has at most 53 bits. -/
theorem add (hx : Whole x a) (hy : Whole y b) (hab : (a + b).natAbs < 2 ^ 53) :
    Whole (UnpackedFloat.add Format.binary64 x y) (a + b) := by
  -- a zero leaves the other operand; otherwise both are brought to the smaller exponent
  cases hx with
  | zero s =>
    rw [Int.zero_add]
    cases hy with
    | zero t => cases s <;> cases t <;> exact .zero _
    | finite w i hlow hhigh hmantissa hexponent hvalue =>
      exact .finite w i hlow hhigh hmantissa hexponent hvalue
  | @finite s m e n hm v j hlow hhigh hmantissa hexponent hvalue =>
    cases hy with
    | zero t =>
      rw [Int.add_zero]
      exact .finite v j hlow hhigh hmantissa hexponent hvalue
    | @finite t m' e' n' hm' w i hlow' hhigh' hmantissa' hexponent' hvalue' =>
      subst hexponent hexponent'
      have hmin : min (-(j : Int)) (-(i : Int)) = -((max j i : Nat) : Int) := by omega
      unfold UnpackedFloat.add
      simp only [hmin, decreaseExponent_whole hmantissa (le_max_left j i),
        decreaseExponent_whole hmantissa' (le_max_right j i)]
      push_cast
      rw [Sign.apply_mul, Sign.apply_mul, ← hvalue, ← hvalue', ← add_mul, ← Nat.cast_max]
      exact whole_normalize .positive hab

theorem sub_eq_add_neg (x y : UnpackedFloat) :
    UnpackedFloat.sub Format.binary64 x y = UnpackedFloat.add Format.binary64 x y.neg := by
  have hneg : ∀ (s : Sign) (n : Int), (-s).apply n = -s.apply n := by
    intro s n
    cases s with
    | positive => rfl
    | negative => exact (Int.neg_neg n).symm
  -- subtraction differs from addition only where both operands are finite
  cases x with
  | finite s m e hm =>
    cases y with
    | finite t m' e' hm' =>
      unfold UnpackedFloat.sub UnpackedFloat.add
      simp only [UnpackedFloat.neg, hneg, Int.sub_eq_add_neg]
    | _ => rfl
  | _ => cases y <;> rfl

/-- The difference of whole numbers is theirs, when it has at most 53 bits. -/
theorem sub (hx : Whole x a) (hy : Whole y b) (hab : (a - b).natAbs < 2 ^ 53) :
    Whole (UnpackedFloat.sub Format.binary64 x y) (a - b) := by
  rw [sub_eq_add_neg]
  exact hx.add hy.neg hab

theorem apply_mul_apply (s t : Sign) (v w : Nat) :
    (s * t).apply (v * w : Nat) = s.apply v * t.apply w := by
  push_cast
  cases s <;> cases t <;> simp only [Sign.apply]
  · exact (Int.neg_mul_neg ..).symm
  · exact (Int.neg_mul ..).symm
  · exact (Int.mul_neg ..).symm

/-- A product that is a whole number was not rounded: a longer one has zeros at its end. -/
theorem mul (hx : Whole x a) (hy : Whole y b)
    (hc : Whole (Float.Model.pack (UnpackedFloat.mul Format.binary64 x y)).unpack c) :
    c = a * b := by
  cases hx with
  | zero s =>
    rw [Int.zero_mul]
    cases hy with
    | zero t => exact ((Whole.zero (s * t)).unpack_pack ▸ hc).unique (.zero _)
    | @finite t => exact ((Whole.zero (s * t)).unpack_pack ▸ hc).unique (.zero _)
  | @finite s m e n hm v j hlow hhigh hmantissa hexponent hvalue =>
    cases hy with
    | @zero t =>
      rw [Int.mul_zero]
      exact ((Whole.zero (s * t)).unpack_pack ▸ hc).unique (.zero _)
    | @finite t m' e' n' hm' w i hlow' hhigh' hmantissa' hexponent' hvalue' =>
      have hproduct : m * m' = v * w * 2 ^ (j + i) := by
        rw [hmantissa, hmantissa', pow_add]
        ring
      have hshift : e + e' = -((j + i : Nat) : Int) := by omega
      have hlong : 2 ^ 52 * 2 ^ 52 ≤ m * m' := Nat.mul_le_mul hlow hlow'
      rw [hvalue, hvalue', ← apply_mul_apply]
      by_cases hsmall : v * w < 2 ^ 53
      · have hwhole := whole_roundWithAccuracy (s * t) (k := j + i) hsmall (by omega)
        rw [← hproduct, ← hshift] at hwhole
        rw [UnpackedFloat.mul, hwhole.unpack_pack] at hc
        exact hc.unique hwhole
      · exfalso
        have hvw : v * w ≠ 0 := by omega
        have hlog := log2_mul_pow hvw (j + i)
        rw [← hproduct, log2_eq_surplus (by omega)] at hlog
        have hlarge : 53 ≤ (v * w).log2 := (Nat.le_log2 hvw).mpr (by omega)
        have hj := shift_le hlow hhigh hmantissa
        have hi := shift_le hlow' hhigh' hmantissa'
        have hbound : (m * m').log2 < 106 := by
          rw [Nat.log2_lt (by omega)]
          calc m * m' < 2 ^ 53 * 2 ^ 53 := Nat.mul_lt_mul'' hhigh hhigh'
            _ = 2 ^ 106 := by norm_num
        have hsurplus := log2_eq_surplus (m := m * m') (by omega)
        obtain ⟨c', r, hr, hround, hc', hrlow, hrhigh, -⟩ :=
          roundWithAccuracy_long (s * t) (e := e + e') .exact (m := m * m') (by omega) (by omega)
        rw [UnpackedFloat.mul, hround, unpack_pack_normal hrlow hrhigh (by omega) (by omega)] at hc
        -- the unit of the result is greater than one
        cases hc with
        | finite u l _ _ _ hexponent'' _ => omega

/-- The division of two mantissas of fifty-three bits gives at least as many. -/
theorem divCore_eq {m m' : Nat} {j i : Nat} (hlow : 2 ^ 52 ≤ m) (hhigh : m < 2 ^ 53)
    (hlow' : 2 ^ 52 ≤ m') (hhigh' : m' < 2 ^ 53) (hj : j ≤ 52) (hi : i ≤ 52) :
    UnpackedFloat.divCore Format.binary64 m (-(j : Int)) m' (-(i : Int))
      = (m * 2 ^ 53 / m', (i : Int) - j - 53,
          UnpackedFloat.accuracyOfFraction (m * 2 ^ 53 % m') m') := by
  have htarget : Format.binary64.targetExponent
      (totalExponent m (-(j : Int)) - totalExponent m' (-(i : Int))) = (i : Int) - j - 53 := by
    have hmin : Format.binary64.minExponent = -1074 := rfl
    have hbits : Format.binary64.mantissaBits = 53 := rfl
    have hlog := log2_eq_surplus hlow
    have hlog' := log2_eq_surplus hlow'
    rw [surplus_eq_zero hhigh] at hlog
    rw [surplus_eq_zero hhigh'] at hlog'
    simp only [Format.targetExponent, totalExponent, hmin, hbits, hlog, hlog']
    omega
  -- fifty-three bits are shifted in, since both mantissas are of that length
  have hleast : min (-(j : Int) - -(i : Int)) ((i : Int) - j - 53) = (i : Int) - j - 53 := by omega
  have hshift : (-(j : Int) - -(i : Int) - ((i : Int) - j - 53)).toNat = 53 := by omega
  simp only [UnpackedFloat.divCore, htarget, hleast, hshift, Nat.shiftLeft_eq]

/-- Rounding moves a quotient by less than one unit, and the units of `v / w` are so small that
only the exact quotient can be a whole number. -/
theorem eq_of_rounded_quotient {u v w j i k l m m' r : Nat} (hm : m = v * 2 ^ j)
    (hm' : m' = w * 2 ^ i) (hhigh' : m' < 2 ^ 53) (hk : k ≤ 1) (hj : 1 ≤ j)
    (hr : r = u * 2 ^ l) (hunits : l + k + i = j + 53)
    (hneighbour : r = m * 2 ^ 53 / m' / 2 ^ k ∨ r = m * 2 ^ 53 / m' / 2 ^ k + 1) (hpos : 0 < m') :
    u * w = v := by
  have hstep : 0 < m' * 2 ^ k := by positivity
  have hunit : m' * 2 ^ k < 2 ^ (j + 53) := by
    calc m' * 2 ^ k < 2 ^ 53 * 2 ^ k := Nat.mul_lt_mul_of_pos_right hhigh' (by positivity)
      _ = 2 ^ (53 + k) := (pow_add ..).symm
      _ ≤ 2 ^ (j + 53) := Nat.pow_le_pow_right (by norm_num) (by omega)
  have hexact : r * (m' * 2 ^ k) = u * w * 2 ^ (j + 53) := by
    rw [hr, hm', ← hunits, pow_add, pow_add]
    ring
  have hdividend : m * 2 ^ 53 = v * 2 ^ (j + 53) := by
    rw [hm, pow_add, mul_assoc]
  -- the rounded quotient is within a unit of the true one, both measured in the same steps
  rw [Nat.div_div_eq_div_mul, hdividend] at hneighbour
  have hbelow := Nat.div_mul_le_self (v * 2 ^ (j + 53)) (m' * 2 ^ k)
  have habove := Nat.lt_div_mul_add (a := v * 2 ^ (j + 53)) hstep
  generalize v * 2 ^ (j + 53) / (m' * 2 ^ k) = q at hneighbour hbelow habove
  have hclose : u * w * 2 ^ (j + 53) < (v + 1) * 2 ^ (j + 53) ∧
      v * 2 ^ (j + 53) < (u * w + 1) * 2 ^ (j + 53) := by
    rw [← hexact, Nat.add_mul, Nat.add_mul, ← hexact, Nat.one_mul]
    rcases hneighbour with rfl | rfl
    · omega
    · rw [Nat.add_mul, Nat.one_mul]
      omega
  have h₁ := Nat.lt_of_mul_lt_mul_right hclose.1
  have h₂ := Nat.lt_of_mul_lt_mul_right hclose.2
  omega

theorem sign_of_nonneg {s : Sign} {v j : Nat} (hpos : 0 < v * 2 ^ j) (hvalue : a = s.apply v)
    (ha : 0 ≤ a) : s = .positive ∧ a = v := by
  have hv : 0 < v := Nat.pos_of_mul_pos_right hpos
  cases s with
  | positive => exact ⟨rfl, hvalue⟩
  | negative =>
    rw [hvalue] at ha
    exact absurd ha (by simp only [Sign.apply]; omega)

/-- The quotient of two mantissas has 53 bits or 54. -/
theorem quotient_bounds {m m' : Nat} (hlow : 2 ^ 52 ≤ m) (hhigh : m < 2 ^ 53)
    (hlow' : 2 ^ 52 ≤ m') (hhigh' : m' < 2 ^ 53) :
    2 ^ 52 ≤ m * 2 ^ 53 / m' ∧ m * 2 ^ 53 / m' < 2 ^ 54 := by
  constructor
  · rw [Nat.le_div_iff_mul_le (by omega)]
    exact Nat.mul_le_mul hlow hhigh'.le
  · rw [Nat.div_lt_iff_lt_mul (by omega)]
    omega

theorem surplus_le_one {q : Nat} (hq : q < 2 ^ 54) : surplus q ≤ 1 := by
  unfold surplus
  by_cases hzero : q = 0
  · rw [hzero]
    decide
  · have := (Nat.log2_lt hzero).mpr hq
    omega

/-- A quotient that is a whole number is exact. -/
theorem div (hx : Whole x a) (hy : Whole y b) (ha : 0 ≤ a) (hsmall : a < 2 ^ 52) (hb : 0 < b)
    (hc : Whole (Float.Model.pack (UnpackedFloat.div Format.binary64 x y)).unpack c) :
    c * b = a := by
  -- a zero divides to zero, and of two finite numbers both are positive
  cases hy with
  | zero t => exact absurd hb (lt_irrefl 0)
  | @finite t m' e' n' hm' w i hlow' hhigh' hmantissa' hexponent' hvalue' =>
    cases hx with
    | zero s =>
      have hzero : c = 0 := ((Whole.zero (s / t)).unpack_pack ▸ hc).unique (.zero _)
      rw [hzero, Int.zero_mul]
    | @finite s m e n hm v j hlow hhigh hmantissa hexponent hvalue =>
      obtain ⟨rfl, rfl⟩ := sign_of_nonneg (hmantissa ▸ hm) hvalue ha
      obtain ⟨rfl, rfl⟩ := sign_of_nonneg (hmantissa' ▸ hm') hvalue' hb.le
      subst hexponent hexponent'
      have hj := shift_le hlow hhigh hmantissa
      have hi := shift_le hlow' hhigh' hmantissa'
      have hshort : 1 ≤ j := by
        by_contra hzero
        rw [show j = 0 by omega, pow_zero, mul_one] at hmantissa
        omega
      have hquotient := quotient_bounds hlow hhigh hlow' hhigh'
      have hk := surplus_le_one hquotient.2
      obtain ⟨c', r, hr, hround, hc', hrlow, hrhigh, hrounded⟩ :=
        roundWithAccuracy_long (.positive / .positive) (e := (i : Int) - j - 53)
          (UnpackedFloat.accuracyOfFraction (m * 2 ^ 53 % m') m') hquotient.1 (by omega)
      rw [UnpackedFloat.div, divCore_eq hlow hhigh hlow' hhigh' hj hi] at hc
      simp only [hround] at hc
      rw [unpack_pack_normal hrlow hrhigh (by omega) (by omega)] at hc
      cases hc with
      | finite u l _ _ hmantissa'' hexponent'' hvalue'' =>
        have hneighbour := roundedMantissa_neighbour
          (ofMantissaAndAccuracy (m * 2 ^ 53 / m')
            (UnpackedFloat.accuracyOfFraction (m * 2 ^ 53 % m') m') >>> surplus (m * 2 ^ 53 / m'))
        rw [mantissa_shiftRight, mantissa_ofMantissaAndAccuracy, hrounded] at hneighbour
        have hexact : u * w = v :=
          eq_of_rounded_quotient (l := l + c') hmantissa hmantissa' hhigh' hk hshort
            (by rw [hmantissa'', pow_add, mul_assoc]) (by omega) hneighbour hm'
        rw [hvalue'']
        change (u : Int) * w = v
        exact_mod_cast hexact

/-- The quotient of a multiple, whatever the sizes of the numbers. -/
theorem div_multiple {v d : Nat} (hv : 0 < v) (hsmall : v < 2 ^ 53) (hd : 0 < d)
    (hvd : 0 < v * d) :
    Whole (UnpackedFloat.div Format.binary64 (.finite .positive (v * d) 0 hvd)
      (.finite .positive d 0 hd)) v := by
  have hlogv : v.log2 < 53 := (Nat.log2_lt hv.ne').mpr hsmall
  have hlow : d.log2 ≤ (v * d).log2 := by
    rw [Nat.le_log2 hvd.ne']
    exact (Nat.log2_self_le hd.ne').trans (Nat.le_mul_of_pos_left d hv)
  have hhigh : (v * d).log2 < v.log2 + d.log2 + 2 := by
    rw [Nat.log2_lt hvd.ne']
    calc v * d < 2 ^ (v.log2 + 1) * 2 ^ (d.log2 + 1) :=
          Nat.mul_lt_mul'' Nat.lt_log2_self Nat.lt_log2_self
      _ = 2 ^ (v.log2 + d.log2 + 2) := by rw [← pow_add]; congr 1; omega
  -- the shift gives the quotient fifty-three bits at least
  obtain ⟨k, hk⟩ : ∃ k : Nat, k + (v * d).log2 = 53 + d.log2 :=
    ⟨53 + d.log2 - (v * d).log2, by omega⟩
  have hcore : UnpackedFloat.divCore Format.binary64 (v * d) 0 d 0
      = (v * 2 ^ k, -(k : Int), .exact) := by
    have htarget : min ((0 : Int) - 0)
        (Format.binary64.targetExponent (totalExponent (v * d) 0 - totalExponent d 0)) = -(k : Int) := by
      have hmin : Format.binary64.minExponent = -1074 := rfl
      have hbits : Format.binary64.mantissaBits = 53 := rfl
      simp only [Format.targetExponent, totalExponent, hmin, hbits]
      omega
    have hshift : ((0 : Int) - 0 - -(k : Int)).toNat = k := by omega
    have hdividend : v * d * 2 ^ k = v * 2 ^ k * d := by ring
    simp only [UnpackedFloat.divCore, htarget, hshift, Nat.shiftLeft_eq, hdividend,
      Nat.mul_div_cancel _ hd, Nat.mul_mod_left, UnpackedFloat.accuracyOfFraction, ↓reduceIte]
  rw [UnpackedFloat.div, hcore]
  apply whole_roundWithAccuracy .positive hsmall
  calc 2 ^ 52 ≤ 2 ^ (v.log2 + k) := Nat.pow_le_pow_right (by norm_num) (by omega)
    _ = 2 ^ v.log2 * 2 ^ k := pow_add ..
    _ ≤ v * 2 ^ k := Nat.mul_le_mul_right _ (Nat.log2_self_le hv.ne')

/-! ## §4 Order -/

/-- Of two mantissas of fifty-three bits, the one with the greater unit is greater. -/
theorem compare_sizes {m m' v w j i : Nat} (hlow : 2 ^ 52 ≤ m) (hhigh : m < 2 ^ 53)
    (hlow' : 2 ^ 52 ≤ m') (hhigh' : m' < 2 ^ 53) (hm : m = v * 2 ^ j) (hm' : m' = w * 2 ^ i) :
    (compare (-(j : Int)) (-(i : Int))).then (compare m m') = compare v w := by
  -- a mantissa of the same length in greater units is greater
  have hstep : ∀ {p q a b : Nat}, 2 ^ 52 ≤ p * 2 ^ a → q * 2 ^ b < 2 ^ 53 → a < b → q < p := by
    intro p q a b hp hq hab
    have hpow : 2 ^ (a + 1) ≤ 2 ^ b := Nat.pow_le_pow_right (by norm_num) hab
    have hq' := (Nat.mul_le_mul_left q hpow).trans_lt hq
    rw [pow_succ, ← mul_assoc] at hq'
    have hlt : q * 2 ^ a < p * 2 ^ a := by omega
    exact Nat.lt_of_mul_lt_mul_right hlt
  rcases lt_trichotomy j i with hji | rfl | hij
  · have hvw := hstep (hm ▸ hlow) (hm' ▸ hhigh') hji
    rw [compare_gt_iff_gt.mpr (by omega), compare_gt_iff_gt.mpr hvw]
    rfl
  · have hpos : 0 < 2 ^ j := by positivity
    rw [compare_eq_iff_eq.mpr rfl, Ordering.then, hm, hm']
    rcases lt_trichotomy v w with hvw | rfl | hwv
    · rw [compare_lt_iff_lt.mpr hvw, compare_lt_iff_lt.mpr (Nat.mul_lt_mul_of_pos_right hvw hpos)]
    · rw [compare_eq_iff_eq.mpr rfl, compare_eq_iff_eq.mpr rfl]
    · rw [compare_gt_iff_gt.mpr hwv, compare_gt_iff_gt.mpr (Nat.mul_lt_mul_of_pos_right hwv hpos)]
  · have hwv := hstep (hm' ▸ hlow') (hm ▸ hhigh) hij
    rw [compare_lt_iff_lt.mpr (by omega), compare_lt_iff_lt.mpr hwv]
    rfl

theorem compare_neg_neg (v w : Nat) : compare (-(v : Int)) (-(w : Int)) = (compare v w).swap := by
  rcases lt_trichotomy v w with h | rfl | h
  · rw [compare_lt_iff_lt.mpr h, compare_gt_iff_gt.mpr (by omega)]
    rfl
  · rw [compare_eq_iff_eq.mpr rfl, compare_eq_iff_eq.mpr rfl]
    rfl
  · rw [compare_gt_iff_gt.mpr h, compare_lt_iff_lt.mpr (by omega)]
    rfl

theorem compare_natCast (v w : Nat) : compare (v : Int) (w : Int) = compare v w := by
  rcases lt_trichotomy v w with h | rfl | h
  · rw [compare_lt_iff_lt.mpr h, compare_lt_iff_lt.mpr (by omega)]
  · rw [compare_eq_iff_eq.mpr rfl, compare_eq_iff_eq.mpr rfl]
  · rw [compare_gt_iff_gt.mpr h, compare_gt_iff_gt.mpr (by omega)]

/-- Whole numbers are ordered as the integers they are. -/
theorem compare_eq (hx : Whole x a) (hy : Whole y b) : x.compare y = some (compare a b) := by
  -- against a zero the sign decides, between finite numbers their units and mantissas
  cases hx with
  | zero s =>
    cases hy with
    | zero t => rfl
    | @finite t m e n hm w i hlow hhigh hmantissa hexponent hvalue =>
      have hw : 0 < w := Nat.pos_of_mul_pos_right (hmantissa ▸ hm)
      subst hvalue
      cases t with
      | positive =>
        rw [Sign.apply, compare_lt_iff_lt.mpr (by omega)]
        rfl
      | negative =>
        rw [Sign.apply, compare_gt_iff_gt.mpr (by omega)]
        rfl
  | @finite s m e n hm v j hlow hhigh hmantissa hexponent hvalue =>
    have hv : 0 < v := Nat.pos_of_mul_pos_right (hmantissa ▸ hm)
    subst hvalue hexponent
    cases hy with
    | zero t =>
      cases s with
      | positive =>
        rw [Sign.apply, compare_gt_iff_gt.mpr (by omega)]
        rfl
      | negative =>
        rw [Sign.apply, compare_lt_iff_lt.mpr (by omega)]
        rfl
    | @finite t m' e' n' hm' w i hlow' hhigh' hmantissa' hexponent' hvalue' =>
      have hw : 0 < w := Nat.pos_of_mul_pos_right (hmantissa' ▸ hm')
      have hsizes := compare_sizes hlow hhigh hlow' hhigh' hmantissa hmantissa'
      subst hvalue' hexponent'
      cases s <;> cases t <;> simp only [Sign.apply, UnpackedFloat.compare, hsizes]
      · rw [compare_neg_neg]
      · rw [compare_lt_iff_lt.mpr (by omega)]
      · rw [compare_gt_iff_gt.mpr (by omega)]
      · rw [compare_natCast]

end Whole

end Scriptlet
