import Mathlib
import Scriptlet.Eval.Operation
import Scriptlet.Proofs.Reference
import Scriptlet.Proofs.Whole

/-!
# Values and words

The evaluator computes with floating-point numbers and truth values, the code of a program with
words. A truth value stands for zero or one, an integer in the range of signed words for its
remainder modulo the number of words. Operators respect this, apart from three things: truth values
and numbers are never equal as values but can be equal as words, division is unsigned, and the
range has ends.

## Contents

- §1 integers in the range of words
- §2 remainders
- §3 words of values
- §4 operators
-/

namespace Scriptlet

open Float.Model (Format UnpackedFloat)
open Float.Model.UnpackedFloat (Sign)
open Assembly (Word truth Emit.integer?)

/-! ## §1 Integers in the range of words -/

/-- The number is the integer, which is in the range of signed words. -/
structure FitsWord (x : Float) (n : Int) : Prop where
  integer : Emit.integer? x = some n
  low : -2 ^ 31 ≤ n
  high : n < 2 ^ 31

namespace FitsWord

variable {x y : Float} {a b c : Int}

/-- A float that fits a word is a whole number. -/
theorem whole (hx : FitsWord x a) : Whole x.toModel.unpack a := by
  have hlow := hx.low
  have hhigh := hx.high
  exact whole_of_integer? hx.integer (by omega)

/-- A float fits one word only. -/
theorem unique (hx : FitsWord x a) (hy : FitsWord x b) : a = b :=
  Option.some.inj (hx.integer.symm.trans hy.integer)

/-- An operation whose exact result is an integer gives that integer. -/
theorem eq_of_exact {z : Float} {f : UnpackedFloat} (hz : FitsWord z c) (hf : Whole f b)
    (hround : z.toModel.unpack = (Float.Model.pack f).unpack) : c = b := by
  have hresult := hz.whole
  rw [hround, hf.unpack_pack] at hresult
  exact hresult.unique hf

/-- The sum and the difference of integers in range have short mantissas. -/
theorem natAbs_lt (hx : FitsWord x a) (hy : FitsWord y b) :
    (a + b).natAbs < 2 ^ 53 ∧ (a - b).natAbs < 2 ^ 53 := by
  obtain ⟨-, hlow, hhigh⟩ := hx
  obtain ⟨-, hlow', hhigh'⟩ := hy
  omega

theorem neg (hx : FitsWord x a) (hc : FitsWord (-x) c) : c = -a :=
  hc.eq_of_exact hx.whole.neg rfl

theorem add (hx : FitsWord x a) (hy : FitsWord y b) (hc : FitsWord (x + y) c) : c = a + b :=
  hc.eq_of_exact (hx.whole.add hy.whole (hx.natAbs_lt hy).1) rfl

theorem sub (hx : FitsWord x a) (hy : FitsWord y b) (hc : FitsWord (x - y) c) : c = a - b :=
  hc.eq_of_exact (hx.whole.sub hy.whole (hx.natAbs_lt hy).2) rfl

theorem mul (hx : FitsWord x a) (hy : FitsWord y b) (hc : FitsWord (x * y) c) : c = a * b :=
  hx.whole.mul hy.whole hc.whole

/-- The quotient of whole numbers that fits a word is a whole one. -/
theorem div (hx : FitsWord x a) (hy : FitsWord y b) (ha : 0 ≤ a) (hb : 0 < b)
    (hc : FitsWord (x / y) c) : c = a / b := by
  have hhigh := hx.high
  have hexact : c * b = a := hx.whole.div hy.whole ha (by omega) hb hc.whole
  rw [← hexact, Int.mul_ediv_cancel _ hb.ne']

/-- Floats that fit words are equal when the words are. -/
theorem beq_iff (hx : FitsWord x a) (hy : FitsWord y b) : (x == y) = true ↔ a = b := by
  have hcompare : (x == y) = (some (compare a b) == some .eq) :=
    congrArg (· == some Ordering.eq) (hx.whole.compare_eq hy.whole)
  rw [hcompare, beq_iff_eq, Option.some_inj, compare_eq_iff_eq]

/-- Floats that fit words have the words' order. -/
theorem lt_iff (hx : FitsWord x a) (hy : FitsWord y b) : x < y ↔ a < b := by
  have hcompare : x.toModel.unpack.lt y.toModel.unpack = (some (compare a b) == some .lt) :=
    congrArg (· == some Ordering.lt) (hx.whole.compare_eq hy.whole)
  change (decide (x.toModel.unpack.lt y.toModel.unpack = true)) = true ↔ a < b
  rw [decide_eq_true_iff, hcompare, beq_iff_eq, Option.some_inj, compare_lt_iff_lt]

/-- The order of floats that fit words is that of the words. -/
theorem numberOrder_eq (hx : FitsWord x a) (hy : FitsWord y b) : numberOrder x y = compare a b := by
  unfold numberOrder
  simp only [hx.lt_iff hy, hy.lt_iff hx]
  rcases lt_trichotomy a b with h | rfl | h
  · rw [if_pos h, compare_lt_iff_lt.mpr h]
  · rw [if_neg (lt_irrefl a), if_neg (lt_irrefl a), compare_eq_iff_eq.mpr rfl]
  · rw [if_neg h.asymm, if_pos h, compare_gt_iff_gt.mpr h]

theorem zero : FitsWord 0 0 := ⟨rfl, by norm_num, by norm_num⟩

theorem one : FitsWord 1 1 := ⟨rfl, by norm_num, by norm_num⟩

end FitsWord

/-! ## §2 Remainders -/

/-- A fraction of a power of ten that is too long for the quick way is divided exactly. -/
theorem whole_ofScientific {u k : Nat} (hpos : 0 < u) (hu : u < 2 ^ 53) (hk : 22 ≤ k) (hk' : k ≤ 52) :
    Whole (Float.ofScientific (u * 10 ^ k) true k).toModel.unpack u := by
  have hpow : 0 < 10 ^ k := by positivity
  -- with that many zeros the digits are too long for the quick way
  have hlong : 2 ^ 53 ≤ u * 10 ^ k := by
    calc 2 ^ 53 ≤ 10 ^ 22 := by norm_num
      _ ≤ 10 ^ k := Nat.pow_le_pow_right (by norm_num) hk
      _ ≤ u * 10 ^ k := Nat.le_mul_of_pos_left _ hpos
  have hexact := Whole.div_multiple hpos hu hpow (Nat.mul_pos hpos hpow)
  have hslow : UnpackedFloat.ofScientific Format.binary64 (u * 10 ^ k) (-(k : Int))
      = UnpackedFloat.div Format.binary64
          (.finite .positive (u * 10 ^ k) 0 (Nat.mul_pos hpos hpow))
          (.finite .positive (10 ^ k) 0 hpow) := by
    unfold UnpackedFloat.ofScientific
    have hne : u * 10 ^ k ≠ 0 := by omega
    rw [dif_neg hne, if_neg (by norm_num), if_neg (by norm_num; omega), if_neg (by omega)]
    simp only [Int.neg_neg, Int.toNat_natCast]
  unfold Float.ofScientific
  rw [dif_neg (by omega)]
  change Whole (Float.Model.pack
    (UnpackedFloat.ofScientific Format.binary64 (u * 10 ^ k) (Int.negOfNat k))).unpack u
  rw [Int.negOfNat_eq]
  change Whole (Float.Model.pack
    (UnpackedFloat.ofScientific Format.binary64 (u * 10 ^ k) (-(k : Int)))).unpack u
  rw [hslow, hexact.unpack_pack]
  exact hexact

/-- Binary digits behind the point that are all zero make a whole number. -/
theorem whole_ofBinary {u k : Nat} (hu : u < 2 ^ 53) (hk : 22 ≤ k) (hk' : k ≤ 52) :
    Whole (Decimal.ofBinary (u * 2 ^ k) (-(k : Int))).toModel.unpack u := by
  rcases Nat.eq_zero_or_pos u with rfl | hpos
  · rw [Nat.zero_mul]
    exact FitsWord.zero.whole
  · have hlog := log2_mul_pow hpos.ne' k
    have hsmall : u.log2 < 53 := (Nat.log2_lt hpos.ne').mpr hu
    have hne : u * 2 ^ k ≠ 0 := by positivity
    -- a power of two below the point is one of ten, with a power of five in the digits
    have hten : u * 2 ^ k * 5 ^ k = u * 10 ^ k := by
      rw [mul_assoc, ← mul_pow]
      norm_num
    unfold Decimal.ofBinary
    simp only [beq_iff_eq, hne, ↓reduceIte, hlog, Int.natAbs_neg, Int.natAbs_natCast, Nat.pow_eq, hten]
    rw [if_neg (by omega), if_neg (by omega), if_pos (by omega)]
    exact whole_ofScientific hpos hu hk hk'

/-- The remainder of whole numbers that fit words is theirs. -/
theorem FitsWord.rem {x y : Float} {a b c : Int} (hx : FitsWord x a) (hy : FitsWord y b) (ha : 0 ≤ a)
    (hb : 0 < b) (hc : FitsWord (remainder x y) c) : c = a % b := by
  obtain ⟨narrow, hclass⟩ := classify_eq x
  obtain ⟨narrow', hclass'⟩ := classify_eq y
  have hwhole := hx.whole
  have hwhole' := hy.whole
  unfold remainder at hc
  rw [hclass, hclass'] at hc
  generalize x.toModel.unpack = f at hc hwhole
  generalize y.toModel.unpack = g at hc hwhole'
  cases hwhole' with
  | zero t => exact absurd hb (lt_irrefl 0)
  | @finite t m' e' n' hm' w i hlow' hhigh' hmantissa' hexponent' hvalue' =>
    cases hwhole with
    | zero s =>
      rw [hc.unique hx, Int.zero_emod]
    | @finite s m e n hm v j hlow hhigh hmantissa hexponent hvalue =>
      obtain ⟨rfl, rfl⟩ := Whole.sign_of_nonneg (hmantissa ▸ hm) hvalue ha
      obtain ⟨rfl, rfl⟩ := Whole.sign_of_nonneg (hmantissa' ▸ hm') hvalue' hb.le
      subst hexponent hexponent'
      have hj := Whole.shift_le hlow hhigh hmantissa
      have hi := Whole.shift_le hlow' hhigh' hmantissa'
      have hmin : min (-(j : Int)) (-(i : Int)) = -((max j i : Nat) : Int) := by omega
      simp only [classOf] at hc
      rw [if_neg (by decide)] at hc
      simp only [hmin, Nat.pow_eq, rescaled hmantissa (le_max_left j i),
        rescaled hmantissa' (le_max_right j i), Nat.mul_mod_mul_right] at hc
      have hv : v < 2 ^ 31 := by exact_mod_cast hx.high
      -- the units of the operands are too small for a quick conversion from decimals
      have hunit : 22 ≤ j := by
        by_contra hlarge
        have hpow : 2 ^ j ≤ 2 ^ 21 := Nat.pow_le_pow_right (by norm_num) (by omega)
        have := Nat.mul_lt_mul_of_lt_of_le hv hpow (by positivity)
        omega
      have hrest : v % w ≤ v := Nat.mod_le v w
      exact hc.whole.unique (whole_ofBinary (by omega) (by omega) (by omega))

/-! ## §3 Words of values -/

/-- A word is read back from its bits, signed. -/
theorem FitsWord.toInt_ofInt {x : Float} {n : Int} (hx : FitsWord x n) :
    (BitVec.ofInt 32 n).toInt = n :=
  BitVec.toInt_ofInt_eq_self (by norm_num) hx.low hx.high

/-- Words that fit are told apart by their bits. -/
theorem FitsWord.ofInt_inj {x y : Float} {a b : Int} (hx : FitsWord x a) (hy : FitsWord y b) :
    BitVec.ofInt 32 a = BitVec.ofInt 32 b ↔ a = b := by
  rw [← BitVec.toInt_inj, hx.toInt_ofInt, hy.toInt_ofInt]

namespace Value

/-- The value stands for the word. -/
inductive Means : Value → Word → Prop
  | bool (b : Bool) : Means (.bool b) (truth b)
  | number {x : Float} {n : Int} (h : FitsWord x n) : Means (.number x) (BitVec.ofInt 32 n)

/-- If the value is a number, it is an integer in range. -/
def isBounded : Value → Bool
  | .number x => (Emit.integer? x).any fun n => -2 ^ 31 ≤ n && n < 2 ^ 31
  | _ => true

/-- The values are a truth value and the number that stands for the same word. -/
def confusable : Value → Value → Bool
  | .bool b, .number x | .number x, .bool b => Emit.integer? x == some (if b then 1 else 0)
  | _, _ => false

/-- If the value is an integer, it is not negative. -/
def nonNegative : Value → Bool
  | .number x => (Emit.integer? x).all fun n => 0 ≤ n
  | _ => true

/-- A bounded number is a word. -/
theorem fitsWord_of_isBounded {x : Float} (h : (Value.number x).isBounded = true) :
    ∃ n, FitsWord x n := by
  obtain ⟨n, hn, hrange⟩ := (Option.any_eq_true _ _).mp h
  rw [Bool.and_eq_true, decide_eq_true_iff, decide_eq_true_iff] at hrange
  exact ⟨n, hn, hrange.1, hrange.2⟩

/-- A number that is not negative is no negative word. -/
theorem nonneg_of_nonNegative {x : Float} {n : Int} (h : (Value.number x).nonNegative = true)
    (hx : FitsWord x n) : 0 ≤ n := by
  rw [nonNegative, hx.integer, Option.all_some, decide_eq_true_iff] at h
  exact h

variable {v u : Value} {w w' : Word}

/-- A value counts as true if its word is not zero. -/
theorem Means.isTruthy (hv : v.Means w) : v.isTruthy = (w != 0) := by
  cases hv with
  | bool b => cases b <;> rfl
  | @number x n h =>
    have hzero : (x == 0) = (BitVec.ofInt 32 n == 0) := by
      rw [Bool.eq_iff_iff, h.beq_iff FitsWord.zero, beq_iff_eq]
      exact (h.ofInt_inj FitsWord.zero).symm
    exact congrArg (!·) hzero

/-- Zero is the one word that is false. -/
theorem Means.isTruthy_iff (hv : v.Means w) : v.isTruthy = true ↔ w ≠ 0 := by
  rw [hv.isTruthy, bne_iff_ne]

/-- A number that is a truth in the register is the integer that stands for it. -/
theorem integer_of_truth {x : Float} {n : Int} {b : Bool} (hx : FitsWord x n)
    (h : BitVec.ofInt 32 n = truth b) : Emit.integer? x = some (if b then 1 else 0) := by
  rw [hx.integer]
  cases b with
  | false => exact congrArg some ((hx.ofInt_inj FitsWord.zero).mp h)
  | true => exact congrArg some ((hx.ofInt_inj FitsWord.one).mp h)

/-- Values are equal as their words are, unless they can be confused. -/
theorem Means.equal (hv : v.Means w) (hu : u.Means w') (h : v.confusable u = false) :
    v.equal u = (w == w') := by
  -- a truth value and a number are different values, so only their words could be confused
  cases hv with
  | bool b =>
    cases hu with
    | bool c => cases b <;> cases c <;> rfl
    | @number y n hy =>
      rw [confusable, beq_eq_false_iff_ne] at h
      have hne : truth b ≠ BitVec.ofInt 32 n := fun heq => h (integer_of_truth hy heq.symm)
      exact (beq_eq_false_iff_ne.mpr hne).symm
  | @number x n hx =>
    cases hu with
    | bool b =>
      rw [confusable, beq_eq_false_iff_ne] at h
      have hne : BitVec.ofInt 32 n ≠ truth b := fun heq => h (integer_of_truth hx heq)
      exact (beq_eq_false_iff_ne.mpr hne).symm
    | @number y k hy =>
      change (x == y) = _
      rw [Bool.eq_iff_iff, hx.beq_iff hy, beq_iff_eq, hx.ofInt_inj hy]

end Value

/-! ## §4 Operators -/

/-- What an operator on one operand gives stands for what it gives on words. -/
theorem UnaryOp.means {op : UnaryOp} {v u : Value} {w : Word} (hv : v.Means w)
    (hu : op.apply v = .ok u) (hbounded : u.isBounded = true) :
    ∃ w', op.onWord? w = some w' ∧ u.Means w' := by
  -- negation of a number is exact, and only a number is negated
  cases op with
  | not =>
    cases hu
    refine ⟨truth (w == 0), rfl, ?_⟩
    rw [hv.isTruthy, bne, Bool.not_not]
    exact .bool _
  | negate =>
    cases hv with
    | bool b => cases hu
    | @number x n hx =>
      cases hu
      obtain ⟨k, hk⟩ := Value.fitsWord_of_isBounded hbounded
      refine ⟨_, rfl, ?_⟩
      rw [← BitVec.ofInt_neg, ← hx.neg hk]
      exact .number hk
  | unknown code => cases hu

/-- The operator does the same on words: it does not compare values that can be confused, and it
does not divide negative numbers. -/
def BinaryOp.undisputed : BinaryOp → Value → Value → Bool
  | .equal, v, u | .notEqual, v, u => !v.confusable u
  | .divide, v, u | .modulo, v, u => v.nonNegative && u.nonNegative
  | _, _, _ => true

section

variable {x y z : Float} {a b : Int}

/-- A bounded number means the bits of the word that it must be. -/
theorem means_of_eq {n : Int} {c : Word} (hz : (Value.number z).isBounded = true)
    (heq : ∀ k, FitsWord z k → k = n) (hc : BitVec.ofInt 32 n = c) : (Value.number z).Means c := by
  obtain ⟨k, hk⟩ := Value.fitsWord_of_isBounded hz
  rw [← hc, ← heq k hk]
  exact .number hk

/-- Integers that are not negative are the numbers of their words. -/
theorem toNat_ofInt (ha : 0 ≤ a) (hhigh : a < 2 ^ 31) : (BitVec.ofInt 32 a).toNat = a.toNat := by
  rw [BitVec.toNat_ofInt]
  omega

/-- Division of words without a sign is that of the numbers. -/
theorem ofInt_div (hx : FitsWord x a) (hy : FitsWord y b) (ha : 0 ≤ a) (hb : 0 ≤ b) :
    BitVec.ofInt 32 (a / b) = BitVec.ofInt 32 a / BitVec.ofInt 32 b := by
  have hhigh := hx.high
  have hle := Int.ediv_le_self b ha
  apply BitVec.eq_of_toNat_eq
  rw [BitVec.toNat_udiv, toNat_ofInt ha hx.high, toNat_ofInt hb hy.high,
    toNat_ofInt (Int.ediv_nonneg ha hb) (by omega)]
  lift a to ℕ using ha
  lift b to ℕ using hb
  rfl

/-- The remainder of words without a sign is that of the numbers. -/
theorem ofInt_mod (hx : FitsWord x a) (hy : FitsWord y b) (ha : 0 ≤ a) (hb : 0 < b) :
    BitVec.ofInt 32 (a % b) = BitVec.ofInt 32 a % BitVec.ofInt 32 b := by
  have hhigh := hy.high
  have hlt := Int.emod_lt_of_pos a hb
  have hnonneg := Int.emod_nonneg a hb.ne'
  apply BitVec.eq_of_toNat_eq
  rw [BitVec.toNat_umod, toNat_ofInt ha hx.high, toNat_ofInt hb.le hy.high,
    toNat_ofInt hnonneg (by omega), Int.toNat_emod ha hb.le]

/-- An undisputed division that succeeds has a dividend that is not negative and a divisor that is
positive. -/
theorem divisible {r u : Value} (hx : FitsWord x a) (hy : FitsWord y b)
    (hop : ((Value.number x).nonNegative && (Value.number y).nonNegative) = true)
    (hu : (if y == 0 then .error .divisionByZero else .ok r : Except Fault Value) = .ok u) :
    0 ≤ a ∧ 0 < b ∧ r = u := by
  obtain ⟨ha, hb⟩ := Bool.and_eq_true_iff.mp hop
  replace ha := Value.nonneg_of_nonNegative ha hx
  replace hb := Value.nonneg_of_nonNegative hb hy
  split at hu
  · cases hu
  · next hne =>
    -- a divisor that is not zero and not negative is positive
    rw [hy.beq_iff FitsWord.zero] at hne
    exact ⟨ha, by omega, Except.ok.inj hu⟩

/-- Signed words have the order of the numbers. -/
theorem slt_eq (hx : FitsWord x a) (hy : FitsWord y b) :
    (BitVec.ofInt 32 a).slt (BitVec.ofInt 32 b) = decide (a < b) := by
  rw [BitVec.slt_eq_decide, hx.toInt_ofInt, hy.toInt_ofInt]

/-- Signed words have the weak order of the numbers. -/
theorem sle_eq (hx : FitsWord x a) (hy : FitsWord y b) :
    (BitVec.ofInt 32 a).sle (BitVec.ofInt 32 b) = decide (a ≤ b) := by
  rw [BitVec.sle_eq_decide, hx.toInt_ofInt, hy.toInt_ofInt]

/-- Comparisons look at the order of the operands. -/
theorem accepts_compare (op : BinaryOp) (a b : Int) :
    op.accepts (compare a b) = match op with
      | .less => decide (a < b)
      | .lessEqual => decide (a ≤ b)
      | .greater => decide (b < a)
      | _ => decide (b ≤ a) := by
  -- one comparison decides all four operators
  rcases lt_trichotomy a b with h | rfl | h
  · rw [compare_lt_iff_lt.mpr h]
    cases op <;> simp [BinaryOp.accepts, h, h.le]
  · rw [compare_eq_iff_eq.mpr rfl]
    cases op <;> simp [BinaryOp.accepts]
  · rw [compare_gt_iff_gt.mpr h]
    cases op <;> simp [BinaryOp.accepts, h, h.le]

/-- What an operator on two numbers gives stands for what it gives on their words. -/
theorem BinaryOp.applyNumbers_means {op : BinaryOp} {u : Value} (hx : FitsWord x a)
    (hy : FitsWord y b) (hop : op.undisputed (.number x) (.number y) = true)
    (hu : op.applyNumbers x y = .ok u) (hbounded : u.isBounded = true) (hpower : op ≠ .power) :
    ∃ c, op.onWords? (.ofInt 32 a) (.ofInt 32 b) = some c ∧ u.Means c := by
  have horder := hx.numberOrder_eq hy
  -- the arithmetic is exact within bounds, the comparisons look at the order alone
  cases op with
  | add =>
    cases hu
    exact ⟨_, rfl, means_of_eq hbounded (fun k => hx.add hy) (BitVec.ofInt_add ..)⟩
  | subtract =>
    cases hu
    refine ⟨_, rfl, means_of_eq hbounded (fun k => hx.sub hy) ?_⟩
    rw [Int.sub_eq_add_neg, BitVec.ofInt_add, BitVec.ofInt_neg, ← BitVec.sub_eq_add_neg]
  | multiply =>
    cases hu
    exact ⟨_, rfl, means_of_eq hbounded (fun k => hx.mul hy) (BitVec.ofInt_mul ..)⟩
  | divide =>
    obtain ⟨ha, hpos, rfl⟩ := divisible hx hy hop hu
    exact ⟨_, rfl, means_of_eq hbounded (fun k => hx.div hy ha hpos) (ofInt_div hx hy ha hpos.le)⟩
  | modulo =>
    obtain ⟨ha, hpos, rfl⟩ := divisible hx hy hop hu
    exact ⟨_, rfl, means_of_eq hbounded (fun k => hx.rem hy ha hpos) (ofInt_mod hx hy ha hpos)⟩
  | less =>
    cases hu
    refine ⟨_, rfl, ?_⟩
    rw [horder, accepts_compare, slt_eq hx hy]
    exact .bool _
  | lessEqual =>
    cases hu
    refine ⟨_, rfl, ?_⟩
    rw [horder, accepts_compare, sle_eq hx hy]
    exact .bool _
  | greater =>
    cases hu
    refine ⟨_, rfl, ?_⟩
    rw [horder, accepts_compare, slt_eq hy hx]
    exact .bool _
  | greaterEqual =>
    cases hu
    refine ⟨_, rfl, ?_⟩
    rw [horder, accepts_compare, sle_eq hy hx]
    exact .bool _
  | power => exact absurd rfl hpower
  | equal | notEqual | and | or | unknown => cases hu

end

/-- What an operator on two operands gives stands for what it gives on words. -/
theorem BinaryOp.means {op : BinaryOp} {v w u : Value} {a b : Word} (hv : v.Means a)
    (hw : w.Means b) (hop : op.undisputed v w = true) (hu : op.apply v w = .ok u)
    (hbounded : u.isBounded = true) (hpower : op ≠ .power) :
    ∃ c, op.onWords? a b = some c ∧ u.Means c := by
  by_cases hequality : op = .equal ∨ op = .notEqual
  · rcases hequality with rfl | rfl
    · cases hu
      refine ⟨_, rfl, ?_⟩
      rw [hv.equal hw (Bool.not_eq_true' _ ▸ hop)]
      exact .bool _
    · cases hu
      refine ⟨_, rfl, ?_⟩
      rw [hv.equal hw (Bool.not_eq_true' _ ▸ hop)]
      exact .bool _
  -- every operator but the two of equality refuses a truth value
  · cases hv with
    | bool p => cases hw <;> cases op <;> simp_all [BinaryOp.apply]
    | @number x n hx =>
      cases hw with
      | bool q => cases op <;> simp_all [BinaryOp.apply]
      | @number y k hy =>
        apply BinaryOp.applyNumbers_means hx hy hop ?_ hbounded hpower
        rw [← hu]
        cases op <;> simp_all [BinaryOp.apply]

end Scriptlet
