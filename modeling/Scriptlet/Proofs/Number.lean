import Scriptlet.Proofs.Derivation
import Scriptlet.Proofs.Encoding

/-!
# Numerals stand for numbers

Nodes are compared with the equality of floating-point numbers, in which not-a-number differs from
itself. No numeral stands for it: digits with a point are a rounded product or quotient of finite
numbers, and only products with an infinity or quotients of two zeros or infinities are not numbers.

## Contents

- §1 unpacked numbers
- §2 decimals
- §3 numerals
-/

namespace Scriptlet

open Float.Model (Format UnpackedFloat)
open Float.Model.UnpackedFloat (Sign Accuracy roundWithAccuracy unpackExponent
  unpackMantissa packedInfinity packedZero)

/-! ## §1 Unpacked numbers -/

/-- A float other than NaN is equal to itself. -/
theorem beq_self_of_isNaN {f : UnpackedFloat} (h : f.isNaN = false) : f.beq f = true := by
  cases f with
  | notANumber => cases h
  | infinity s => cases s <;> rfl
  | zero s => rfl
  | finite s m e hm => cases s <;> simp [UnpackedFloat.beq, UnpackedFloat.compare]

/-- Rounding makes no NaN. -/
theorem isNaN_roundWithAccuracy (spec : Format) (s : Sign) (m : Nat) (e : Int) (a : Accuracy) :
    (roundWithAccuracy spec s m e a).isNaN = false := by
  unfold roundWithAccuracy
  simp only
  split <;> rfl

/-- Whole numbers are no NaN. -/
theorem isNaN_ofNat (spec : Format) (n : Nat) : (UnpackedFloat.ofNat spec n).isNaN = false := by
  unfold UnpackedFloat.ofNat UnpackedFloat.ofInt UnpackedFloat.normalize
  split
  · exact isNaN_roundWithAccuracy ..
  · rfl
  · exact isNaN_roundWithAccuracy ..

section

variable {spec : Format} {a b : UnpackedFloat}

/-- A product with a finite factor is NaN only when the other is. -/
theorem isNaN_mul_finite (ha : a.isNaN = false) (hb : ∃ s m e hm, b = .finite s m e hm) :
    (UnpackedFloat.mul spec a b).isNaN = false := by
  obtain ⟨s, m, e, hm, rfl⟩ := hb
  cases a with
  | notANumber => cases ha
  | finite => exact isNaN_roundWithAccuracy ..
  | _ => rfl

/-- A quotient by a finite divisor is NaN only when the dividend is. -/
theorem isNaN_div_finite (ha : a.isNaN = false) (hb : ∃ s m e hm, b = .finite s m e hm) :
    (UnpackedFloat.div spec a b).isNaN = false := by
  obtain ⟨s, m, e, hm, rfl⟩ := hb
  cases a with
  | notANumber => cases ha
  | finite => exact isNaN_roundWithAccuracy ..
  | _ => rfl

end

/-- Packing makes no number not-a-number: what is too large becomes infinite. -/
theorem isNaN_unpack_pack {spec : Format} {f : UnpackedFloat} (h : f.isNaN = false) :
    (UnpackedFloat.unpack spec (UnpackedFloat.pack spec f)).isNaN = false := by
  -- only the greatest exponent with a mantissa other than zero is not a number
  have hcases : unpackExponent (UnpackedFloat.pack spec f) ≠ -1#_ ∨
      unpackMantissa (UnpackedFloat.pack spec f) = 0#_ := by
    fun_cases UnpackedFloat.pack with
    | case1 => cases h
    | case2 s => simp [packedInfinity]
    | case3 s => simp [packedZero]
    | case4 s m e hm biasedExponent hlarge => simp [packedInfinity]
    | case5 s m e hm actualMantissaBits biasedExponent hsmall hnormal =>
      have hlt : biasedExponent < 2 ^ spec.exponentBits - 1 := by omega
      have hmod : biasedExponent % 2 ^ spec.exponentBits = biasedExponent :=
        Nat.mod_eq_of_lt (by omega)
      have hne : biasedExponent ≠ 2 ^ spec.exponentBits - 1 := by omega
      left
      simp [BitVec.neg_one_eq_allOnes, ← BitVec.toNat_inj, hmod, hne]
    | case6 s m e hm actualMantissaBits biasedExponent hsmall hnormal =>
      left
      simp [Nat.pos_iff_ne_zero.1 spec.he]
  unfold UnpackedFloat.unpack
  simp only
  split
  · next hexp =>
    rw [if_pos (hcases.resolve_left (not_not_intro hexp))]
    rfl
  · split
    · split <;> rfl
    · rfl

/-! ## §2 Decimals -/

/-- The number equals itself. -/
def IsNumber (v : Float) : Prop := (v == v) = true

/-- Packing an unpacked number gives a number. -/
theorem isNumber_ofModel {f : UnpackedFloat} (h : f.isNaN = false) :
    IsNumber (.ofModel (Float.Model.pack f)) :=
  beq_self_of_isNaN (isNaN_unpack_pack h)

/-- The small powers of ten are neither zero nor infinite. -/
theorem powerOfTen_finite {e : Nat} (he : e < Float.exactlyRepresentablePowersOfTen.size) :
    ∃ s m k hm, Float.exactlyRepresentablePowersOfTen[e].toModel.unpack = .finite s m k hm := by
  have hall : ∀ v ∈ Float.exactlyRepresentablePowersOfTen.toList,
      (match v.toModel.unpack with | .finite .. => true | _ => false) = true :=
    List.all_eq_true.mp rfl
  have hfinite := hall _ (Array.getElem_mem_toList he)
  split at hfinite
  · next s m k hm heq => exact ⟨s, m, k, hm, heq⟩
  · cases hfinite

/-- Digits with an exponent make no NaN, however large the exponent. -/
theorem isNaN_ofScientific (spec : Format) (m : Nat) (e : Int) :
    (UnpackedFloat.ofScientific spec m e).isNaN = false := by
  -- only rounding can fail to give a constant
  unfold UnpackedFloat.ofScientific
  split
  · rfl
  · split
    · rfl
    · split
      · rfl
      · split
        · exact isNaN_roundWithAccuracy ..
        · exact isNaN_roundWithAccuracy ..

/-- The floats of literals are numbers. -/
theorem isNumber_floatOfScientific (m : Nat) (s : Bool) (e : Nat) :
    IsNumber (Float.ofScientific m s e) := by
  unfold Float.ofScientific
  split
  · next hsmall =>
    -- both the digits and the power of ten are exact here
    have hm : (m.toUInt64.toFloat).toModel.unpack.isNaN = false :=
      isNaN_unpack_pack (isNaN_ofNat Format.binary64 m.toUInt64.toNat)
    have hsize : e < Float.exactlyRepresentablePowersOfTen.size := by
      simp only [Float.exactlyRepresentablePowersOfTen, List.size_toArray, List.length_cons,
        List.length_nil]
      omega
    simp only
    split
    · exact isNumber_ofModel (isNaN_div_finite hm (powerOfTen_finite hsize))
    · exact isNumber_ofModel (isNaN_mul_finite hm (powerOfTen_finite hsize))
  · exact isNumber_ofModel (isNaN_ofScientific ..)

theorem isNumber_infinity : IsNumber Decimal.infinity := rfl

theorem isNumber_zero : IsNumber 0 := rfl

/-- Digits with an exponent of any sign are a number. -/
theorem isNumber_ofScientific (m : Nat) (e : Int) : IsNumber (Decimal.ofScientific m e) := by
  unfold Decimal.ofScientific
  -- numbers out of range are infinite or zero, and all others are rounded
  simp only
  split
  · exact isNumber_zero
  · split
    · exact isNumber_infinity
    · split
      · exact isNumber_zero
      · split
        · exact isNumber_floatOfScientific ..
        · exact isNumber_floatOfScientific ..

/-! ## §3 Numerals -/

/-- A result or the nearest value to one out of range is a number. -/
def GivesNumber : Except Decimal.ReadError Float → Prop
  | .ok v => IsNumber v
  | .error (.outOfRange v) => IsNumber v
  | .error .malformed => True

/-- A number with its sign set is still read as a number. -/
theorem givesNumber_signedResult {v : Float} (h : IsNumber v) :
    GivesNumber (Decimal.signedResult false v) := by
  simp only [Decimal.signedResult, Bool.false_eq_true, if_false]
  split <;> exact h

/-- What reads as a decimal gives a number, also out of range. -/
theorem givesNumber_readDecimal (cs : List Char) : GivesNumber (Decimal.readDecimal false cs) := by
  unfold Decimal.readDecimal
  split
  · trivial
  · simp only
    split
    · trivial
    · split
      · exact givesNumber_signedResult (isNumber_ofScientific ..)
      · trivial

/-- The characters of numerals come before the letters and have no case. -/
theorem Numeral.toLower_lt {cs : List Char} (h : Numeral cs) :
    ∀ c ∈ cs, c.toLower.toNat < 58 := by
  -- only capitals change their case, and they come behind the digits
  have hsmall {c : Char} (hc : c.toNat < 58) : c.toLower.toNat < 58 := by
    have hcase : ¬(c.val ≥ 'A'.val ∧ c.val ≤ 'Z'.val) := fun hupper => by
      have hge : 65 ≤ c.toNat := hupper.1
      omega
    rw [Char.toLower, dif_neg hcase]
    exact hc
  have hdigit {c : Char} (hc : isDecimalDigit c = true) : c.toNat < 58 := by
    simp only [isDecimalDigit, Bool.and_eq_true, decide_eq_true_eq] at hc
    have hle : c.toNat ≤ 57 := hc.2
    omega
  intro c hc
  cases h with
  | whole _ hne hds => exact hsmall (hdigit (hds c hc))
  | pointed ds fs hne hds hfs =>
    rcases List.mem_append.mp hc with hc | hc
    · exact hsmall (hdigit (hds c hc))
    · rcases List.mem_cons.mp hc with rfl | hc
      · decide
      · exact hsmall (hdigit (hfs c hc))

/-- Digits are not read as a word, and no base mark stands behind the first one. -/
theorem readChars_numeral {cs : List Char} (h : Numeral cs) :
    Decimal.readChars cs = Decimal.readDecimal false cs := by
  have hlower := h.toLower_lt
  obtain ⟨d, more, rfl, hd⟩ := h.head
  -- the words for infinity and not-a-number start with letters, which come behind the digits
  have hword : ∀ w : String, (∃ l ls, w = String.ofList (l :: ls) ∧ 58 ≤ l.toNat) →
      (String.ofList ((d :: more).map Char.toLower) == w) = false := by
    rintro _ ⟨l, ls, rfl, hl⟩
    refine beq_eq_false_iff_ne.mpr fun heq => ?_
    have hhead := hlower d (by simp)
    have hchars := String.ofList_inj.mp heq
    rw [(List.cons.inj hchars).1] at hhead
    omega
  have hunsigned : Decimal.readUnsigned false (d :: more)
      = Decimal.readDecimal false (d :: more) := by
    unfold Decimal.readUnsigned
    split
    · next x rest heq =>
      -- behind a zero only an `x` would make another base
      have hx := hlower x (by rw [heq]; simp)
      have hbase : (x.toLower == 'x') = false := by
        refine beq_eq_false_iff_ne.mpr fun hmark => ?_
        rw [hmark] at hx
        exact absurd hx (by decide)
      rw [hbase]
      rfl
    · rfl
  -- a numeral has no sign
  have hminus : d ≠ '-' := by rintro rfl; cases hd
  have hplus : d ≠ '+' := by rintro rfl; cases hd
  unfold Decimal.readChars
  split
  next signed negative body heq =>
    split at heq
    · next hcons => exact absurd (List.cons.inj hcons).1 hminus
    · next hcons => exact absurd (List.cons.inj hcons).1 hplus
    · cases heq
      dsimp only
      rw [hword "inf" ⟨'i', ['n', 'f'], rfl, by decide⟩,
        hword "infinity" ⟨'i', ['n', 'f', 'i', 'n', 'i', 't', 'y'], rfl, by decide⟩,
        hword "nan" ⟨'n', ['a', 'n'], rfl, by decide⟩, hunsigned]
      rfl

/-- The value of every numeral is a number. -/
theorem isNumber_numeralValue {t : Text} (h : IsNumeral t) : IsNumber (numeralValue t) := by
  obtain ⟨cs, hcs, rfl⟩ := h
  have hread := givesNumber_readDecimal cs
  -- a numeral is no special name, so its reading is that of a decimal
  rw [← readChars_numeral hcs] at hread
  unfold numeralValue Decimal.readNearest? Decimal.read
  rw [Text.chars_ofChars]
  split
  · next v heq =>
    rw [heq] at hread
    exact hread
  · next v heq =>
    rw [heq] at hread
    exact hread
  · exact isNumber_zero

end Scriptlet
