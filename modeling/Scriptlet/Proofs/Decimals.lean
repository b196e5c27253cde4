import Mathlib.Algebra.Order.Field.Power
import Mathlib.Data.List.TakeWhile
import Mathlib.Data.Rat.Cast.Order
import Mathlib.Tactic.FieldSimp
import Mathlib.Tactic.Ring
import Scriptlet.Decimal.Written

/-!
# The value of a written decimal

A text of digits, with or without a point and an exponent, has a value, and what is written of some
digits has their value: neither the place of the point nor the form with an exponent changes it.

## Contents

- §1 cutting at a mark
- §2 the value of a text
- §3 digits as they are written
-/

namespace Scriptlet

namespace Decimal

/-! ## §1 Cutting at a mark -/

/-- What stands before the first mark and what stands behind it. -/
def cut (mark : Char) (cs : List Char) : List Char × List Char :=
  (cs.takeWhile (· != mark), (cs.dropWhile (· != mark)).tail)

section

variable {mark : Char} {cs : List Char}

theorem bne_of_not_mem (h : mark ∉ cs) : ∀ c ∈ cs, (c != mark) = true := by
  intro c hc
  rw [bne_iff_ne]
  rintro rfl
  exact h hc

/-- The text is cut at the first mark. -/
theorem cut_append (h : mark ∉ cs) (ds : List Char) : cut mark (cs ++ mark :: ds) = (cs, ds) := by
  have hall := bne_of_not_mem h
  rw [cut, List.takeWhile_append_of_pos hall, List.dropWhile_append_of_pos hall]
  simp

/-- A text without the mark is not cut. -/
theorem cut_of_not_mem (h : mark ∉ cs) : cut mark cs = (cs, []) := by
  have hall := bne_of_not_mem h
  rw [cut, List.takeWhile_eq_self_iff.mpr hall, List.dropWhile_eq_nil_iff.mpr hall, List.tail_nil]

end

/-! ## §2 The value of a text -/

/-- The value of digits with or without a point. -/
def plainValue (cs : List Char) : ℚ :=
  Nat.ofDigitChars 10 ((cut '.' cs).1 ++ (cut '.' cs).2) 0 / 10 ^ (cut '.' cs).2.length

/-- The value of a sign and digits. -/
def exponentValue : List Char → Int
  | [] => 0
  | c :: ds => if c = '-' then -Nat.ofDigitChars 10 ds 0 else Nat.ofDigitChars 10 ds 0

/-- The value of digits with or without a point and an exponent. -/
def textValue (cs : List Char) : ℚ :=
  plainValue (cut 'e' cs).1 * 10 ^ exponentValue (cut 'e' cs).2

/-- The value of digits. -/
def Digits.value (d : Digits) : ℚ := d.digits * 10 ^ d.exponent

theorem plainValue_whole {cs : List Char} (h : '.' ∉ cs) :
    plainValue cs = Nat.ofDigitChars 10 cs 0 := by
  simp [plainValue, cut_of_not_mem h]

/-- The digits behind the point count as tenths, hundredths and so on. -/
theorem plainValue_point {cs : List Char} (h : '.' ∉ cs) (ds : List Char) :
    plainValue (cs ++ '.' :: ds) = Nat.ofDigitChars 10 (cs ++ ds) 0 / 10 ^ ds.length := by
  simp [plainValue, cut_append h]

theorem textValue_plain {cs : List Char} (h : 'e' ∉ cs) : textValue cs = plainValue cs := by
  simp [textValue, cut_of_not_mem h, exponentValue]

/-- The exponent multiplies by a power of ten. -/
theorem textValue_exponent {cs : List Char} (h : 'e' ∉ cs) (ds : List Char) :
    textValue (cs ++ 'e' :: ds) = plainValue cs * 10 ^ exponentValue ds := by
  simp [textValue, cut_append h]

/-! ## §3 Digits as they are written -/

section

variable {c : Char} {n : Nat}

theorem isDigit_of_mem (h : c ∈ Nat.toDigits 10 n) : c.isDigit = true :=
  Nat.isDigit_of_mem_toDigits (by decide) (by decide) h

theorem not_mem_toDigits (h : c.isDigit = false) : c ∉ Nat.toDigits 10 n := fun hmem => by
  rw [isDigit_of_mem hmem] at h
  cases h

/-- The digits of a number are read back to it. -/
theorem ofDigitChars_toDigits : Nat.ofDigitChars 10 (Nat.toDigits 10 n) 0 = n :=
  Nat.ofDigitChars_toDigits (by decide) (by decide)

/-- Zeros in front of digits count nothing. -/
theorem ofDigitChars_padded (k n : Nat) :
    Nat.ofDigitChars 10 (List.replicate k '0' ++ Nat.toDigits 10 n) 0 = n := by
  rw [Nat.ofDigitChars_append, Nat.ofDigitChars_replicate_zero, Nat.mul_zero, ofDigitChars_toDigits]

/-- An exponent is read back with its sign, whatever zeros stand in front. -/
theorem exponentValue_digits (k : Nat) (e : Int) :
    exponentValue ((if e < 0 then '-' else '+') ::
      (List.replicate k '0' ++ Nat.toDigits 10 e.natAbs)) = e := by
  rw [exponentValue, ofDigitChars_padded]
  by_cases he : e < 0
  · rw [if_pos he, if_pos rfl]
    omega
  · rw [if_neg he, if_neg (by decide)]
    omega

/-- Written by position, a number has digits and at most a point. -/
theorem mem_positional {e : Int} (h : c ∈ positional (Nat.toDigits 10 n) e) :
    c.isDigit = true ∨ c = '.' := by
  have hzero {k : Nat} (h : c ∈ List.replicate k '0') : c.isDigit = true := by
    rw [List.eq_of_mem_replicate h]
    rfl
  -- digits with a point or zeros around them, by where the point falls
  unfold positional at h
  simp only at h
  split at h
  · simp only [List.mem_append, List.mem_cons, List.not_mem_nil, or_false] at h
    obtain ((rfl | rfl) | h) | h := h
    · exact .inl rfl
    · exact .inr rfl
    · exact .inl (hzero h)
    · exact .inl (isDigit_of_mem h)
  · split at h
    · exact .inl ((List.mem_append.mp h).elim isDigit_of_mem hzero)
    · simp only [List.mem_append, List.mem_singleton] at h
      obtain (h | rfl) | h := h
      · exact .inl (isDigit_of_mem (List.mem_of_mem_take h))
      · exact .inr rfl
      · exact .inl (isDigit_of_mem (List.mem_of_mem_drop h))

/-- Written by position, digits have the value that the exponent gives them. -/
theorem plainValue_positional (n : Nat) (e : Int) :
    plainValue (positional (Nat.toDigits 10 n) e)
      = n * 10 ^ (e + 1 - (Nat.toDigits 10 n).length) := by
  have hpoint : '.' ∉ Nat.toDigits 10 n := not_mem_toDigits (by decide)
  unfold positional
  simp only
  split
  · -- zeros between the point and the digits
    have hform : ['0', '.'] ++ List.replicate (e.natAbs - 1) '0' ++ Nat.toDigits 10 n
        = ['0'] ++ '.' :: (List.replicate (e.natAbs - 1) '0' ++ Nat.toDigits 10 n) := by simp
    have hpadded : ['0'] ++ (List.replicate (e.natAbs - 1) '0' ++ Nat.toDigits 10 n)
        = List.replicate (e.natAbs - 1 + 1) '0' ++ Nat.toDigits 10 n := by
      rw [List.replicate_succ]
      rfl
    rw [hform, plainValue_point (by decide), hpadded, ofDigitChars_padded, div_eq_mul_inv,
      ← zpow_natCast, ← zpow_neg, List.length_append, List.length_replicate]
    congr 2
    omega
  · split
    · -- zeros behind the digits
      have hmem : '.' ∉ Nat.toDigits 10 n
          ++ List.replicate (e.toNat + 1 - (Nat.toDigits 10 n).length) '0' := by
        simp [hpoint]
      rw [plainValue_whole hmem, Nat.ofDigitChars_append, ofDigitChars_toDigits,
        Nat.ofDigitChars_replicate_zero, Nat.cast_mul, Nat.cast_pow, mul_comm, ← zpow_natCast]
      congr 2
      omega
    · -- a point among the digits
      have hmem : '.' ∉ (Nat.toDigits 10 n).take (e.toNat + 1) := fun h =>
        hpoint (List.mem_of_mem_take h)
      rw [List.append_assoc, List.singleton_append, plainValue_point hmem, List.take_append_drop,
        ofDigitChars_toDigits, div_eq_mul_inv, ← zpow_natCast, ← zpow_neg, List.length_drop]
      congr 2
      omega

/-- Written with a point behind the first digit, a number has digits and at most that point. -/
theorem mem_pointed (h : c ∈ pointed (Nat.toDigits 10 n)) : c.isDigit = true ∨ c = '.' := by
  have hdigit (h : c ∈ Nat.toDigits 10 n) : c.isDigit = true := isDigit_of_mem h
  unfold pointed at h
  split at h
  · cases h
  · next heq => exact .inl (hdigit (heq ▸ h))
  · next heq =>
    -- the first digit stands before the point, the others behind it
    rw [heq] at hdigit
    simp only [List.mem_cons] at h hdigit
    obtain rfl | rfl | h := h
    · exact .inl (hdigit (.inl rfl))
    · exact .inr rfl
    · exact .inl (hdigit (.inr h))

/-- Written with a point behind the first digit, a number has the value of its digits so scaled.
-/
theorem plainValue_pointed (n : Nat) :
    plainValue (pointed (Nat.toDigits 10 n)) = n / 10 ^ ((Nat.toDigits 10 n).length - 1) := by
  have hpoint : '.' ∉ Nat.toDigits 10 n := not_mem_toDigits (by decide)
  have hvalue := ofDigitChars_toDigits (n := n)
  have hne : Nat.toDigits 10 n ≠ [] := Nat.toDigits_ne_nil
  -- the digits are any list of which the three facts above hold
  revert hpoint hvalue hne
  generalize Nat.toDigits 10 n = ds
  intro hpoint hvalue hne
  match ds with
  | [] => exact absurd rfl hne
  | [d] =>
    rw [pointed, plainValue_whole hpoint, hvalue]
    simp
  | d :: d' :: ds =>
    have hmem : '.' ∉ [d] := fun h => hpoint (List.mem_cons.mpr (.inl (List.mem_singleton.mp h)))
    have hform : pointed (d :: d' :: ds) = [d] ++ '.' :: (d' :: ds) := rfl
    rw [hform, plainValue_point hmem, List.singleton_append, hvalue]
    simp

/-- Numbers are written with digits, a point, a sign and the letter of the exponent. -/
theorem mem_written {f : Format} {d : Digits} (h : c ∈ d.written f) :
    c.isDigit = true ∨ c ∈ ['.', 'e', '+', '-'] := by
  have hplain (h : c.isDigit = true ∨ c = '.') : c.isDigit = true ∨ c ∈ ['.', 'e', '+', '-'] :=
    h.imp_right fun h => List.mem_cons.mpr (.inl h)
  unfold Digits.written at h
  simp only at h
  -- an exponent adds its letter and sign, and digits
  split at h
  · exact hplain (mem_positional h)
  · rcases List.mem_append.mp h with h | h
    · exact hplain (mem_pointed h)
    · simp only [exponentPart, List.mem_append, List.mem_cons, List.not_mem_nil, or_false] at h
      obtain ((rfl | rfl) | h) | h := h
      · exact .inr (by decide)
      · right
        split <;> decide
      · rw [List.eq_of_mem_replicate h]
        exact .inl rfl
      · exact .inl (isDigit_of_mem h)

/-- A digit comes first. -/
theorem exists_written (f : Format) (d : Digits) :
    ∃ c cs, d.written f = c :: cs ∧ c.isDigit = true := by
  obtain ⟨c, cs, hds⟩ := List.exists_cons_of_ne_nil (Nat.toDigits_ne_nil (n := d.digits) (b := 10))
  have hc : c.isDigit = true := isDigit_of_mem (n := d.digits) (by simp [hds])
  -- in each form a digit or a zero is written first
  unfold Digits.written
  rw [hds]
  simp only
  split
  · unfold positional
    simp only
    split
    · exact ⟨_, _, rfl, rfl⟩
    · split
      · exact ⟨_, _, rfl, hc⟩
      · exact ⟨_, _, rfl, hc⟩
  · unfold pointed
    split
    · next heq => cases heq
    · next heq => exact ⟨_, _, rfl, (List.cons.inj heq).1 ▸ hc⟩
    · next heq => exact ⟨_, _, rfl, (List.cons.inj heq).1 ▸ hc⟩

/-- **What is written of digits has their value**, in either form. -/
theorem textValue_written (f : Format) (d : Digits) : textValue (d.written f) = d.value := by
  have hlength : 0 < (Nat.toDigits 10 d.digits).length :=
    List.length_pos_iff.mpr Nat.toDigits_ne_nil
  unfold Digits.written
  simp only
  split
  · -- digits and a point
    rw [textValue_plain (fun h => absurd (mem_positional h) (by decide)),
      plainValue_positional, Digits.value]
    congr 2
    omega
  · -- an exponent behind the first digit and the point
    have hform (e : Int) : pointed (Nat.toDigits 10 d.digits) ++ exponentPart f e
        = pointed (Nat.toDigits 10 d.digits) ++ 'e' :: ((if e < 0 then '-' else '+') ::
          (List.replicate (f.exponentWidth - (Nat.toDigits 10 e.natAbs).length) '0'
            ++ Nat.toDigits 10 e.natAbs)) := by
      simp [exponentPart]
    rw [hform, textValue_exponent (fun h => absurd (mem_pointed h) (by decide)), plainValue_pointed,
      exponentValue_digits, Digits.value, div_mul_eq_mul_div, mul_div_assoc, ← zpow_natCast,
      ← zpow_sub₀ (by norm_num)]
    congr 2
    omega

end

end Decimal

end Scriptlet
