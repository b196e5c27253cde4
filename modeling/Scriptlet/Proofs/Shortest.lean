import Mathlib.Tactic.Linarith
import Scriptlet.Decimal.Shortest
import Scriptlet.Proofs.Decimals

/-!
# The shortest decimal identifies a number

The reals that round to a floating-point number form an interval around it, and the intervals of
different numbers have no point in common, their ends included: an end belongs to one of two
neighbours only, the one whose mantissa is even. The search for the shortest decimal always ends
with a decimal in the interval of the number, with seventeen digits at the latest, so different
numbers have different decimals.

## Contents

- §1 the interval of a number
- §2 intervals on a grid
- §3 the search
- §4 intervals of different numbers
-/

namespace Scriptlet

namespace Decimal

/-! ## §1 The interval of a number -/

namespace Binary

/-- The number. -/
def value (b : Binary) : ℚ := b.mantissa * 2 ^ b.exponent

/-- The lower end of the interval. -/
def low (b : Binary) : ℚ := (4 * b.mantissa - if b.narrowBelow then 1 else 2) * 2 ^ (b.exponent - 2)

/-- The upper end of the interval. -/
def high (b : Binary) : ℚ := (4 * b.mantissa + 2) * 2 ^ (b.exponent - 2)

/-- The rational rounds to the number. -/
structure Holds (b : Binary) (r : ℚ) : Prop where
  low_le : b.low ≤ r
  le_high : r ≤ b.high
  /-- The ends belong to numbers of even mantissa. -/
  inside : b.mantissa % 2 = 1 → b.low < r ∧ r < b.high

/-- The mantissa is as large as the exponent allows. -/
structure Normal (b : Binary) : Prop where
  pos : 0 < b.mantissa
  lt : b.mantissa < 2 ^ 53
  least : -1074 ≤ b.exponent
  full : -1074 < b.exponent → 2 ^ 52 ≤ b.mantissa
  narrow : b.narrowBelow = true ↔ b.mantissa = 2 ^ 52 ∧ -1074 < b.exponent

theorem Holds.of_lt {b : Binary} {r : ℚ} (hlow : b.low < r) (hhigh : r < b.high) : b.Holds r :=
  ⟨hlow.le, hhigh.le, fun _ => ⟨hlow, hhigh⟩⟩

theorem value_eq (b : Binary) : b.value = 4 * b.mantissa * 2 ^ (b.exponent - 2) := by
  rw [value, zpow_sub₀ (by norm_num)]
  ring

theorem unit_pos (e : Int) : (0 : ℚ) < 2 ^ e := zpow_pos (by norm_num) e

theorem low_pos {b : Binary} (h : b.Normal) : 0 < b.low := by
  have hone : (1 : ℚ) ≤ b.mantissa := by exact_mod_cast h.pos
  refine mul_pos ?_ (unit_pos _)
  split <;> linarith

end Binary

/-! ## §2 Intervals on a grid -/

section

variable (b : Binary) (p : Int)

theorem pow_toNat (base : ℚ) (h : base ≠ 0) (e : Int) :
    base ^ e.toNat = base ^ e * base ^ (-e).toNat := by
  rw [← zpow_natCast, ← zpow_natCast, ← zpow_add₀ h]
  congr 1
  omega

theorem Binary.step_pos : (0 : ℚ) < (b.window p).step := by
  have hstep : (b.window p).step = 2 ^ (2 - b.exponent).toNat * 10 ^ p.toNat := rfl
  rw [hstep]
  positivity

/-- A count of quarter units, measured in steps of the grid. -/
theorem Binary.scaled (k : Nat) :
    ((k * (2 ^ (b.exponent - 2).toNat * 10 ^ (-p).toNat) : ℕ) : ℚ) * 10 ^ p
      = k * 2 ^ (b.exponent - 2) * (b.window p).step := by
  have hstep : (b.window p).step = 2 ^ (2 - b.exponent).toNat * 10 ^ p.toNat := rfl
  have htwo := pow_toNat 2 (by norm_num) (b.exponent - 2)
  have hten := pow_toNat 10 (by norm_num) (-p)
  rw [neg_neg] at hten
  rw [neg_sub] at htwo
  -- the powers are those of the step, brought to one side
  rw [hstep]
  push_cast
  rw [htwo, hten, zpow_neg]
  field_simp

theorem Binary.window_value : ((b.window p).value : ℚ) * 10 ^ p = b.value * (b.window p).step := by
  have hvalue : (b.window p).value
      = 4 * b.mantissa * (2 ^ (b.exponent - 2).toNat * 10 ^ (-p).toNat) := rfl
  rw [hvalue, b.scaled, b.value_eq]
  push_cast
  rfl

theorem Binary.window_high : ((b.window p).high : ℚ) * 10 ^ p = b.high * (b.window p).step := by
  have hhigh : (b.window p).high
      = (4 * b.mantissa + 2) * (2 ^ (b.exponent - 2).toNat * 10 ^ (-p).toNat) := rfl
  rw [hhigh, b.scaled, Binary.high]
  push_cast
  rfl

variable {b}

theorem Binary.window_low (h : b.Normal) :
    ((b.window p).low : ℚ) * 10 ^ p = b.low * (b.window p).step := by
  have hlow : (b.window p).low = (4 * b.mantissa - if b.narrowBelow then 1 else 2)
      * (2 ^ (b.exponent - 2).toNat * 10 ^ (-p).toNat) := rfl
  -- the interval below is half as wide at a power of two
  have hpos := h.pos
  rw [hlow, b.scaled, Binary.low]
  split
  · rw [Nat.cast_sub (by omega)]
    push_cast
    rfl
  · rw [Nat.cast_sub (by omega)]
    push_cast
    rfl

/-- The points of the grid that lie in the window are those that round to the number. -/
theorem Binary.contains_iff (h : b.Normal) (c : Nat) :
    (b.window p).contains c = true ↔ b.Holds (c * 10 ^ p) := by
  have hten : (0 : ℚ) < 10 ^ p := zpow_pos (by norm_num) p
  -- the same is compared on both sides, in steps of the grid and as it is
  have hscale {n : Nat} {r : ℚ} (hn : (n : ℚ) * 10 ^ p = r * (b.window p).step) :
      (n ≤ c * (b.window p).step ↔ r ≤ c * 10 ^ p) ∧
        (c * (b.window p).step ≤ n ↔ c * 10 ^ p ≤ r) := by
    constructor <;>
      rw [← Nat.cast_le (α := ℚ), ← mul_le_mul_iff_left₀ hten, hn, Nat.cast_mul, mul_right_comm,
        mul_le_mul_iff_left₀ (b.step_pos p)]
  obtain ⟨hlow, hlow'⟩ := hscale (window_low p h)
  obtain ⟨hhigh, hhigh'⟩ := hscale (b.window_high p)
  have hclosed : (b.window p).closed = (b.mantissa % 2 == 0) := rfl
  unfold Window.contains
  rw [hclosed]
  by_cases heven : b.mantissa % 2 = 0
  · simp only [heven, beq_self_eq_true, if_true, Bool.and_eq_true, decide_eq_true_eq, hlow, hhigh']
    exact ⟨fun ⟨hl, hr⟩ => ⟨hl, hr, fun hodd => by omega⟩,
      fun hholds => ⟨hholds.low_le, hholds.le_high⟩⟩
  · have hbeq : (b.mantissa % 2 == 0) = false := beq_eq_false_iff_ne.mpr heven
    simp only [hbeq, Bool.false_eq_true, if_false, Bool.and_eq_true, decide_eq_true_eq,
      ← not_le, hlow', hhigh]
    simp only [not_le]
    exact ⟨fun ⟨hl, hr⟩ => ⟨hl.le, hr.le, fun _ => ⟨hl, hr⟩⟩,
      fun hholds => hholds.inside (by omega)⟩

theorem Window.contains_of_nearest? {w : Window} {c : Nat} (h : w.nearest? = some c) :
    w.contains c = true := by
  unfold nearest? at h
  -- of two neighbours in the window the nearer is taken, or the even one
  simp only at h
  split at h
  · next hbelow habove =>
    split at h
    · cases h
      exact hbelow
    · split at h
      · cases h
        exact habove
      · cases h
        split <;> assumption
  · next hbelow _ =>
    cases h
    exact hbelow
  · next habove =>
    cases h
    exact habove
  · cases h

/-- A neighbour of the value that lies in the window is found. -/
theorem Window.exists_nearest? {w : Window}
    (h : w.contains (w.value / w.step) = true ∨ w.contains (w.value / w.step + 1) = true) :
    ∃ c, w.nearest? = some c := by
  unfold nearest?
  -- the search fails only where neither neighbour is in the window
  simp only
  split
  · split
    · exact ⟨_, rfl⟩
    · split <;> exact ⟨_, rfl⟩
  · exact ⟨_, rfl⟩
  · exact ⟨_, rfl⟩
  · next hbelow habove =>
    rw [hbelow, habove] at h
    rcases h with h | h <;> cases h

/-! ## §3 The search -/

theorem Digits.value_trimmed (fuel : Nat) (d : Digits) : (d.trimmed fuel).value = d.value := by
  induction fuel generalizing d with
  | zero => rfl
  -- a last zero is taken off together with one power of ten
  | succ fuel ih =>
    rw [trimmed]
    split
    · next h =>
      rw [Bool.and_eq_true, beq_iff_eq] at h
      have hdigits : d.digits = 10 * (d.digits / 10) := by omega
      have hcast : (d.digits : ℚ) = 10 * (d.digits / 10 : ℕ) := by exact_mod_cast hdigits
      rw [ih, value, value, hcast, zpow_add_one₀ (by norm_num)]
      ring
    · rfl

/-- Once a number of digits is enough, the search has found a decimal in the window. -/
theorem Binary.holds_search (h : b.Normal) {magnitude : Int} {fuel n k : Nat} (hn : n ≤ k)
    (hk : k < n + fuel) (hc : ∃ c, (b.window (magnitude - k)).nearest? = some c) :
    b.Holds (b.search magnitude fuel n).value := by
  induction fuel generalizing n with
  | zero => omega
  | succ fuel ih =>
    rw [search]
    cases hnearest : (b.window (magnitude - n)).nearest? with
    | some c =>
      rw [Digits.value_trimmed]
      exact (contains_iff _ h c).mp (Window.contains_of_nearest? hnearest)
    | none =>
      -- the grid was too coarse, so it is not yet the one that is known to be fine enough
      refine ih ?_ (by omega)
      rcases Nat.eq_or_lt_of_le hn with rfl | hlt
      · obtain ⟨c, hc⟩ := hc
        rw [hnearest] at hc
        cases hc
      · exact hlt

/-- No number is so small that none of its digits is counted. -/
theorem Binary.one_le_value (h : b.Normal) : 1 ≤ b.value * 10 ^ (400 : Int) := by
  have hone : (1 : ℚ) ≤ b.mantissa := by exact_mod_cast h.pos
  have hunit : (2 : ℚ) ^ (-1074 : Int) ≤ 2 ^ b.exponent := zpow_le_zpow_right₀ (by norm_num) h.least
  have hpowers : (2 : ℚ) ^ (1074 : Int) ≤ 10 ^ (400 : Int) := by
    exact_mod_cast (by decide +kernel : 2 ^ 1074 ≤ 10 ^ 400)
  have hleast : (1 : ℚ) ≤ 2 ^ (-1074 : Int) * 10 ^ (400 : Int) := by
    rwa [zpow_neg, ← div_eq_inv_mul, one_le_div₀ (unit_pos _)]
  have hvalue : (2 : ℚ) ^ (-1074 : Int) ≤ b.value :=
    hunit.trans (le_mul_of_one_le_left (unit_pos _).le hone)
  exact hleast.trans (mul_le_mul_of_nonneg_right hvalue (zpow_pos (by norm_num) _).le)

/-- The leading digit of the number stands where the magnitude says. -/
theorem Binary.magnitude_le (h : b.Normal) : (10 : ℚ) ^ (b.magnitude - 1) ≤ b.value := by
  have hstep := b.step_pos (-400)
  have hvalue := b.window_value (-400)
  have hmagnitude : b.magnitude = ((Nat.toDigits 10
      ((b.window (-400)).value / (b.window (-400)).step)).length : Int) - 400 := rfl
  rw [hmagnitude]
  generalize b.window (-400) = w at *
  have hwhole : (w.value : ℚ) = b.value * 10 ^ (400 : Int) * w.step := by
    rw [mul_right_comm, ← hvalue, mul_assoc, ← zpow_add₀ (by norm_num)]
    norm_num
  have hpos : 0 < w.value / w.step := by
    refine Nat.div_pos ?_ (by exact_mod_cast hstep)
    rw [← Nat.cast_le (α := ℚ), hwhole]
    exact le_mul_of_one_le_left hstep.le (one_le_value h)
  -- as many digits as there are say how large the whole part is
  have hdigits : 10 ^ ((Nat.toDigits 10 (w.value / w.step)).length - 1) ≤ w.value / w.step := by
    rcases Nat.eq_zero_or_pos ((Nat.toDigits 10 (w.value / w.step)).length - 1) with hzero | hmore
    · rw [hzero]
      exact hpos
    · by_contra hlt
      have := (Nat.length_toDigits_le_iff (by decide) hmore).mpr (Nat.lt_of_not_le hlt)
      omega
  have hlength : 0 < (Nat.toDigits 10 (w.value / w.step)).length := Nat.length_toDigits_pos
  have hle : ((w.value / w.step : ℕ) : ℚ) ≤ b.value * 10 ^ (400 : Int) := by
    rw [← mul_le_mul_iff_left₀ hstep, ← hwhole]
    exact_mod_cast Nat.div_mul_le_self _ _
  have hpower : (10 : ℚ) ^ ((Nat.toDigits 10 (w.value / w.step)).length - 1)
      ≤ b.value * 10 ^ (400 : Int) := by
    refine le_trans ?_ hle
    exact_mod_cast hdigits
  have hsplit : (10 : ℚ) ^ (((Nat.toDigits 10 (w.value / w.step)).length : Int) - 400 - 1)
      * 10 ^ (400 : Int) = 10 ^ ((Nat.toDigits 10 (w.value / w.step)).length - 1) := by
    rw [← zpow_add₀ (by norm_num), ← zpow_natCast]
    congr 1
    omega
  rwa [← mul_le_mul_iff_left₀ (zpow_pos (by norm_num : (0 : ℚ) < 10) 400), hsplit]

/-- The point of the grid at or below the number, and that the next one is above it. -/
theorem Binary.below_le_value (p : Int) :
    ((b.window p).value / (b.window p).step : ℕ) * (10 : ℚ) ^ p ≤ b.value ∧
      b.value < (((b.window p).value / (b.window p).step + 1 : ℕ) : ℚ) * 10 ^ p := by
  have hten : (0 : ℚ) < 10 ^ p := zpow_pos (by norm_num) p
  have hstep := b.step_pos p
  have hvalue := b.window_value p
  -- the window measures everything in whole steps, so this is division with remainder
  generalize b.window p = w at *
  have hpos : 0 < w.step := by exact_mod_cast hstep
  constructor
  · rw [← mul_le_mul_iff_left₀ hstep, ← hvalue, mul_right_comm, mul_le_mul_iff_left₀ hten]
    exact_mod_cast Nat.div_mul_le_self w.value w.step
  · rw [← mul_lt_mul_iff_left₀ hstep, ← hvalue, mul_right_comm, mul_lt_mul_iff_left₀ hten]
    exact_mod_cast Nat.lt_mul_of_div_lt (Nat.lt_succ_self _) hpos

/-- Where the grid is fine enough one of the two neighbours of the number rounds to it. -/
theorem Binary.holds_neighbour (h : b.Normal) {c s : ℚ} (hbelow : c * s ≤ b.value)
    (habove : b.value < (c + 1) * s) (hfine : s * 10 ^ 16 ≤ b.value) :
    b.Holds (c * s) ∨ b.Holds ((c + 1) * s) := by
  have hunit := unit_pos (b.exponent - 2)
  have hmantissa : (b.mantissa : ℚ) < 2 ^ 53 := by exact_mod_cast h.lt
  rw [add_one_mul] at habove ⊢
  rw [value_eq] at hbelow habove hfine
  by_cases hnarrow : b.narrowBelow = true
  · -- below a power of two the interval is short, so the neighbour above is taken
    have hpower : (b.mantissa : ℚ) = 2 ^ 52 := by exact_mod_cast (h.narrow.mp hnarrow).1
    right
    refine .of_lt ?_ ?_
    · rw [low, if_pos hnarrow]
      linarith
    · rw [high]
      rw [hpower] at hfine hbelow ⊢
      linarith
  · have hstep : s < 4 * 2 ^ (b.exponent - 2) := by nlinarith
    rcases le_or_gt (4 * b.mantissa * 2 ^ (b.exponent - 2) - c * s) (s / 2) with hnear | hfar
    · left
      refine .of_lt ?_ ?_
      · rw [low, if_neg hnarrow]
        linarith
      · rw [high]
        linarith
    · right
      refine .of_lt ?_ ?_
      · rw [low, if_neg hnarrow]
        linarith
      · rw [high]
        linarith

/-- A grid of seventeen digits has a point in the window. -/
theorem Binary.seventeen_digits (h : b.Normal) :
    ∃ c, (b.window (b.magnitude - (17 : Nat))).nearest? = some c := by
  refine Window.exists_nearest? ?_
  rw [contains_iff _ h, contains_iff _ h]
  obtain ⟨hbelow, habove⟩ := b.below_le_value (b.magnitude - (17 : Nat))
  rw [Nat.cast_add_one (R := ℚ)] at habove ⊢
  refine holds_neighbour h hbelow habove (le_of_eq_of_le ?_ (magnitude_le h))
  rw [← zpow_natCast, ← zpow_add₀ (by norm_num)]
  congr 1
  omega

/-- **The shortest decimal rounds to the number.** -/
theorem Binary.holds_shortest (h : b.Normal) : b.Holds b.shortest.value :=
  holds_search h (k := 17) (by omega) (by omega) (seventeen_digits h)

end

/-! ## §4 Intervals of different numbers -/

namespace Binary

variable {b c : Binary} {r : ℚ}

/-- The interval of a number ends where that of one with a larger exponent starts, or before. -/
theorem not_holds_of_exponent_lt (hb : b.Normal) (hc : c.Normal) (hlt : b.exponent < c.exponent)
    (h : b.Holds r) : ¬ c.Holds r := by
  intro h'
  have hunit := unit_pos (b.exponent - 2)
  have hmantissa : (b.mantissa : ℚ) ≤ 2 ^ 53 - 1 := by
    rw [le_sub_iff_add_le]
    exact_mod_cast hb.lt
  have hdouble : 2 * (2 : ℚ) ^ (b.exponent - 2) ≤ 2 ^ (c.exponent - 2) := by
    rw [← zpow_one_add₀ (by norm_num)]
    exact zpow_le_zpow_right₀ (by norm_num) (by omega)
  -- the other has at least fifty-three bits, and its interval is short below a power of two
  have hfull : 2 ^ 52 ≤ c.mantissa := hc.full (hb.least.trans_lt hlt)
  have hquarters : 4 * 2 ^ 52 - 1 ≤ (4 * c.mantissa - if c.narrowBelow then 1 else 2 : ℚ) := by
    split
    · have hcast : (2 : ℚ) ^ 52 ≤ c.mantissa := by exact_mod_cast hfull
      linarith
    · next hnarrow =>
      have hne : c.mantissa ≠ 2 ^ 52 := fun heq =>
        hnarrow (hc.narrow.mpr ⟨heq, hb.least.trans_lt hlt⟩)
      have hcast : (2 : ℚ) ^ 52 + 1 ≤ c.mantissa := by
        exact_mod_cast Nat.lt_of_le_of_ne hfull (Ne.symm hne)
      linarith
  have hle : (2 ^ 55 - 2) * 2 ^ (b.exponent - 2) ≤ c.low := by
    rw [low]
    nlinarith
  have hhigh : b.high ≤ (2 ^ 55 - 2) * 2 ^ (b.exponent - 2) := by
    rw [high]
    nlinarith
  -- where both end the mantissa is the largest, which is odd
  have hend : r = b.high := le_antisymm h.le_high (hhigh.trans (hle.trans h'.low_le))
  have hlargest : (b.mantissa : ℚ) = 2 ^ 53 - 1 := by
    have heq : b.high = (2 ^ 55 - 2) * 2 ^ (b.exponent - 2) :=
      le_antisymm hhigh (hend ▸ hle.trans h'.low_le)
    have hfactor := mul_right_cancel₀ hunit.ne' heq
    linarith
  have hodd : b.mantissa % 2 = 1 := by
    have hnat : b.mantissa + 1 = 2 ^ 53 := by
      have : (b.mantissa : ℚ) + 1 = 2 ^ 53 := by rw [hlargest]; ring
      exact_mod_cast this
    omega
  exact absurd hend (h.inside hodd).2.ne

theorem not_holds_of_mantissa_lt (heq : b.exponent = c.exponent) (hlt : b.mantissa < c.mantissa)
    (h : b.Holds r) : ¬ c.Holds r := by
  intro h'
  have hunit := unit_pos (b.exponent - 2)
  have hmantissa : (b.mantissa : ℚ) + 1 ≤ c.mantissa := by exact_mod_cast hlt
  have hle : (4 * c.mantissa - 2) * 2 ^ (b.exponent - 2) ≤ c.low := by
    rw [low, ← heq]
    refine mul_le_mul_of_nonneg_right ?_ hunit.le
    split <;> linarith
  have hhigh : b.high ≤ (4 * c.mantissa - 2) * 2 ^ (b.exponent - 2) := by
    rw [high]
    refine mul_le_mul_of_nonneg_right ?_ hunit.le
    linarith
  have hend : r = b.high := le_antisymm h.le_high (hhigh.trans (hle.trans h'.low_le))
  have hstart : r = c.low := le_antisymm (h.le_high.trans (hhigh.trans hle)) h'.low_le
  -- of two neighbours one is odd
  have hnext : (b.mantissa : ℚ) + 1 = c.mantissa := by
    have heq : b.high = (4 * c.mantissa - 2) * 2 ^ (b.exponent - 2) :=
      le_antisymm hhigh (hend ▸ hstart ▸ hle)
    have hfactor := mul_right_cancel₀ hunit.ne' heq
    linarith
  have hnat : b.mantissa + 1 = c.mantissa := by exact_mod_cast hnext
  rcases Nat.mod_two_eq_zero_or_one b.mantissa with heven | hodd
  · exact absurd hstart (h'.inside (by omega)).1.ne'
  · exact absurd hend (h.inside hodd).2.ne

/-- **A rational rounds to one number at most.** -/
theorem eq_of_holds (hb : b.Normal) (hc : c.Normal) (h : b.Holds r) (h' : c.Holds r) : b = c := by
  -- of two numbers with a rational in both intervals neither has the greater exponent or mantissa
  have hexponent : b.exponent = c.exponent := by
    rcases lt_trichotomy b.exponent c.exponent with hlt | heq | hlt
    · exact absurd h' (not_holds_of_exponent_lt hb hc hlt h)
    · exact heq
    · exact absurd h (not_holds_of_exponent_lt hc hb hlt h')
  have hmantissa : b.mantissa = c.mantissa := by
    rcases lt_trichotomy b.mantissa c.mantissa with hlt | heq | hlt
    · exact absurd h' (not_holds_of_mantissa_lt hexponent hlt h)
    · exact heq
    · exact absurd h (not_holds_of_mantissa_lt hexponent.symm hlt h')
  have hnarrow : b.narrowBelow = c.narrowBelow := by
    rw [Bool.eq_iff_iff, hb.narrow, hc.narrow, hmantissa, hexponent]
  obtain ⟨m, e, n⟩ := b
  obtain ⟨m', e', n'⟩ := c
  cases hexponent
  cases hmantissa
  cases hnarrow
  rfl

/-- Numbers with shortest decimals of one value are the same. -/
theorem eq_of_shortest (hb : b.Normal) (hc : c.Normal) (h : b.shortest.value = c.shortest.value) :
    b = c :=
  eq_of_holds hb hc (holds_shortest hb) (h ▸ holds_shortest hc)

end Binary

end Decimal

end Scriptlet
