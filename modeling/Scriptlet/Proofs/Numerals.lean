import Scriptlet.Proofs.Clearing
import Scriptlet.Proofs.Shortest
import Scriptlet.Proofs.Whole

/-!
# The text of a number identifies it

Everything but not-a-number is written in a text of its own: from the text one sees whether it is an
infinity, its sign and the value of its shortest decimal, and these determine the bits of the
number.

## Contents

- §1 what the bits say
- §2 what the text says
- §3 numbers of one text
-/

namespace Scriptlet

open Float.Model (UnpackedFloat)
open Float.Model.UnpackedFloat (Sign)

namespace Decimal

/-! ## §1 What the bits say -/

section

variable {v w : Float} {negative : Bool} {b : Binary}

theorem normal_of_classify (h : classify v = .finite negative b) : b.Normal := by
  have hscale : v.toBits.toNat / Nat.pow 2 52 % Nat.pow 2 11 < 2 ^ 11 := Nat.mod_lt _ (by decide)
  have hfraction : v.toBits.toNat % Nat.pow 2 52 < 2 ^ 52 := Nat.mod_lt _ (by decide)
  unfold classify at h
  simp only at h
  -- the field of the exponent and that of the fraction are any numbers of their sizes
  generalize v.toBits.toNat / Nat.pow 2 52 % Nat.pow 2 11 = scale at *
  generalize v.toBits.toNat % Nat.pow 2 52 = fraction at *
  split at h
  · split at h <;> cases h
  split at h
  · split at h <;> cases h
    next hzero =>
    rw [beq_iff_eq] at hzero
    refine ⟨?_, ?_, ?_, ?_, ?_⟩ <;> simp <;> omega
  · next hinf hsub =>
    rw [beq_iff_eq] at hinf hsub
    cases h
    refine ⟨?_, ?_, ?_, ?_, ?_⟩ <;> simp <;> omega

/-- What the bits say shows what they unpack to. -/
theorem unpacked_of_classOf {narrow narrow' : Bool} {f g : UnpackedFloat}
    (h : classOf narrow f = classOf narrow' g) : f = g := by
  have hsign {s t : Sign} (h : (s == .negative) = (t == .negative)) : s = t := by
    cases s <;> cases t <;> first | rfl | cases h
  -- the class names the kind, and for a finite number all that it has
  cases f with
  | notANumber => cases g <;> first | rfl | cases h
  | infinity s =>
    cases g with
    | infinity t => rw [hsign (Class.infinite.inj h)]
    | _ => cases h
  | zero s =>
    cases g with
    | zero t => rw [hsign (Class.zero.inj h)]
    | _ => cases h
  | finite s m e hm =>
    cases g with
    | finite t n e' hn =>
      obtain ⟨hs, hsize⟩ := Class.finite.inj h
      cases hsign hs
      cases hsize
      rfl
    | _ => cases h

/-- The class of a number determines it. -/
theorem float_eq_of_classify (h : classify v = classify w) (hnan : classify v ≠ .nan) : v = w := by
  obtain ⟨narrow, hv⟩ := classify_eq v
  obtain ⟨narrow', hw⟩ := classify_eq w
  refine float_eq_of_unpack (unpacked_of_classOf (hv.symm.trans (h.trans hw))) fun hunpack => ?_
  rw [hv, hunpack] at hnan
  exact hnan rfl

/-- A number has another class than not-a-number. -/
theorem classify_ne_nan (h : IsNumber v) : classify v ≠ .nan := by
  obtain ⟨narrow, hv⟩ := classify_eq v
  have hcompare : v.toModel.unpack.compare v.toModel.unpack = some .eq := beq_iff_eq.mp h
  rw [hv]
  cases hunpack : v.toModel.unpack with
  | notANumber =>
    rw [hunpack] at hcompare
    cases hcompare
  | _ => exact Class.noConfusion

end

/-! ## §2 What the text says -/

/-- The sign of a number that is finite, and the value of its decimal without it. -/
noncomputable def Class.signed? : Class → Option (Bool × ℚ)
  | .zero negative => some (negative, 0)
  | .finite negative b => some (negative, b.shortest.value)
  | _ => none

/-- The sign and the value of digits with or without a sign; infinities and not-a-number have
none. -/
def signedValue? (cs : List Char) : Option (Bool × ℚ) :=
  if 'N' ∈ cs ∨ 'I' ∈ cs then none
  else if cs.head? = some '-' then some (true, textValue cs.tail)
  else some (false, textValue cs)

theorem signedValue?_signed {cs : List Char} (hsome : ∃ c ds, cs = c :: ds ∧ c.isDigit = true)
    (hmem : ∀ c ∈ cs, c.isDigit = true ∨ c ∈ ['.', 'e', '+', '-']) (negative : Bool) :
    signedValue? (sign negative ++ cs) = some (negative, textValue cs) := by
  -- neither an `I` nor an `N` is part of digits with a sign, so this is no name of a number
  have hnone {c : Char} (hdigit : c.isDigit = false) (hc : c ∉ ['.', 'e', '+', '-']) :
      c ∉ sign negative ++ cs := by
    have hcs : c ∉ cs := fun h => by
      rcases hmem c h with h | h
      · rw [hdigit] at h
        cases h
      · exact hc h
    cases negative
    · exact hcs
    · simp only [sign, if_true, List.singleton_append, List.mem_cons, hcs, or_false]
      rintro rfl
      exact hc (by decide)
  rw [signedValue?, if_neg]
  · cases negative
    · obtain ⟨c, ds, rfl, hdigit⟩ := hsome
      have hhead : c ≠ '-' := by
        rintro rfl
        cases hdigit
      simp [sign, hhead]
    · simp [sign]
  · exact not_or.mpr ⟨hnone (by decide) (by decide), hnone (by decide) (by decide)⟩

theorem signedValue?_chars (v : Float) : signedValue? (chars v) = (classify v).signed? := by
  unfold chars
  -- a zero and a finite number are digits with a sign, and the two others have names
  cases classify v with
  | nan => rfl
  | infinite negative => cases negative <;> rfl
  | zero negative =>
    have hzero : textValue ['0'] = 0 := by
      simp [textValue, plainValue, cut, exponentValue, Nat.ofDigitChars_cons]
    rw [signedValue?_signed ⟨'0', [], rfl, rfl⟩ (List.forall_mem_singleton.mpr (.inl rfl)), hzero]
    rfl
  | finite negative b =>
    rw [signedValue?_signed (exists_written _ _) (fun c => mem_written), textValue_written]
    rfl

/-- Numbers start with a digit or a sign. -/
theorem exists_chars {v : Float} (h : IsNumber v) :
    ∃ c cs, chars v = c :: cs ∧ (c.isDigit = true ∨ c = '+' ∨ c = '-') := by
  have hnan := classify_ne_nan h
  have hsign {negative : Bool} {cs : List Char} (hcs : ∃ c ds, cs = c :: ds ∧ c.isDigit = true) :
      ∃ c ds, sign negative ++ cs = c :: ds ∧ (c.isDigit = true ∨ c = '+' ∨ c = '-') := by
    obtain ⟨c, ds, rfl, hdigit⟩ := hcs
    cases negative
    · exact ⟨c, ds, rfl, .inl hdigit⟩
    · exact ⟨'-', c :: ds, rfl, .inr (.inr rfl)⟩
  -- only an infinity starts with a sign whatever it is
  unfold chars
  cases hclass : classify v with
  | nan => exact absurd hclass hnan
  | infinite negative =>
    cases negative
    · exact ⟨_, _, rfl, .inr (.inl rfl)⟩
    · exact ⟨_, _, rfl, .inr (.inr rfl)⟩
  | zero negative => exact hsign ⟨'0', [], rfl, rfl⟩
  | finite negative b => exact hsign (exists_written _ _)

/-- Numbers are made of digits, signs and a few more characters. -/
theorem mem_chars {v : Float} {c : Char} (h : IsNumber v) (hc : c ∈ chars v) :
    c.isDigit = true ∨ c ∈ ['.', 'e', '+', '-', 'I', 'n', 'f'] := by
  have hnan := classify_ne_nan h
  have hsign {negative : Bool} {cs : List Char} (hc : c ∈ sign negative ++ cs)
      (hcs : c ∈ cs → c.isDigit = true ∨ c ∈ ['.', 'e', '+', '-']) :
      c.isDigit = true ∨ c ∈ ['.', 'e', '+', '-', 'I', 'n', 'f'] := by
    rcases List.mem_append.mp hc with hc | hc
    · cases negative
      · cases hc
      · rw [List.mem_singleton.mp hc]
        exact .inr (by decide)
    · exact (hcs hc).imp_right fun h => List.mem_append_left ['I', 'n', 'f'] h
  -- each kind adds its own characters to those of digits
  unfold chars at hc
  cases hclass : classify v with
  | nan => exact absurd hclass hnan
  | infinite negative =>
    rw [hclass] at hc
    right
    simp only [List.mem_cons, List.not_mem_nil, or_false] at hc
    rcases hc with rfl | rfl | rfl | rfl
    · cases negative <;> decide
    all_goals decide
  | zero negative =>
    rw [hclass] at hc
    exact hsign hc fun h => .inl (List.mem_singleton.mp h ▸ rfl)
  | finite negative b =>
    rw [hclass] at hc
    exact hsign hc mem_written

/-! ## §3 Numbers of one text -/

theorem shortest_pos {v : Float} {negative : Bool} {b : Binary}
    (h : classify v = .finite negative b) : 0 < b.shortest.value :=
  (Binary.low_pos (normal_of_classify h)).trans_le
    (Binary.holds_shortest (normal_of_classify h)).low_le

/-- Sign and value show the class of a number that is no infinity. -/
theorem classify_eq_of_signed? {v w : Float} {x : Bool × ℚ}
    (hv : (classify v).signed? = some x) (hw : (classify w).signed? = some x) :
    classify v = classify w := by
  -- the decimal of a number that is not zero is not zero either
  cases hcv : classify v with
  | nan | infinite =>
    rw [hcv] at hv
    cases hv
  | zero negative =>
    rw [hcv] at hv
    cases hv
    cases hcw : classify w with
    | nan | infinite =>
      rw [hcw] at hw
      cases hw
    | zero negative' =>
      rw [hcw] at hw
      cases hw
      rfl
    | finite negative' c =>
      rw [hcw] at hw
      exact absurd (Prod.mk.inj (Option.some.inj hw)).2 (shortest_pos hcw).ne'
  | finite negative b =>
    rw [hcv] at hv
    cases hv
    cases hcw : classify w with
    | nan | infinite =>
      rw [hcw] at hw
      cases hw
    | zero negative' =>
      rw [hcw] at hw
      exact absurd (Prod.mk.inj (Option.some.inj hw)).2 (shortest_pos hcv).ne
    | finite negative' c =>
      rw [hcw] at hw
      obtain ⟨rfl, hvalue⟩ := Prod.mk.inj (Option.some.inj hw)
      rw [Binary.eq_of_shortest (normal_of_classify hcv) (normal_of_classify hcw) hvalue.symm]

theorem infinite_of_signed? {c : Class} (hnan : c ≠ .nan) (h : c.signed? = none) :
    ∃ negative, c = .infinite negative := by
  cases c with
  | nan => exact absurd rfl hnan
  | infinite negative => exact ⟨negative, rfl⟩
  | zero | finite => cases h

/-- **The text of a number identifies it.** -/
theorem eq_of_chars {v w : Float} (hv : IsNumber v) (hw : IsNumber w) (h : chars v = chars w) :
    v = w := by
  have hv := classify_ne_nan hv
  have hw := classify_ne_nan hw
  -- the value of the text, with its sign, is that of the number, unless it is infinite
  refine float_eq_of_classify ?_ hv
  have hsigned : (classify v).signed? = (classify w).signed? := by
    rw [← signedValue?_chars, ← signedValue?_chars, h]
  cases hvalue : (classify v).signed? with
  | some x => exact classify_eq_of_signed? hvalue (hsigned.symm.trans hvalue)
  | none =>
    obtain ⟨negative, hcv⟩ := infinite_of_signed? hv hvalue
    obtain ⟨negative', hcw⟩ := infinite_of_signed? hw (hsigned.symm.trans hvalue)
    unfold chars at h
    rw [hcv, hcw] at h
    rw [hcv, hcw]
    cases negative <;> cases negative' <;> first | rfl | cases h

end Decimal

end Scriptlet
