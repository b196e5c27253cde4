import Scriptlet.Proofs.Sameness

/-!
# The same without places

Programs are compared with the equality of floating-point numbers, under which the two zeros are
one. Apart from the negative zero, numbers that compare as equal are identical: a number is
determined by its sign, exponent and fraction, and a comparison looks at all three.

Two nodes are *identical* if they agree in every field, places included, with numbers compared as
numbers. Nodes that are the same are identical once their places are removed. So two programs that
are the same and write no negative zero become *equal* once their places are removed.

## Contents

- §1 the parts of a number
- §2 equal numbers are identical
- §3 the number literals of a program
- §4 identical nodes
- §5 the same programs without places
-/

namespace Scriptlet

open Float.Model (Format UnpackedFloat)
open Float.Model.UnpackedFloat (Sign unpackExponent unpackMantissa unpackSign unpack)

/-! ## §1 The parts of a number -/

section

variable (b : BitVec 64)

/-- The mantissa of a double is its low 52 bits. -/
theorem toNat_unpackMantissa :
    (@unpackMantissa Format.binary64 b).toNat = b.toNat % 2 ^ 52 := by
  simp [unpackMantissa, BitVec.extractLsb, BitVec.extractLsb', BitVec.toNat_setWidth]

/-- The exponent of a double is the 11 bits above them. -/
theorem toNat_unpackExponent :
    (@unpackExponent Format.binary64 b).toNat = b.toNat / 2 ^ 52 % 2 ^ 11 := by
  simp [unpackExponent, Nat.shiftRight_eq_div_pow]

/-- The sign of a double is its highest bit. -/
theorem toNat_unpackSign :
    (@unpackSign Format.binary64 b).toNat = b.toNat / 2 ^ 63 := by
  have hlt := b.isLt
  simp only [unpackSign, Nat.shiftRight_eq_div_pow, BitVec.toNat_cast, BitVec.extractLsb_toNat]
  change b.toNat / 2 ^ 63 % 2 = b.toNat / 2 ^ 63
  omega

end

/-- A double is its sign, its exponent and its mantissa. -/
theorem bits_eq_of_parts {a b : BitVec 64}
    (hs : @unpackSign Format.binary64 a = @unpackSign Format.binary64 b)
    (he : @unpackExponent Format.binary64 a = @unpackExponent Format.binary64 b)
    (hm : @unpackMantissa Format.binary64 a = @unpackMantissa Format.binary64 b) : a = b := by
  apply BitVec.eq_of_toNat_eq
  rw [← BitVec.toNat_inj, toNat_unpackSign, toNat_unpackSign] at hs
  rw [← BitVec.toNat_inj, toNat_unpackExponent, toNat_unpackExponent] at he
  rw [← BitVec.toNat_inj, toNat_unpackMantissa, toNat_unpackMantissa] at hm
  omega

theorem ofBitVec_injective {s t : BitVec 1} (h : Sign.ofBitVec s = Sign.ofBitVec t) : s = t := by
  have hzero (u : BitVec 1) : Sign.ofBitVec u = .positive ↔ u = 0#1 := by
    unfold Sign.ofBitVec
    split <;> simp_all
  have hst : s = 0#1 ↔ t = 0#1 := by rw [← hzero, ← hzero, h]
  by_cases hs : s = 0#1
  · rw [hs, hst.mp hs]
  · have ht := mt hst.mpr hs
    bv_omega

/-- The sign, the exponent bits and the fraction bits of a number, from what unpacking finds. Small
numbers are those without the leading bit that is not stored. -/
def unpackedParts : UnpackedFloat → Sign × Nat × Nat
  | .notANumber => (.positive, 0, 0)
  | .infinity s => (s, 2047, 0)
  | .zero s => (s, 0, 0)
  | .finite s m e _ => if m < 2 ^ 52 then (s, 0, m) else (s, (e + 1075).toNat, m - 2 ^ 52)

/-- Unpacking loses none of the three parts, except of NaN. -/
theorem unpackedParts_unpack {b : BitVec 64} (hnan : unpack Format.binary64 b ≠ .notANumber) :
    unpackedParts (unpack Format.binary64 b)
      = (Sign.ofBitVec (@unpackSign Format.binary64 b), (@unpackExponent Format.binary64 b).toNat,
          (@unpackMantissa Format.binary64 b).toNat) := by
  have hlt : (@unpackMantissa Format.binary64 b).toNat < 2 ^ 52 := BitVec.isLt _
  revert hnan
  unfold unpack
  simp only
  -- the greatest exponent and the least one are special, all others have the leading bit
  split
  · next hmax =>
    split
    · next hzero =>
      intro _
      rw [hmax, hzero]
      rfl
    · intro hnan
      exact absurd rfl hnan
  · split
    · next hmin =>
      split
      · next hzero =>
        intro _
        rw [hmin, hzero]
        rfl
      · intro _
        rw [unpackedParts, if_pos hlt, hmin]
        rfl
    · intro _
      have hleading : (1#1 ++ @unpackMantissa Format.binary64 b).toNat
          = 2 ^ 52 + (@unpackMantissa Format.binary64 b).toNat := by
        rw [BitVec.toNat_append, ← Nat.shiftLeft_add_eq_or_of_lt (BitVec.isLt _)]
        rfl
      rw [unpackedParts, hleading, if_neg (by omega), Nat.add_sub_cancel_left]
      congr
      change ((_ : Int) - 1075 + 1075).toNat = _
      rw [Int.sub_add_cancel, Int.toNat_natCast]

/-- What unpacking finds determines the bits of a number. -/
theorem bits_eq_of_unpack {a b : BitVec 64} (h : unpack Format.binary64 a = unpack Format.binary64 b)
    (hnan : unpack Format.binary64 a ≠ .notANumber) : a = b := by
  have hparts := unpackedParts_unpack hnan
  rw [h, unpackedParts_unpack (h ▸ hnan), Prod.mk.injEq, Prod.mk.injEq] at hparts
  obtain ⟨hs, he, hm⟩ := hparts
  apply bits_eq_of_parts
  · exact (ofBitVec_injective hs).symm
  · exact (BitVec.eq_of_toNat_eq he).symm
  · exact (BitVec.eq_of_toNat_eq hm).symm

/-! ## §2 Equal numbers are identical -/

/-- Floats that compare equal are one float, or zeros of whatever signs. -/
theorem eq_or_zero_of_compare {x y : UnpackedFloat} (h : x.compare y = some .eq) :
    x = y ∧ x ≠ .notANumber ∨ ∃ s t, x = .zero s ∧ y = .zero t := by
  cases x with
  | notANumber => cases h
  | infinity s =>
    cases y with
    | infinity t =>
      left
      cases s <;> cases t <;> simp_all [UnpackedFloat.compare, compare]
    | _ => cases s <;> cases h
  | zero s =>
    cases y with
    | notANumber => cases h
    | zero t => exact .inr ⟨s, t, rfl, rfl⟩
    | infinity t | finite t => cases t <;> cases h
  | finite s m e hm =>
    cases y with
    | notANumber => cases s <;> cases h
    | zero t => cases s <;> cases h
    | infinity t => cases s <;> cases t <;> cases h
    | finite t m' e' hm' =>
      -- signs must agree; then exponents and mantissas do
      cases s <;> cases t <;>
        simp [UnpackedFloat.compare, Ordering.then_eq_eq, Ordering.swap_eq_eq] at h
      · simp [h]
      · simp [h]

/-- The number is the negative zero: its sign is set, and nothing else. -/
def isNegativeZero (v : Float) : Bool := v.toBits == 0x8000000000000000

/-- Floats that unpack alike are the same float, except for NaN. -/
theorem float_eq_of_unpack {v w : Float} (h : v.toModel.unpack = w.toModel.unpack)
    (hnan : v.toModel.unpack ≠ .notANumber) : v = w := by
  obtain ⟨⟨a, ha⟩⟩ := v
  obtain ⟨⟨b, hb⟩⟩ := w
  have hbits : a = b := UInt64.eq_of_toBitVec_eq (bits_eq_of_unpack h hnan)
  subst hbits
  rfl

/-- The negative zero is known from its unpacked form. -/
theorem isNegativeZero_of_unpack {v : Float} (h : v.toModel.unpack = .zero .negative) :
    isNegativeZero v = true := by
  have hzero : unpack Format.binary64 0x8000000000000000#64 = .zero .negative := by rfl
  have hbits : v.toModel.toBits.toBitVec = 0x8000000000000000#64 :=
    bits_eq_of_unpack (h.trans hzero.symm) (by intro hnan; cases h.symm.trans hnan)
  exact beq_iff_eq.mpr (UInt64.eq_of_toBitVec_eq hbits)

/-- Equal numbers are identical, apart from the zeros. -/
theorem eq_of_beq_float {v w : Float} (h : (v == w) = true) (hv : isNegativeZero v = false)
    (hw : isNegativeZero w = false) : v = w := by
  have hcompare : v.toModel.unpack.compare w.toModel.unpack = some .eq := beq_iff_eq.mp h
  -- zeros compare equal whatever their signs, so the signs are what the hypotheses exclude
  have hpositive {u : Float} {s : Sign} (hu : isNegativeZero u = false)
      (hs : u.toModel.unpack = .zero s) : u.toModel.unpack = .zero .positive := by
    cases s with
    | positive => exact hs
    | negative => rw [isNegativeZero_of_unpack hs] at hu; cases hu
  cases eq_or_zero_of_compare hcompare with
  | inl heq => exact float_eq_of_unpack heq.1 heq.2
  | inr hzero =>
    obtain ⟨s, t, hs, ht⟩ := hzero
    have hs := hpositive hv hs
    have ht := hpositive hw ht
    apply float_eq_of_unpack (hs.trans ht.symm)
    intro hnan
    cases hs.symm.trans hnan

/-! ## §3 The number literals of a program -/

namespace Node

mutual

/-- The node contains no literal of the negative zero. -/
def zerosPositive : Node → Bool
  | .number v _ => !isNegativeZero v
  | .missing | .string _ _ | .ident _ _ | .prototype _ _ _ => true
  | .unary _ x _ | .giveBack x _ | .declare _ x _ | .assign _ x _ | .assert x _ => x.zerosPositive
  | .binary _ x y _ | .loop x y _ => x.zerosPositive && y.zerosPositive
  | .choice c x y _ => c.zerosPositive && x.zerosPositive && y.zerosPositive
  | .call _ xs _ | .block xs _ | .function _ _ xs _ _ | .main xs _ => zerosPositiveAll xs

/-- The nodes contain no literal of the negative zero. -/
def zerosPositiveAll : List Node → Bool
  | [] => true
  | x :: xs => x.zerosPositive && zerosPositiveAll xs

end

/-! ## §4 Identical nodes -/

mutual

/-- The nodes agree in every field; numbers are compared as numbers. -/
inductive Identical : Node → Node → Prop where
  | missing : Identical .missing .missing
  | number {v w : Float} (loc : Location) (h : (v == w) = true) :
      Identical (.number v loc) (.number w loc)
  | string (v : Text) (loc : Location) : Identical (.string v loc) (.string v loc)
  | ident (n : Text) (loc : Location) : Identical (.ident n loc) (.ident n loc)
  | unary (op : UnaryOp) {x y : Node} (loc : Location) (h : Identical x y) :
      Identical (.unary op x loc) (.unary op y loc)
  | binary (op : BinaryOp) {x y x' y' : Node} (loc : Location) (h : Identical x x')
      (h' : Identical y y') : Identical (.binary op x y loc) (.binary op x' y' loc)
  | call (f : Text) {xs ys : List Node} (loc : Location) (h : IdenticalAll xs ys) :
      Identical (.call f xs loc) (.call f ys loc)
  | giveBack {x y : Node} (loc : Location) (h : Identical x y) :
      Identical (.giveBack x loc) (.giveBack y loc)
  | block {xs ys : List Node} (loc : Location) (h : IdenticalAll xs ys) :
      Identical (.block xs loc) (.block ys loc)
  | choice {c x y c' x' y' : Node} (loc : Location) (hc : Identical c c') (h : Identical x x')
      (h' : Identical y y') : Identical (.choice c x y loc) (.choice c' x' y' loc)
  | loop {c x c' x' : Node} (loc : Location) (hc : Identical c c') (h : Identical x x') :
      Identical (.loop c x loc) (.loop c' x' loc)
  | declare (n : Text) {x y : Node} (loc : Location) (h : Identical x y) :
      Identical (.declare n x loc) (.declare n y loc)
  | assign (n : Text) {x y : Node} (loc : Location) (h : Identical x y) :
      Identical (.assign n x loc) (.assign n y loc)
  | function (n : Text) (ps : List Text) {xs ys : List Node} (bodyLoc loc : Location)
      (h : IdenticalAll xs ys) :
      Identical (.function n ps xs bodyLoc loc) (.function n ps ys bodyLoc loc)
  | prototype (n : Text) (ps : List Text) (loc : Location) :
      Identical (.prototype n ps loc) (.prototype n ps loc)
  | main {xs ys : List Node} (loc : Location) (h : IdenticalAll xs ys) :
      Identical (.main xs loc) (.main ys loc)
  | assert {c d : Node} (loc : Location) (h : Identical c d) :
      Identical (.assert c loc) (.assert d loc)

/-- The lists are equally long and their nodes pairwise identical. -/
inductive IdenticalAll : List Node → List Node → Prop where
  | nil : IdenticalAll [] []
  | cons {x y : Node} {xs ys : List Node} (h : Identical x y) (hs : IdenticalAll xs ys) :
      IdenticalAll (x :: xs) (y :: ys)

end

mutual

/-- Identical nodes are equal, unless a literal is the negative zero. -/
theorem Identical.eq : ∀ {a b : Node}, Identical a b → a.zerosPositive = true →
    b.zerosPositive = true → a = b
  | _, _, .missing, _, _ | _, _, .string _ _, _, _ | _, _, .ident _ _, _, _
  | _, _, .prototype _ _ _, _, _ => rfl
  | _, _, .number _ h, ha, hb => by
    rw [zerosPositive, Bool.not_eq_true'] at ha hb
    rw [eq_of_beq_float h ha hb]
  | _, _, .unary _ _ h, ha, hb | _, _, .giveBack _ h, ha, hb | _, _, .declare _ _ h, ha, hb
  | _, _, .assign _ _ h, ha, hb | _, _, .assert _ h, ha, hb => by
    rw [h.eq ha hb]
  | _, _, .binary _ _ h h', ha, hb | _, _, .loop _ h h', ha, hb => by
    rw [zerosPositive, Bool.and_eq_true] at ha hb
    rw [h.eq ha.1 hb.1, h'.eq ha.2 hb.2]
  | _, _, .choice _ hc h h', ha, hb => by
    rw [zerosPositive, Bool.and_eq_true, Bool.and_eq_true] at ha hb
    rw [hc.eq ha.1.1 hb.1.1, h.eq ha.1.2 hb.1.2, h'.eq ha.2 hb.2]
  | _, _, .call _ _ h, ha, hb | _, _, .block _ h, ha, hb | _, _, .function _ _ _ _ h, ha, hb
  | _, _, .main _ h, ha, hb => by
    rw [h.eq ha hb]

/-- Lists that are identical are equal where no zero is negative. -/
theorem IdenticalAll.eq : ∀ {xs ys : List Node}, IdenticalAll xs ys →
    zerosPositiveAll xs = true → zerosPositiveAll ys = true → xs = ys
  | _, _, .nil, _, _ => rfl
  | _, _, .cons h hs, hxs, hys => by
    rw [zerosPositiveAll, Bool.and_eq_true] at hxs hys
    rw [h.eq hxs.1 hys.1, hs.eq hxs.2 hys.2]

end

/-! ## §5 The same programs without places -/

mutual

theorem identical_of_same : ∀ a b : Node, a.same b = true → Identical a.cleared b.cleared
  -- a node is only the same as one of its own kind, so the other kinds are ruled out in each case
  | .missing, b, h => by
    cases b with
    | missing => exact .missing
    | _ => cases h
  | .number v _, b, h => by
    cases b with
    | number w _ => exact .number .nowhere h
    | _ => cases h
  | .string v _, b, h => by
    cases b with
    | string w _ =>
      obtain rfl := beq_iff_eq.mp h
      exact .string v .nowhere
    | _ => cases h
  | .ident n _, b, h => by
    cases b with
    | ident m _ =>
      obtain rfl := beq_iff_eq.mp h
      exact .ident n .nowhere
    | _ => cases h
  | .unary op x _, b, h => by
    cases b with
    | unary op' y _ =>
      rw [Node.same, Bool.and_eq_true, beq_iff_eq] at h
      obtain ⟨rfl, hxy⟩ := h
      exact .unary op .nowhere (identical_of_same x y hxy)
    | _ => cases h
  | .binary op x y _, b, h => by
    cases b with
    | binary op' v w _ =>
      rw [Node.same, Bool.and_eq_true, Bool.and_eq_true, beq_iff_eq] at h
      obtain ⟨⟨rfl, hxv⟩, hyw⟩ := h
      exact .binary op .nowhere (identical_of_same x v hxv) (identical_of_same y w hyw)
    | _ => cases h
  | .call f xs _, b, h => by
    cases b with
    | call g ys _ =>
      rw [Node.same, Bool.and_eq_true, beq_iff_eq] at h
      obtain ⟨rfl, hargs⟩ := h
      exact .call f .nowhere (identicalAll_of_sameAll xs ys hargs)
    | _ => cases h
  | .giveBack x _, b, h => by
    cases b with
    | giveBack y _ => exact .giveBack .nowhere (identical_of_same x y h)
    | _ => cases h
  | .block xs _, b, h => by
    cases b with
    | block ys _ => exact .block .nowhere (identicalAll_of_sameAll xs ys h)
    | _ => cases h
  | .choice c x y _, b, h => by
    cases b with
    | choice d v w _ =>
      rw [Node.same, Bool.and_eq_true, Bool.and_eq_true] at h
      obtain ⟨⟨hcd, hxv⟩, hyw⟩ := h
      exact .choice .nowhere (identical_of_same c d hcd) (identical_of_same x v hxv)
        (identical_of_same y w hyw)
    | _ => cases h
  | .loop c x _, b, h => by
    cases b with
    | loop d y _ =>
      rw [Node.same, Bool.and_eq_true] at h
      obtain ⟨hcd, hxy⟩ := h
      exact .loop .nowhere (identical_of_same c d hcd) (identical_of_same x y hxy)
    | _ => cases h
  | .declare n x _, b, h => by
    cases b with
    | declare m y _ =>
      rw [Node.same, Bool.and_eq_true, beq_iff_eq] at h
      obtain ⟨rfl, hxy⟩ := h
      exact .declare n .nowhere (identical_of_same x y hxy)
    | _ => cases h
  | .assign n x _, b, h => by
    cases b with
    | assign m y _ =>
      rw [Node.same, Bool.and_eq_true, beq_iff_eq] at h
      obtain ⟨rfl, hxy⟩ := h
      exact .assign n .nowhere (identical_of_same x y hxy)
    | _ => cases h
  | .function n ps xs _ _, b, h => by
    cases b with
    | function m qs ys _ _ =>
      rw [Node.same, Bool.and_eq_true, Bool.and_eq_true, beq_iff_eq, beq_iff_eq] at h
      obtain ⟨⟨rfl, rfl⟩, hbody⟩ := h
      exact .function n ps .nowhere .nowhere (identicalAll_of_sameAll xs ys hbody)
    | _ => cases h
  | .prototype n ps _, b, h => by
    cases b with
    | prototype m qs _ =>
      rw [Node.same, Bool.and_eq_true, beq_iff_eq, beq_iff_eq] at h
      obtain ⟨rfl, rfl⟩ := h
      exact .prototype n ps .nowhere
    | _ => cases h
  | .main xs _, b, h => by
    cases b with
    | main ys _ => exact .main .nowhere (identicalAll_of_sameAll xs ys h)
    | _ => cases h
  | .assert c _, b, h => by
    cases b with
    | assert d _ => exact .assert .nowhere (identical_of_same c d h)
    | _ => cases h

/-- Lists that are the same are identical once their places are cleared. -/
theorem identicalAll_of_sameAll :
    ∀ xs ys : List Node, sameAll xs ys = true → IdenticalAll (clearedAll xs) (clearedAll ys)
  -- lists that are the same have the same length, so both are empty or neither is
  | [], ys, h => by
    cases ys with
    | nil => exact .nil
    | cons y ys => cases h
  | x :: xs, ys, h => by
    cases ys with
    | nil => cases h
    | cons y ys =>
      rw [sameAll, Bool.and_eq_true] at h
      exact .cons (identical_of_same x y h.1) (identicalAll_of_sameAll xs ys h.2)

end

mutual

theorem zerosPositive_cleared : ∀ a : Node, a.cleared.zerosPositive = a.zerosPositive
  | .missing | .number _ _ | .string _ _ | .ident _ _ | .prototype _ _ _ => rfl
  | .unary _ x _ | .giveBack x _ | .declare _ x _ | .assign _ x _ | .assert x _ =>
    zerosPositive_cleared x
  | .binary _ x y _ | .loop x y _ => by
    rw [cleared, zerosPositive, zerosPositive, zerosPositive_cleared x, zerosPositive_cleared y]
  | .choice c x y _ => by
    rw [cleared, zerosPositive, zerosPositive, zerosPositive_cleared c, zerosPositive_cleared x,
      zerosPositive_cleared y]
  | .call _ xs _ | .block xs _ | .function _ _ xs _ _ | .main xs _ =>
    zerosPositiveAll_clearedAll xs

theorem zerosPositiveAll_clearedAll :
    ∀ xs : List Node, zerosPositiveAll (clearedAll xs) = zerosPositiveAll xs
  | [] => rfl
  | x :: xs => by
    rw [clearedAll, zerosPositiveAll, zerosPositiveAll, zerosPositive_cleared x,
      zerosPositiveAll_clearedAll xs]

end

/-- Nodes that are the same are equal without their places, unless a literal is the negative
zero. -/
theorem cleared_eq_of_same (a b : Node) (h : a.same b = true) (ha : a.zerosPositive = true)
    (hb : b.zerosPositive = true) : a.cleared = b.cleared := by
  rw [← zerosPositive_cleared] at ha hb
  exact (identical_of_same a b h).eq ha hb

/-- Lists that are the same are equal once their places are cleared and no zero is negative. -/
theorem clearedAll_eq_of_sameAll (xs ys : List Node) (h : sameAll xs ys = true)
    (hxs : zerosPositiveAll xs = true) (hys : zerosPositiveAll ys = true) :
    clearedAll xs = clearedAll ys := by
  rw [← zerosPositiveAll_clearedAll] at hxs hys
  exact (identicalAll_of_sameAll xs ys h).eq hxs hys

end Node

end Scriptlet
