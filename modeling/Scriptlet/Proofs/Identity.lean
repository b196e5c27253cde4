import Scriptlet.Proofs.Clearing

/-!
# Sameness is identity without places

The same nodes are those that are identical once their places are removed. Both sameness and
identity walk over all kinds of nodes, so the proof that they agree follows the kinds: a part that
one of them forgot would be missing in its case.

Identity is symmetric and transitive, and reflexive as long as no literal is not-a-number. So
sameness is an equivalence of the nodes without such literals.

## Contents

- §1 comparing numbers
- §2 symmetry and transitivity
- §3 nodes without not-a-number
- §4 sameness
-/

namespace Scriptlet

open Float.Model (UnpackedFloat)

/-! ## §1 Comparing numbers -/

section

variable {u v w : Float}

/-- Numbers are equal if they are one number that is not not-a-number, or both zeros. -/
theorem beq_float_iff : (v == w) = true ↔
    (v = w ∧ v.toModel.unpack.isNaN = false) ∨
      ∃ s t, v.toModel.unpack = .zero s ∧ w.toModel.unpack = .zero t := by
  -- numbers that are equal differ in the sign of a zero at most
  constructor
  · intro h
    rcases eq_or_zero_of_compare (beq_iff_eq.mp h) with ⟨heq, hnan⟩ | hzero
    · refine .inl ⟨float_eq_of_unpack heq hnan, ?_⟩
      cases hv : v.toModel.unpack with
      | notANumber => exact absurd hv hnan
      | _ => rfl
    · exact .inr hzero
  · rintro (⟨rfl, hnan⟩ | ⟨s, t, hs, ht⟩)
    · exact beq_self_of_isNaN hnan
    · change v.toModel.unpack.beq w.toModel.unpack = true
      rw [hs, ht]
      rfl

/-- Floats that are equal one way are equal the other way. -/
theorem beq_float_symm (h : (v == w) = true) : (w == v) = true := by
  rw [beq_float_iff] at h ⊢
  rcases h with ⟨rfl, hnan⟩ | ⟨s, t, hs, ht⟩
  · exact .inl ⟨rfl, hnan⟩
  · exact .inr ⟨t, s, ht, hs⟩

/-- Equality of floats is passed on, for NaN is equal to nothing. -/
theorem beq_float_trans (h : (u == v) = true) (h' : (v == w) = true) : (u == w) = true := by
  rw [beq_float_iff] at h h'
  rcases h with ⟨rfl, -⟩ | ⟨s, t, hs, ht⟩
  · exact beq_float_iff.mpr h'
  · rcases h' with ⟨rfl, -⟩ | ⟨_, t', _, ht'⟩
    · exact beq_float_iff.mpr (.inr ⟨s, t, hs, ht⟩)
    · exact beq_float_iff.mpr (.inr ⟨s, t', hs, ht'⟩)

end

namespace Node

/-! ## §2 Symmetry and transitivity -/

mutual

/-- Identity goes both ways. -/
theorem Identical.symm : ∀ {a b : Node}, Identical a b → Identical b a
  | _, _, .missing => .missing
  | _, _, .number loc h => .number loc (beq_float_symm h)
  | _, _, .string v loc => .string v loc
  | _, _, .ident n loc => .ident n loc
  | _, _, .unary op loc h => .unary op loc h.symm
  | _, _, .binary op loc h h' => .binary op loc h.symm h'.symm
  | _, _, .call f loc h => .call f loc h.symm
  | _, _, .giveBack loc h => .giveBack loc h.symm
  | _, _, .block loc h => .block loc h.symm
  | _, _, .choice loc hc h h' => .choice loc hc.symm h.symm h'.symm
  | _, _, .loop loc hc h => .loop loc hc.symm h.symm
  | _, _, .declare n loc h => .declare n loc h.symm
  | _, _, .assign n loc h => .assign n loc h.symm
  | _, _, .function n ps bodyLoc loc h => .function n ps bodyLoc loc h.symm
  | _, _, .prototype n ps loc => .prototype n ps loc
  | _, _, .main loc h => .main loc h.symm
  | _, _, .assert loc h => .assert loc h.symm

theorem IdenticalAll.symm : ∀ {xs ys : List Node}, IdenticalAll xs ys → IdenticalAll ys xs
  | _, _, .nil => .nil
  | _, _, .cons h hs => .cons h.symm hs.symm

end

mutual

/-- Identity is passed on. -/
theorem Identical.trans : ∀ {a b c : Node}, Identical a b → Identical b c → Identical a c
  | _, _, _, .missing, .missing => .missing
  | _, _, _, .number loc h, .number _ h' => .number loc (beq_float_trans h h')
  | _, _, _, .string v loc, .string _ _ => .string v loc
  | _, _, _, .ident n loc, .ident _ _ => .ident n loc
  | _, _, _, .unary op loc h, .unary _ _ k => .unary op loc (h.trans k)
  | _, _, _, .binary op loc h h', .binary _ _ k k' => .binary op loc (h.trans k) (h'.trans k')
  | _, _, _, .call f loc h, .call _ _ k => .call f loc (h.trans k)
  | _, _, _, .giveBack loc h, .giveBack _ k => .giveBack loc (h.trans k)
  | _, _, _, .block loc h, .block _ k => .block loc (h.trans k)
  | _, _, _, .choice loc hc h h', .choice _ kc k k' =>
    .choice loc (hc.trans kc) (h.trans k) (h'.trans k')
  | _, _, _, .loop loc hc h, .loop _ kc k => .loop loc (hc.trans kc) (h.trans k)
  | _, _, _, .declare n loc h, .declare _ _ k => .declare n loc (h.trans k)
  | _, _, _, .assign n loc h, .assign _ _ k => .assign n loc (h.trans k)
  | _, _, _, .function n ps bodyLoc loc h, .function _ _ _ _ k =>
    .function n ps bodyLoc loc (h.trans k)
  | _, _, _, .prototype n ps loc, .prototype _ _ _ => .prototype n ps loc
  | _, _, _, .main loc h, .main _ k => .main loc (h.trans k)
  | _, _, _, .assert loc h, .assert _ k => .assert loc (h.trans k)

theorem IdenticalAll.trans :
    ∀ {xs ys zs : List Node}, IdenticalAll xs ys → IdenticalAll ys zs → IdenticalAll xs zs
  | _, _, _, .nil, .nil => .nil
  | _, _, _, .cons h hs, .cons k ks => .cons (h.trans k) (hs.trans ks)

end

/-! ## §3 Nodes without not-a-number -/

mutual

/-- No literal of the node is not-a-number. -/
def nanFree : Node → Bool
  | .number v _ => !v.isNaN
  | .missing | .string _ _ | .ident _ _ | .prototype _ _ _ => true
  | .unary _ x _ | .giveBack x _ | .declare _ x _ | .assign _ x _ | .assert x _ => x.nanFree
  | .binary _ x y _ | .loop x y _ => x.nanFree && y.nanFree
  | .choice c x y _ => c.nanFree && x.nanFree && y.nanFree
  | .call _ xs _ | .block xs _ | .function _ _ xs _ _ | .main xs _ => nanFreeAll xs

/-- No literal of the nodes is not-a-number. -/
def nanFreeAll : List Node → Bool
  | [] => true
  | x :: xs => x.nanFree && nanFreeAll xs

end

mutual

/-- A node without NaN is identical to itself. -/
theorem identical_self : ∀ a : Node, a.nanFree = true → Identical a a
  | .missing, _ => .missing
  | .number v loc, h => by
    rw [nanFree, Bool.not_eq_true'] at h
    exact .number loc (beq_float_iff.mpr (.inl ⟨rfl, h⟩))
  | .string v loc, _ => .string v loc
  | .ident n loc, _ => .ident n loc
  | .unary op x loc, h => .unary op loc (identical_self x h)
  | .binary op x y loc, h => by
    rw [nanFree, Bool.and_eq_true] at h
    exact .binary op loc (identical_self x h.1) (identical_self y h.2)
  | .call f xs loc, h => .call f loc (identicalAll_self xs h)
  | .giveBack x loc, h => .giveBack loc (identical_self x h)
  | .block xs loc, h => .block loc (identicalAll_self xs h)
  | .choice c x y loc, h => by
    rw [nanFree, Bool.and_eq_true, Bool.and_eq_true] at h
    exact .choice loc (identical_self c h.1.1) (identical_self x h.1.2) (identical_self y h.2)
  | .loop c x loc, h => by
    rw [nanFree, Bool.and_eq_true] at h
    exact .loop loc (identical_self c h.1) (identical_self x h.2)
  | .declare n x loc, h => .declare n loc (identical_self x h)
  | .assign n x loc, h => .assign n loc (identical_self x h)
  | .function n ps xs bodyLoc loc, h => .function n ps bodyLoc loc (identicalAll_self xs h)
  | .prototype n ps loc, _ => .prototype n ps loc
  | .main xs loc, h => .main loc (identicalAll_self xs h)
  | .assert c loc, h => .assert loc (identical_self c h)

theorem identicalAll_self : ∀ xs : List Node, nanFreeAll xs = true → IdenticalAll xs xs
  | [], _ => .nil
  | x :: xs, h => by
    rw [nanFreeAll, Bool.and_eq_true] at h
    exact .cons (identical_self x h.1) (identicalAll_self xs h.2)

end

mutual

/-- Clearing takes no NaN away and brings none in. -/
theorem nanFree_cleared : ∀ a : Node, a.cleared.nanFree = a.nanFree
  | .missing | .number _ _ | .string _ _ | .ident _ _ | .prototype _ _ _ => rfl
  | .unary _ x _ | .giveBack x _ | .declare _ x _ | .assign _ x _ | .assert x _ =>
    nanFree_cleared x
  | .binary _ x y _ | .loop x y _ => by
    rw [cleared, nanFree, nanFree, nanFree_cleared x, nanFree_cleared y]
  | .choice c x y _ => by
    rw [cleared, nanFree, nanFree, nanFree_cleared c, nanFree_cleared x, nanFree_cleared y]
  | .call _ xs _ | .block xs _ | .function _ _ xs _ _ | .main xs _ => nanFreeAll_clearedAll xs

theorem nanFreeAll_clearedAll : ∀ xs : List Node, nanFreeAll (clearedAll xs) = nanFreeAll xs
  | [] => rfl
  | x :: xs => by
    rw [clearedAll, nanFreeAll, nanFreeAll, nanFree_cleared x, nanFreeAll_clearedAll xs]

end

/-! ## §4 Sameness -/

mutual

/-- Places that are removed stay removed. -/
theorem cleared_cleared : ∀ a : Node, a.cleared.cleared = a.cleared
  | .missing | .number _ _ | .string _ _ | .ident _ _ | .prototype _ _ _ => rfl
  | .unary _ x _ | .giveBack x _ | .declare _ x _ | .assign _ x _ | .assert x _ => by
    rw [cleared, cleared, cleared_cleared x]
  | .binary _ x y _ | .loop x y _ => by
    rw [cleared, cleared, cleared_cleared x, cleared_cleared y]
  | .choice c x y _ => by
    rw [cleared, cleared, cleared_cleared c, cleared_cleared x, cleared_cleared y]
  | .call _ xs _ | .block xs _ | .function _ _ xs _ _ | .main xs _ => by
    rw [cleared, cleared, clearedAll_clearedAll xs]

/-- Clearing a list twice is clearing it once. -/
theorem clearedAll_clearedAll : ∀ xs : List Node, clearedAll (clearedAll xs) = clearedAll xs
  | [] => rfl
  | x :: xs => by rw [clearedAll, clearedAll, cleared_cleared x, clearedAll_clearedAll xs]

end

mutual

/-- What is identical is found to be the same. -/
theorem Identical.same : ∀ {a b : Node}, Identical a b → a.same b = true
  | _, _, .missing => rfl
  | _, _, .number _ h => h
  | _, _, .string v _ => beq_self_eq_true v
  | _, _, .ident n _ => beq_self_eq_true n
  | _, _, .unary op _ h => by simp [Node.same, h.same]
  | _, _, .binary op _ h h' => by simp [Node.same, h.same, h'.same]
  | _, _, .call f _ h => by simp [Node.same, h.same]
  | _, _, .giveBack _ h => h.same
  | _, _, .block _ h => h.same
  | _, _, .choice _ hc h h' => by simp [Node.same, hc.same, h.same, h'.same]
  | _, _, .loop _ hc h => by simp [Node.same, hc.same, h.same]
  | _, _, .declare n _ h => by simp [Node.same, h.same]
  | _, _, .assign n _ h => by simp [Node.same, h.same]
  | _, _, .function n ps _ _ h => by simp [Node.same, h.same]
  | _, _, .prototype n ps _ => by simp [Node.same]
  | _, _, .main _ h => h.same
  | _, _, .assert _ h => h.same

theorem IdenticalAll.same : ∀ {xs ys : List Node}, IdenticalAll xs ys → sameAll xs ys = true
  | _, _, .nil => rfl
  | _, _, .cons h hs => by simp [sameAll, h.same, hs.same]

end

/-- Sameness is identity once the places are cleared. -/
theorem same_iff_identical {a b : Node} : a.same b = true ↔ Identical a.cleared b.cleared := by
  refine ⟨identical_of_same a b, fun h => ?_⟩
  rw [← same_cleared]
  exact h.same

/-- The nodes without not-a-number as a literal. -/
abbrev NanFree := { a : Node // a.nanFree = true }

/-- **Sameness is identity up to places**: nodes are the same exactly if they are identical once
their places are removed. So sameness is an equivalence of the nodes without not-a-number, removing
places twice changes no more than removing them once, and a node is the same as itself without
places. -/
theorem same_up_to_places :
    (∀ a b : Node, a.same b = true ↔ Identical a.cleared b.cleared) ∧
      Equivalence (fun a b : NanFree => a.1.same b.1 = true) ∧
      (∀ a : Node, a.cleared.cleared = a.cleared) ∧
      ∀ a : NanFree, a.1.same a.1.cleared = true := by
  -- removing places keeps a node free of not-a-number
  have hself (a : NanFree) : Identical a.1.cleared a.1.cleared :=
    identical_self a.1.cleared (by rw [nanFree_cleared, a.2])
  refine ⟨fun a b => same_iff_identical, ⟨fun a => ?_, ?_, ?_⟩, cleared_cleared, fun a => ?_⟩
  · exact same_iff_identical.mpr (hself a)
  · intro a b hab
    exact same_iff_identical.mpr (same_iff_identical.mp hab).symm
  · intro a b c hab hbc
    exact same_iff_identical.mpr ((same_iff_identical.mp hab).trans (same_iff_identical.mp hbc))
  · rw [same_iff_identical, cleared_cleared]
    exact hself a

end Node

end Scriptlet
