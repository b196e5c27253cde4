import Scriptlet.Proofs.Number
import Scriptlet.Proofs.Segment

/-!
# Sameness of what is read

Two nodes are the same if they differ in places only, with numbers compared as numbers. So nodes
that are equal once their places are removed are the same as soon as they contain no not-a-number,
and nothing that is derived from symbols contains one.

## Contents

- §1 sameness ignores places
- §2 derived nodes are the same as themselves
-/

namespace Scriptlet

namespace Node

/-! ## §1 Sameness ignores places -/

mutual

/-- Sameness does not look at places, so it is the same of cleared nodes. -/
theorem same_cleared : ∀ a b : Node, a.cleared.same b.cleared = a.same b
  -- the leaves have nothing but places to clear; every other node is compared field by field,
  -- and nodes of different kinds stay different
  | .missing, b | .number _ _, b | .string _ _, b | .ident _ _, b | .prototype _ _ _, b => by
    cases b <;> rfl
  | .unary _ x _, b => by
    cases b with
    | unary _ y _ => rw [cleared, cleared, same, same, same_cleared x y]
    | _ => rfl
  | .binary _ x y _, b => by
    cases b with
    | binary _ v w _ => rw [cleared, cleared, same, same, same_cleared x v, same_cleared y w]
    | _ => rfl
  | .call _ xs _, b => by
    cases b with
    | call _ ys _ => rw [cleared, cleared, same, same, sameAll_clearedAll xs ys]
    | _ => rfl
  | .giveBack x _, b => by
    cases b with
    | giveBack y _ => rw [cleared, cleared, same, same, same_cleared x y]
    | _ => rfl
  | .block xs _, b => by
    cases b with
    | block ys _ => rw [cleared, cleared, same, same, sameAll_clearedAll xs ys]
    | _ => rfl
  | .choice c x y _, b => by
    cases b with
    | choice d v w _ =>
      rw [cleared, cleared, same, same, same_cleared c d, same_cleared x v, same_cleared y w]
    | _ => rfl
  | .loop c x _, b => by
    cases b with
    | loop d y _ => rw [cleared, cleared, same, same, same_cleared c d, same_cleared x y]
    | _ => rfl
  | .declare _ x _, b => by
    cases b with
    | declare _ y _ => rw [cleared, cleared, same, same, same_cleared x y]
    | _ => rfl
  | .assign _ x _, b => by
    cases b with
    | assign _ y _ => rw [cleared, cleared, same, same, same_cleared x y]
    | _ => rfl
  | .function _ _ xs _ _, b => by
    cases b with
    | function _ _ ys _ _ => rw [cleared, cleared, same, same, sameAll_clearedAll xs ys]
    | _ => rfl
  | .main xs _, b => by
    cases b with
    | main ys _ => rw [cleared, cleared, same, same, sameAll_clearedAll xs ys]
    | _ => rfl
  | .assert c _, b => by
    cases b with
    | assert d _ => rw [cleared, cleared, same, same, same_cleared c d]
    | _ => rfl

theorem sameAll_clearedAll : ∀ xs ys : List Node,
    sameAll (clearedAll xs) (clearedAll ys) = sameAll xs ys
  | [], ys => by cases ys <;> rfl
  | x :: xs, ys => by
    cases ys with
    | nil => rfl
    | cons y ys =>
      rw [clearedAll, clearedAll, sameAll, sameAll, same_cleared x y, sameAll_clearedAll xs ys]

end

/-- Nodes that are the same as themselves make lists that are. -/
theorem sameAll_self {xs : List Node} (h : ∀ x ∈ xs, x.same x = true) : sameAll xs xs = true := by
  induction xs with
  | nil => rfl
  | cons x xs ih =>
    rw [sameAll, h x (by simp), ih fun y hy => h y (by simp [hy])]
    rfl

/-- Lists that are equal without their places are the same, if they are the same as themselves. -/
theorem sameAll_of_cleared {xs ys ns : List Node} (hxs : xs.map cleared = ns)
    (hys : ys.map cleared = ns) (h : ∀ n ∈ ns, n.same n = true) : sameAll xs ys = true := by
  rw [← sameAll_clearedAll, clearedAll_eq_map, clearedAll_eq_map, hxs, hys]
  exact sameAll_self h

/-- Nodes that are equal without their places are the same. -/
theorem same_of_cleared {a b : Node} (h : a.cleared = b.cleared)
    (hself : b.cleared.same b.cleared = true) : a.same b = true := by
  rw [← same_cleared, h]
  exact hself

end Node

/-! ## §2 Derived nodes are the same as themselves -/

/-- A call is the same as itself when its arguments are. -/
theorem Node.same_self_ofCall {t : Text} {args : List Node} {loc : Location}
    (h : ∀ a ∈ args, a.same a = true) : (ofCall t args loc).same (ofCall t args loc) = true := by
  -- a call of `assert` with one argument is a check, and its only part is the argument
  unfold ofCall
  split
  · next a =>
    split
    · rw [same]
      exact h a (by simp)
    · rw [same, sameAll_self h, beq_self_eq_true]
      rfl
  · rw [same, sameAll_self h, beq_self_eq_true]
    rfl

/-- A chain is the same as itself when its operands are. -/
theorem Link.same_self_foldl {n : Node} {links : List Link} (hn : n.same n = true)
    (h : ∀ l ∈ links, l.node.same l.node = true) :
    (links.foldl join n).same (links.foldl join n) = true := by
  induction links generalizing n with
  | nil => exact hn
  | cons l links ih =>
    refine ih ?_ fun l' hl' => h l' (by simp [hl'])
    simp [join, Node.same, hn, h l (by simp)]

/-- Derived expressions are the same as themselves: numerals are no NaN. -/
theorem Derives.same_self {k : Nat} {xs : List Symbol} {n : Node} (h : Derives k xs n) :
    n.same n = true := by
  induction h with
  | number text h => exact isNumber_numeralValue h
  | string v => exact beq_self_eq_true v
  | name t h => exact beq_self_eq_true t
  -- a call of one argument may have been read as a check
  | call t args _ _ ih =>
    refine Node.same_self_ofCall fun a ha => ?_
    obtain ⟨x, hx, rfl⟩ := List.mem_map.mp ha
    exact ih x hx
  | group _ _ _ ih | atom _ _ _ ih | plus _ _ _ ih | base _ _ _ ih => exact ih
  | leading op _ _ _ _ ih => simp [Node.same, ih]
  | raised _ _ _ _ _ _ ihx ihy => simp [Node.same, ihx, ihy]
  | chain k xs n links _ _ _ ihx ihl =>
    exact Link.same_self_foldl ihx ihl

/-- Simple statements are the same as themselves. -/
theorem Simple.same_self {xs : List Symbol} {n : Node} (h : Simple xs n) : n.same n = true := by
  cases h with
  | giveNothing => rfl
  | giveBack _ _ h | declare _ _ _ _ _ _ h | assign _ _ _ _ h | update _ _ _ _ _ _ _ h =>
    simp [Node.same, h.same_self]
  | expression _ _ h => exact h.same_self

/-- Stated statements are the same as themselves. -/
theorem Stated.same_self {xs : List Symbol} {n : Node} (h : Stated xs n) : n.same n = true := by
  have hparts {parts : List (List Symbol × Node)} (ih : ∀ a ∈ parts, a.2.same a.2 = true) :
      Node.sameAll (parts.map Prod.snd) (parts.map Prod.snd) = true :=
    Node.sameAll_self (List.forall_mem_map.mpr ih)
  induction h with
  | simple _ _ h => exact h.same_self
  | block _ _ ih | main _ _ _ _ ih => simpa [Node.same] using hparts ih
  | choice _ _ hc _ _ _ ih => simp [Node.same, hc.same_self, ih]
  | choiceElse _ _ hc _ _ _ _ _ _ _ ihx ihy => simp [Node.same, hc.same_self, ihx, ihy]
  | loop _ _ hc _ _ _ ih => simp [Node.same, hc.same_self, ih]
  | function _ _ _ _ _ _ _ ih => simpa [Node.same] using hparts ih

/-- The statements of segments are the same as themselves. -/
theorem Segmented.same_self {xs : List Symbol} {ns : List Node} (h : Segmented xs ns) :
    ∀ n ∈ ns, n.same n = true := by
  induction h with
  | nil => simp
  | skip _ _ _ ih => exact ih
  | last _ _ h => simpa using h.same_self
  | next _ _ _ _ h _ ih => simpa using ⟨h.same_self, ih⟩
  | blockLast _ _ _ ih => simpa [Node.same] using Node.sameAll_self ih
  | blockNext _ _ _ _ _ _ ih ih' => simpa [Node.same] using ⟨Node.sameAll_self ih, ih'⟩

end Scriptlet
