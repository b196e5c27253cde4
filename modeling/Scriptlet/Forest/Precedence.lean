import Scriptlet.Forest.Tree

/-!
# Precedence from the top down

A row of operands with an operator between each two can be read without passes: it is cut at an
operator of the loosest tier in it, and both sides are read the same way. If the tier groups to the
left, its last operator is the outermost one and the row is cut there; if it groups to the right,
its first.
-/

namespace Scriptlet

/-! ## §1 Rows of operands -/

/-- An operator of a tier between operands, as a leaf, and the operand behind it. -/
structure Joint where
  op : Operator
  tier : Tier
  belongs : op.tier? = some tier
  index : Nat
  level : Nat
  loc : Location
  right : Tree

namespace Joint

/-- The leaf of the operator. -/
def sign (j : Joint) : Tree := .leaf ⟨.operator j.op .dual, j.index, j.level, j.loc⟩

/-- The operator applied to what stands on its two sides. -/
def apply (j : Joint) (x y : Tree) : Tree := .binary (.between j.tier j.op) x y j.loc

end Joint

/-- The trees of a row: an operand, and operators each with the operand behind it. -/
def chain (first : Tree) (js : List Joint) : List Tree :=
  first :: js.flatMap fun j => [j.sign, j.right]

/-- The tree is an operand other than a group. -/
def Tree.isTerm : Tree → Bool
  | .group _ _ _ => false
  | t => t.isOperand

/-! ## §2 Cutting rows -/

/-- A list cut at the first element that passes the test. -/
def cutFirst {α : Type} (test : α → Bool) : List α → Option (List α × α × List α)
  | [] => none
  | x :: xs =>
    if test x then some ([], x, xs)
    else (cutFirst test xs).map fun (before, y, after) => (x :: before, y, after)

/-- A list cut at the last element that passes the test. -/
def cutLast {α : Type} (test : α → Bool) : List α → Option (List α × α × List α)
  | [] => none
  | x :: xs =>
    match cutLast test xs with
    | some (before, y, after) => some (x :: before, y, after)
    | none => if test x then some ([], x, xs) else none

/-- A row cut at the outermost operator of a tier, if it has one. -/
def cutAt (tier : Tier) (js : List Joint) : Option (List Joint × Joint × List Joint) :=
  if tier.groupsRight then cutFirst (·.tier == tier) js else cutLast (·.tier == tier) js

/-- A row cut at its outermost operator: the tiers are tried from the loosest on. -/
def cutLoosest (js : List Joint) : Option (List Joint × Joint × List Joint) :=
  Tier.all.reverse.findSome? fun tier => cutAt tier js

/-- The first cut is at the first member that passes the test. -/
theorem cutFirst_eq_some {α : Type} {test : α → Bool} {xs before after : List α} {y : α}
    (h : cutFirst test xs = some (before, y, after)) :
    xs = before ++ y :: after ∧ test y = true ∧ ∀ x ∈ before, test x = false := by
  induction xs generalizing before with
  | nil => cases h
  | cons x xs ih =>
    rw [cutFirst] at h
    split at h
    · next hx =>
      cases h
      exact ⟨rfl, hx, by simp⟩
    · next hx =>
      obtain ⟨⟨before', y', after'⟩, hcut, heq⟩ := Option.map_eq_some_iff.mp h
      cases heq
      obtain ⟨rfl, hy, hbefore⟩ := ih hcut
      exact ⟨rfl, hy, List.forall_mem_cons.mpr ⟨by simpa using hx, hbefore⟩⟩

/-- Where no last cut is found, nothing passes the test. -/
theorem cutLast_eq_none {α : Type} {test : α → Bool} {xs : List α} (h : cutLast test xs = none) :
    ∀ x ∈ xs, test x = false := by
  induction xs with
  | nil => simp
  | cons x xs ih =>
    rw [cutLast] at h
    split at h
    · cases h
    · next hnone =>
      split at h
      · cases h
      · next hx => exact List.forall_mem_cons.mpr ⟨by simpa using hx, ih hnone⟩

/-- The last cut is at the last member that passes the test. -/
theorem cutLast_eq_some {α : Type} {test : α → Bool} {xs before after : List α} {y : α}
    (h : cutLast test xs = some (before, y, after)) :
    xs = before ++ y :: after ∧ test y = true ∧ ∀ x ∈ after, test x = false := by
  induction xs generalizing before with
  | nil => cases h
  | cons x xs ih =>
    rw [cutLast] at h
    split at h
    · next before' y' after' hcut =>
      cases h
      obtain ⟨rfl, hy, hafter⟩ := ih hcut
      exact ⟨rfl, hy, hafter⟩
    · next hnone =>
      split at h
      · next hx =>
        cases h
        exact ⟨rfl, hx, cutLast_eq_none hnone⟩
      · cases h

/-- A row is cut at one of its operators. -/
theorem cutLoosest_eq_append {js before after : List Joint} {j : Joint}
    (h : cutLoosest js = some (before, j, after)) : js = before ++ j :: after := by
  obtain ⟨tier, _, hcut⟩ := List.exists_of_findSome?_eq_some h
  unfold cutAt at hcut
  split at hcut
  · exact (cutFirst_eq_some hcut).1
  · exact (cutLast_eq_some hcut).1

/-! ## §3 Reading rows -/

/-- The tree of a row, cut at its outermost operator and read the same way on both sides. -/
def readByPrecedence (first : Tree) (js : List Joint) : Tree :=
  match _ : cutLoosest js with
  | none => first
  | some (before, j, after) =>
    j.apply (readByPrecedence first before) (readByPrecedence j.right after)
termination_by js.length
decreasing_by
  all_goals
    rw [cutLoosest_eq_append ‹cutLoosest js = some (before, j, after)›]
    simp only [List.length_append, List.length_cons]
    omega

end Scriptlet
