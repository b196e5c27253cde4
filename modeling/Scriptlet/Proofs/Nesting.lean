import Scriptlet.Proofs.Folding
import Scriptlet.Proofs.Reduction

/-!
# Nesting agrees at every stage

How deep a source is nested is found three times: by the number of delimiters open in the scan that
assigns levels, by the levels that groups are found at, and by counting groups in the forest. All
three agree, and reduction keeps the depth.

In a levelled row (`Nests`) the induction carries the depth the row stands at: the deepest level of
the row is that depth together with the depth of its forest. Reduction is a sequence of recognitions
(`Recognises`), and each of them only puts leaves and operands under a construct, which is no group.

## Contents

- §1 levels of tokens
- §2 leaves and the groups around them
- §3 constructs keep the nesting
- §4 the main result
-/

namespace Scriptlet

/-! ## §1 Levels of tokens -/

/-- The token is an opening delimiter. -/
def Token.isOpening (t : Token) : Bool :=
  match t.lexeme with
  | .delimiter _ .left => true
  | _ => false

@[simp] theorem deepestLevel_nil : deepestLevel [] = 0 := rfl

/-- The deepest level, with a level to start from. -/
theorem foldl_deepest (d : Nat) (ts : List Token) :
    ts.foldl (fun d t => max d t.level) d = max d (deepestLevel ts) := by
  unfold deepestLevel
  induction ts generalizing d with
  | nil => simp
  | cons t ts ih =>
    rw [List.foldl_cons, List.foldl_cons, ih, ih (max 0 t.level)]
    omega

/-- The deepest level of a token and those behind it. -/
@[simp] theorem deepestLevel_cons (t : Token) (ts : List Token) :
    deepestLevel (t :: ts) = max t.level (deepestLevel ts) := by
  rw [deepestLevel, List.foldl_cons, foldl_deepest, Nat.zero_max]

@[simp] theorem deepestLevel_append (ts us : List Token) :
    deepestLevel (ts ++ us) = max (deepestLevel ts) (deepestLevel us) := by
  rw [deepestLevel, List.foldl_append, foldl_deepest]
  rfl

/-! ## §2 Leaves and the groups around them -/

namespace Tree

@[simp] theorem depth_leaf (t : Token) : (Tree.leaf t).depth = 0 := rfl

@[simp] theorem depth_group (f : Family) (cs : List Tree) (loc : Location) :
    (Tree.group f cs loc).depth = 1 + depthAll cs :=
  rfl

@[simp] theorem depth_unary (form : UnaryForm) (x : Tree) (loc : Location) :
    (Tree.unary form x loc).depth = x.depth :=
  rfl

@[simp] theorem depth_binary (form : BinaryForm) (x y : Tree) (loc : Location) :
    (Tree.binary form x y loc).depth = max x.depth y.depth :=
  rfl

@[simp] theorem depthAll_nil : depthAll [] = 0 := rfl

@[simp] theorem depthAll_cons (t : Tree) (ts : List Tree) :
    depthAll (t :: ts) = max t.depth (depthAll ts) :=
  rfl

@[simp] theorem depthAll_append (ts us : List Tree) :
    depthAll (ts ++ us) = max (depthAll ts) (depthAll us) := by
  induction ts with
  | nil => simp
  | cons t ts ih => simp [ih, max_assoc]

mutual

/-- The tokens at the leaves of a tree with `n` groups around it, each with the number of groups
around the leaf. -/
def leaves (n : Nat) : Tree → List (Token × Nat)
  | .leaf t => [(t, n)]
  | .group _ cs _ => leavesAll (n + 1) cs
  | .unary _ x _ => x.leaves n
  | .binary _ x y _ => x.leaves n ++ y.leaves n

/-- The tokens at the leaves of trees with `n` groups around them. -/
def leavesAll (n : Nat) : List Tree → List (Token × Nat)
  | [] => []
  | t :: ts => t.leaves n ++ leavesAll n ts

end

@[simp] theorem leavesAll_nil (n : Nat) : leavesAll n [] = [] := rfl

@[simp] theorem leavesAll_cons (n : Nat) (t : Tree) (ts : List Tree) :
    leavesAll n (t :: ts) = t.leaves n ++ leavesAll n ts :=
  rfl

@[simp] theorem leavesAll_append (n : Nat) (ts us : List Tree) :
    leavesAll n (ts ++ us) = leavesAll n ts ++ leavesAll n us := by
  induction ts with
  | nil => simp
  | cons t ts ih => simp [ih]

end Tree

open Scriptlet.Tree

namespace Nests

variable {depth : Nat} {ts : List Token} {forest : List Tree}

/-- Behind a group the row goes on at the depth that the group stands at. -/
theorem max_group (d inner rest : Nat) :
    max d (max (d + 1 + inner) (max (d + 1) rest)) = max (d + 1 + inner) (max d rest) := by
  omega

/-- The deepest level of a row is the depth the row stands at with that of its forest. It is the
level of an opening delimiter, so it does not matter which tokens are counted as long as those
are. -/
theorem deepestLevel_filter (h : Nests depth ts forest) {p : Token → Bool}
    (hp : ∀ t, t.isOpening = true → p t = true) :
    max depth (deepestLevel (ts.filter p)) = depth + depthAll forest := by
  induction h with
  | nil => simp
  -- a token counted twice or not at all stands at the depth of the row
  | @plain depth t ts forest _ hlevel _ ih =>
    have hcounted : max depth (deepestLevel ((t :: ts).filter p))
        = max depth (deepestLevel (ts.filter p)) := by
      rw [List.filter_cons]
      split
      · rw [deepestLevel_cons, hlevel, ← max_assoc, max_self]
      · rfl
    rw [hcounted, ih, depthAll_cons, depth_leaf, Nat.zero_max]
  | @pair depth f o c inner rest cs forest ho holevel _ hclevel _ _ ihinner ihrest =>
    have hopening : p o = true := hp o (by rw [Token.isOpening, ho])
    have hclosing : max (depth + 1) (deepestLevel ((c :: rest).filter p))
        = max (depth + 1) (deepestLevel (rest.filter p)) := by
      rw [List.filter_cons]
      split
      · rw [deepestLevel_cons, hclevel, ← max_assoc, max_self]
      · rfl
    rw [List.filter_cons_of_pos hopening, List.filter_append, deepestLevel_cons,
      deepestLevel_append, holevel, depthAll_cons, depth_group]
    calc max depth (max (depth + 1) (max (deepestLevel (inner.filter p))
            (deepestLevel ((c :: rest).filter p))))
        = max depth (max (depth + 1 + depthAll cs)
            (max (depth + 1) (deepestLevel (rest.filter p)))) := by
          rw [sup_sup_distrib_left (depth + 1), ihinner, hclosing]
      _ = max (depth + (1 + depthAll cs)) (depth + depthAll forest) := by
          rw [max_group, ihrest, Nat.add_assoc]
      _ = depth + max (1 + depthAll cs) (depthAll forest) := Nat.add_max_add_left ..

/-- The leaves of a forest are the tokens of its row that are no delimiters, and each level is the
number of groups around the leaf. -/
theorem leavesAll_eq (h : Nests depth ts forest) :
    leavesAll depth forest
      = (ts.filter (·.lexeme.family?.isNone)).map fun t => (t, t.level) := by
  induction h with
  | nil => simp
  | @plain _ t _ _ ht hlevel _ ih => simp [leaves, ht, hlevel, ih]
  | @pair _ f o c _ _ _ _ ho _ hc _ _ _ ihinner ihrest =>
    simp [leaves, ho, hc, Lexeme.family?, ihinner, ihrest]

end Nests

/-! ## §3 Constructs keep the nesting -/

/-- The operators that a construct is made of are leaves, so they add nothing to the depth. -/
theorem Tree.depth_of_operator? {t : Tree} {fixity : Fixity} {found : Operator × Location}
    (h : t.operator? fixity = some found) : t.depth = 0 := by
  cases t with
  | leaf => exact depth_leaf _
  | group | unary | binary => cases h

/-- A tree with a lexeme is a leaf, with no depth. -/
theorem Tree.depth_of_lexeme? {t : Tree} {x : Lexeme} (h : t.lexeme? = some x) : t.depth = 0 := by
  cases t with
  | leaf => exact depth_leaf _
  | group | unary | binary => cases h

section

variable {parts ts us : List Tree} {joined : Tree}

/-- A construct is as deep as what it is made of. -/
theorem depth_of_joins (h : Joins parts joined) : joined.depth = depthAll parts := by
  cases h with
  | member hdot => simp [depth_of_lexeme? hdot]
  | index | call | function | keyword => simp
  | trailing ht | leading ht => simp [depth_of_operator? ht]
  | between ht => simp [depth_of_operator? (operator?_of_tierOperator? ht)]

/-- A construct has only leaves of what it is made of, with as many groups around them. -/
theorem leaves_of_joins (h : Joins parts joined) (n : Nat) :
    (joined.leaves n).Sublist (leavesAll n parts) := by
  cases h with
  | member | between => simp [leaves]
  | index | call | function => simp [leaves]
  | keyword | leading => simp [leaves]
  | trailing => simp [leaves]

/-- Recognising a node changes no depth. -/
theorem depthAll_of_recognises (h : Recognises ts us) : depthAll us = depthAll ts := by
  induction h with
  | here h ts => simp [depth_of_joins h]
  | later t _ ih => simp [ih]
  | inside f loc ts _ ih => simp [ih]

/-- Recognising a node loses operators from the leaves and nothing else. -/
theorem leavesAll_of_recognises (h : Recognises ts us) (n : Nat) :
    (leavesAll n us).Sublist (leavesAll n ts) := by
  induction h generalizing n with
  -- a recognition uses up leaves, and moves no leaf into a group or out of one
  | here h ts =>
    rw [leavesAll_cons, leavesAll_append]
    exact (leaves_of_joins h n).append_right _
  | later t _ ih =>
    rw [leavesAll_cons, leavesAll_cons]
    exact (ih n).append_left _
  | inside f loc ts _ ih =>
    rw [leavesAll_cons, leavesAll_cons, leaves, leaves]
    exact (ih (n + 1)).append_right _

/-- Reduction changes no depth. -/
theorem depthAll_of_reduces (h : Reduces ts us) : depthAll us = depthAll ts := by
  induction h with
  | refl => rfl
  | tail _ hstep ih => rw [depthAll_of_recognises hstep, ih]

/-- Reduction loses operators from the leaves and nothing else. -/
theorem leavesAll_of_reduces (h : Reduces ts us) (n : Nat) :
    (leavesAll n us).Sublist (leavesAll n ts) := by
  induction h with
  | refl => exact List.Sublist.refl _
  | tail _ hstep ih => exact (leavesAll_of_recognises hstep n).trans ih

end

/-! ## §4 The main result -/

/-- **Nesting agrees at every stage.** Where tokens have levels they have a forest, and both ways of
finding it end with the same one. The forest is as deep as the deepest level, which is the greatest
number of delimiters open at once. The level of each leaf is the number of groups around it.
Reduction changes neither the depth nor what is around the leaves that stay. -/
theorem foldGroups_nesting (tokens levelled : List Token)
    (h : assignLevels tokens = .ok levelled) :
    deepestLevel (levelled.filter Token.isOpening) = deepestLevel levelled ∧
      ∃ forest, foldGroups tokens = .ok forest ∧ foldLevelwise tokens = .ok (some forest) ∧
        depthAll forest = deepestLevel levelled ∧
        (∀ x ∈ leavesAll 0 forest, x.1.level = x.2) ∧
        ∀ reduced, reduce forest = .ok reduced →
          depthAll reduced = deepestLevel levelled ∧
            ∀ x ∈ leavesAll 0 reduced, x.1.level = x.2 := by
  -- the levels pair up, so there is one forest, which both ways find
  obtain ⟨forest, hnests⟩ := nests_of_assignLevels h
  have hgroups : foldGroups tokens = .ok forest :=
    bind_eq_ok.mpr ⟨levelled, h, congrArg Except.ok hnests.group_eq⟩
  have hdepth : depthAll forest = deepestLevel levelled := by
    have hall := hnests.deepestLevel_filter (p := fun _ => true) fun _ _ => rfl
    simpa using hall.symm
  have hopening : deepestLevel (levelled.filter Token.isOpening) = depthAll forest := by
    simpa using hnests.deepestLevel_filter fun _ ht => ht
  have hleaves : ∀ x ∈ leavesAll 0 forest, x.1.level = x.2 := by
    rw [hnests.leavesAll_eq]
    intro x hx
    obtain ⟨t, -, rfl⟩ := List.mem_map.mp hx
    rfl
  refine ⟨hopening.trans hdepth, forest, hgroups, ?_, hdepth, hleaves, fun reduced hreduce => ?_⟩
  · rw [foldLevelwise_eq, hgroups]
    rfl
  · have hreduces := reduces_reduce hreduce
    refine ⟨(depthAll_of_reduces hreduces).trans hdepth, fun x hx => hleaves x ?_⟩
    exact (leavesAll_of_reduces hreduces 0).subset hx

/-- The tokens of `f([x])`. -/
def nestedTokens : List Token :=
  [ ⟨.name "f", 0, 0, ⟨0, 1, 1⟩⟩, ⟨.delimiter .parenthesis .left, 1, 0, ⟨1, 1, 2⟩⟩,
    ⟨.delimiter .bracket .left, 2, 0, ⟨2, 1, 3⟩⟩, ⟨.name "x", 3, 0, ⟨3, 1, 4⟩⟩,
    ⟨.delimiter .bracket .right, 4, 0, ⟨4, 1, 5⟩⟩,
    ⟨.delimiter .parenthesis .right, 5, 0, ⟨5, 1, 6⟩⟩ ]

theorem foldGroups_nesting_call :
    ∃ levelled forest reduced, assignLevels nestedTokens = .ok levelled ∧
      foldGroups nestedTokens = .ok forest ∧ reduce forest = .ok reduced ∧
      deepestLevel levelled = 2 ∧ depthAll forest = 2 ∧ depthAll reduced = 2 := by
  obtain ⟨-, forest, hforest, -, hdepth, -, hreduce⟩ := foldGroups_nesting nestedTokens _ rfl
  obtain rfl : _ = forest := Except.ok.inj hforest
  exact ⟨_, _, _, rfl, rfl, rfl, rfl, hdepth, (hreduce _ rfl).1⟩

end Scriptlet
