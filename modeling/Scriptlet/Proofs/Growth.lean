import Scriptlet.Proofs.Soundness

/-!
# How a forest goes on

A forest and the same forest with more behind it are reduced alike, except for the last tree: with
more behind it, it may become a part of a larger one. `Grows` says how. It goes down the right side
of the last tree and from there takes it as the left side of something new. `Ahead` says it of whole
forests.

There are two ways in which the forests part. The short one may lack something at its end, where
more could follow; `ConstructError.AtEnd` says so of an error. Or a group at the end may have become
part of a property access before it could be joined to what is before it. Then the long forest has
two operands in a row that nothing will join, so it is `Broken`.

What is at the end of a forest is followed against the direction of reduction: leaves stay where
they are until a construct takes them.

## Contents

- §1 growing trees
- §2 two operands in a row
- §3 the end of a reduced forest
- §4 errors at the end
-/

namespace Scriptlet

open Scriptlet.Tree

/-! ## §1 Growing trees -/

/-- What may become of the last tree of a forest when there is more behind it. -/
inductive Grows : Tree → Tree → Prop where
  | refl (t : Tree) : Grows t t
  | keyword (k : Keyword) (loc : Location) {x y : Tree} (h : Grows x y) :
      Grows (.unary (.keyword k) x loc) (.unary (.keyword k) y loc)
  | leading (op : Operator) (loc : Location) {x y : Tree} (h : Grows x y) :
      Grows (.unary (.leading op) x loc) (.unary (.leading op) y loc)
  | between (tier : Tier) (op : Operator) (left : Tree) (loc : Location) {x y : Tree}
      (h : Grows x y) :
      Grows (.binary (.between tier op) left x loc) (.binary (.between tier op) left y loc)
  /-- An operand becomes the first part of a construct. -/
  | joined {x y t : Tree} {parts : List Tree} (h : Grows x y) (hy : y.isOperand = true)
      (hjoins : Joins (y :: parts) t) : Grows x t

/-- The tree is a leaf. -/
def Tree.isLeaf : Tree → Bool
  | .leaf _ => true
  | _ => false

theorem isLeaf_of_not_isOperand {t : Tree} (h : t.isOperand = false) : t.isLeaf = true := by
  cases t <;> first | rfl | cases h

theorem isLeaf_of_operator? {t : Tree} {f : Fixity} {found : Operator × Location}
    (h : t.operator? f = some found) : t.isLeaf = true := by
  cases t <;> first | rfl | cases h

/-- What is taken for an operator is a leaf at its place. -/
theorem leaf_of_operator? {t : Tree} {f : Fixity} {op : Operator} {loc : Location}
    (h : t.operator? f = some (op, loc)) : ∃ u : Token, t = .leaf u ∧ loc = u.loc := by
  unfold operator? at h
  split at h
  · split at h
    · cases h
      exact ⟨_, rfl, rfl⟩
    · cases h
  · cases h

namespace Grows

variable {x y : Tree}

/-- Only constructs are grown. -/
theorem eq_or_construct (h : Grows x y) :
    x = y ∨ y.isLeaf = false ∧ (∀ f, y.isGroup f = false) ∧ y.isOperand = true := by
  cases h with
  | refl => exact .inl rfl
  | keyword | leading | between => exact .inr ⟨rfl, fun _ => rfl, rfl⟩
  | joined _ _ hjoins => cases hjoins <;> exact .inr ⟨rfl, fun _ => rfl, rfl⟩

theorem isOperand_eq (h : Grows x y) : y.isOperand = x.isOperand := by
  induction h with
  | refl | keyword | leading | between => rfl
  | joined _ hy hjoins ih =>
    rw [← ih, hy]
    cases hjoins <;> rfl

theorem eq_of_isLeaf (h : Grows x y) (hy : y.isLeaf = true) : x = y := by
  rcases h.eq_or_construct with rfl | ⟨hleaf, -⟩
  · rfl
  · rw [hleaf] at hy
    cases hy

theorem eq_of_isGroup {f : Family} (h : Grows x y) (hy : y.isGroup f = true) : x = y := by
  rcases h.eq_or_construct with rfl | ⟨-, hgroup, -⟩
  · rfl
  · rw [hgroup] at hy
    cases hy

/-- What is no operand does not grow. -/
theorem eq_of_not_isOperand (h : Grows x y) (hx : x.isOperand = false) : x = y :=
  h.eq_of_isLeaf (isLeaf_of_not_isOperand (h.isOperand_eq.trans hx))

end Grows

/-- The long forest is the short one with its last tree grown and with more behind it. -/
def Ahead (short long : List Tree) : Prop :=
  ∃ before last grown behind, short = before ++ [last] ∧ long = before ++ grown :: behind ∧
    Grows last grown

theorem Ahead.cons {short long : List Tree} (h : Ahead short long) (t : Tree) :
    Ahead (t :: short) (t :: long) := by
  obtain ⟨before, last, grown, behind, rfl, rfl, hgrows⟩ := h
  exact ⟨t :: before, last, grown, behind, rfl, rfl, hgrows⟩

theorem Ahead.one {x y : Tree} (h : Grows x y) (behind : List Tree) : Ahead [x] (y :: behind) :=
  ⟨[], x, y, behind, rfl, rfl, h⟩

/-- Either the forests differ in their first trees, and the short one has no other, or there is
more behind the first tree of both. -/
theorem Ahead.cases_head {short long : List Tree} (h : Ahead short long) :
    (∃ x y behind, short = [x] ∧ long = y :: behind ∧ Grows x y) ∨
      ∃ t short' long', short = t :: short' ∧ long = t :: long' ∧ Ahead short' long' := by
  obtain ⟨before, last, grown, behind, rfl, rfl, hgrows⟩ := h
  cases before with
  | nil => exact .inl ⟨last, grown, behind, rfl, rfl, hgrows⟩
  | cons t before =>
    exact .inr ⟨t, _, _, rfl, rfl, before, last, grown, behind, rfl, rfl, hgrows⟩

/-! ## §2 Two operands in a row -/

/-- The tree is an operand and no group, so nothing is joined to it from the left. -/
def StandsApart (t : Tree) : Prop := t.isOperand = true ∧ ∀ f, t.isGroup f = false

theorem StandsApart.grows {x y : Tree} (hx : StandsApart x) (h : Grows x y) : StandsApart y := by
  rcases h.eq_or_construct with rfl | ⟨-, hgroup, hoperand⟩
  · exact hx
  · exact ⟨hoperand, hgroup⟩

/-- Somewhere in the forest there are two operands in a row, and the second is no group. -/
inductive Broken : List Tree → Prop where
  | here (x y : Tree) (behind : List Tree) (hx : x.isOperand = true) (hy : StandsApart y) :
      Broken (x :: y :: behind)
  | later (t : Tree) {ts : List Tree} (h : Broken ts) : Broken (t :: ts)

theorem standsApart_of_joins {parts : List Tree} {t : Tree} (h : Joins parts t) :
    StandsApart t := by
  cases h <;> exact ⟨rfl, fun _ => rfl⟩

/-- What is joined is not two operands in a row, or the second is a group. -/
theorem not_broken_of_joins {parts : List Tree} {t : Tree} (h : Joins parts t) :
    ¬ Broken parts := by
  have htwo : ∀ x y : Tree, (x.isOperand = false ∨ y.isOperand = false ∨ ∃ f, y.isGroup f = true) →
      ¬ Broken [x, y] := by
    intro x y hxy hbroken
    cases hbroken with
    | here _ _ _ hx hy =>
      rcases hxy with hxy | hxy | ⟨f, hxy⟩
      · rw [hxy] at hx
        cases hx
      · rw [hy.1] at hxy
        cases hxy
      · rw [hy.2 f] at hxy
        cases hxy
    | later _ hbroken =>
      cases hbroken with
      | later _ hbroken => cases hbroken
  have hthree : ∀ x y z : Tree, y.isOperand = false → ¬ Broken [x, y, z] := by
    intro x y z hy hbroken
    cases hbroken with
    | here _ _ _ _ hstands =>
      rw [hstands.1] at hy
      cases hy
    | later _ hbroken => exact htwo y z (.inl hy) hbroken
  -- two operands apart are never joined: a sign, a word, or a group comes between
  cases h with
  | member hdot =>
    refine hthree _ _ _ ?_
    unfold lexeme? at hdot
    split at hdot
    · next u =>
      obtain ⟨x, i, level, loc⟩ := u
      obtain rfl : x = _ := Option.some.inj hdot
      rfl
    · cases hdot
  | index ht | call ht | function ht => exact htwo _ _ (.inr (.inr ⟨_, ht⟩))
  | keyword => exact htwo _ _ (.inl rfl)
  | trailing ht => exact htwo _ _ (.inr (.inl (not_isOperand_of_operator? ht)))
  | leading ht => exact htwo _ _ (.inl (not_isOperand_of_operator? ht))
  | between ht =>
    exact hthree _ _ _ (not_isOperand_of_operator? (operator?_of_tierOperator? ht))

namespace Broken

variable {ts us : List Tree}

/-- Trees in front do not matter. -/
theorem before (h : Broken ts) (done : List Tree) : Broken (done ++ ts) := by
  induction done with
  | nil => exact h
  | cons t done ih => exact .later t ih

/-- The two operands are both in front, both behind, or one on each side. -/
theorem append_cases {ps : List Tree} (h : Broken (ps ++ ts)) :
    Broken ps ∨ (∃ y behind, ts = y :: behind ∧ StandsApart y) ∨ Broken ts := by
  induction ps with
  | nil => exact .inr (.inr h)
  | cons p ps ih =>
    generalize hall : (p :: ps) ++ ts = all at h
    cases h with
    -- the pair lies within the first part, or its second half is in the other
    | here x y behind hx hy =>
      cases ps with
      | nil =>
        obtain ⟨rfl, rfl⟩ : p = x ∧ ts = y :: behind := by simpa using hall
        exact .inr (.inl ⟨y, behind, rfl, hy⟩)
      | cons q ps =>
        obtain ⟨rfl, rfl, rfl⟩ : p = x ∧ q = y ∧ ps ++ ts = behind := by simpa using hall
        exact .inl (.here p q ps hx hy)
    | later t hrest =>
      obtain ⟨rfl, rfl⟩ : p = t ∧ ps ++ ts = _ := by simpa using hall
      exact (ih hrest).imp_left (.later p)

/-- Recognising a construct does not bring the two together. -/
theorem of_recognises (h : Recognises ts us) (hts : Broken ts) : Broken us := by
  -- the head of a forest keeps standing apart
  have hhead : ∀ {ts us : List Tree}, Recognises ts us → ∀ y behind, ts = y :: behind →
      StandsApart y → ∃ y' behind', us = y' :: behind' ∧ StandsApart y' := by
    intro ts us h y behind hts hy
    cases h with
    | here hjoins => exact ⟨_, _, rfl, standsApart_of_joins hjoins⟩
    | later t =>
      obtain ⟨rfl, -⟩ := List.cons.inj hts
      exact ⟨_, _, rfl, hy⟩
    | inside f loc ts hinside =>
      obtain ⟨rfl, -⟩ := List.cons.inj hts
      have hgroup := hy.2 f
      simp [isGroup] at hgroup
  induction h with
  | here hjoins rest =>
    rcases hts.append_cases with hparts | ⟨y, behind, rfl, hy⟩ | hrest
    · exact absurd hparts (not_broken_of_joins hjoins)
    · exact .here _ y behind (standsApart_of_joins hjoins).1 hy
    · exact .later _ hrest
  | later t hrest ih =>
    cases hts with
    | here _ y behind hx hy =>
      obtain ⟨y', behind', rfl, hy'⟩ := hhead hrest y behind rfl hy
      exact .here t y' behind' hx hy'
    | later _ hts => exact .later t (ih hts)
  | inside f loc rest hinside ih =>
    cases hts with
    | here _ y behind _ hy => exact .here _ y behind rfl hy
    | later _ hts => exact .later _ hts

theorem of_reduces (h : Reduces ts us) (hts : Broken ts) : Broken us := by
  induction h with
  | refl => exact hts
  | tail _ hstep ih => exact ih.of_recognises hstep

end Broken

/-! ## §3 The end of a reduced forest -/

/-- What has been recognised is on one side of any cut through the forest. -/
theorem split_of_recognises {ts us before after : List Tree} (h : Recognises ts us)
    (hus : us = before ++ after) :
    (∃ before', ts = before' ++ after) ∨
      ∃ after', Recognises after' after ∧ ts = before ++ after' := by
  induction h generalizing before with
  -- a recognition takes place at one position, in front of the cut or behind it
  | @here parts joined hjoins rest =>
    cases before with
    | nil =>
      obtain rfl : joined :: rest = after := hus
      exact .inr ⟨_, .here hjoins rest, rfl⟩
    | cons b before =>
      obtain ⟨-, rfl⟩ := List.cons.inj hus
      exact .inl ⟨parts ++ before, (List.append_assoc _ _ _).symm⟩
  | @later t _ vs hrest ih =>
    cases before with
    | nil =>
      obtain rfl : t :: vs = after := hus
      exact .inr ⟨_, .later t hrest, rfl⟩
    | cons b before =>
      obtain ⟨rfl, hrest'⟩ := List.cons.inj hus
      rcases ih hrest' with ⟨before', rfl⟩ | ⟨after', hafter, rfl⟩
      · exact .inl ⟨t :: before', rfl⟩
      · exact .inr ⟨after', hafter, rfl⟩
  | @inside f loc rest cs ds hinside =>
    cases before with
    | nil =>
      obtain rfl : .group f ds loc :: rest = after := hus
      exact .inr ⟨_, .inside f loc rest hinside, rfl⟩
    | cons b before =>
      obtain ⟨-, rfl⟩ := List.cons.inj hus
      exact .inl ⟨.group f cs loc :: before, rfl⟩

/-- Where something has been recognised there are not only leaves. -/
theorem exists_construct_of_recognises {ts us : List Tree} (h : Recognises ts us) :
    ∃ u ∈ us, u.isLeaf = false := by
  induction h with
  | here hjoins rest =>
    refine ⟨_, List.mem_cons_self, ?_⟩
    cases hjoins <;> rfl
  | later t _ ih =>
    obtain ⟨u, hu, hleaf⟩ := ih
    exact ⟨u, List.mem_cons_of_mem _ hu, hleaf⟩
  | inside => exact ⟨_, List.mem_cons_self, rfl⟩

/-- The leaves at the end of a reduced forest are at the end of the forest. -/
theorem leaves_of_reduces {ts us : List Tree} (h : Reduces ts us) {before leaves : List Tree}
    (hus : us = before ++ leaves) (hleaves : ∀ u ∈ leaves, u.isLeaf = true) :
    ∃ before', ts = before' ++ leaves := by
  induction h generalizing before with
  | refl => exact ⟨before, hus⟩
  | tail _ hstep ih =>
    rcases split_of_recognises hstep hus with ⟨before', hmid⟩ | ⟨after', hafter, -⟩
    · exact ih hmid
    · obtain ⟨u, hu, hleaf⟩ := exists_construct_of_recognises hafter
      rw [hleaves u hu] at hleaf
      cases hleaf

/-- A reserved word and a name at the end of a reduced forest are at the end of the forest. -/
theorem word_and_name_of_reduces {ts us before : List Tree} {k : Keyword} {u : Token}
    {loc : Location} (h : Reduces ts us)
    (hus : us = before ++ [Tree.unary (.keyword k) (.leaf u) loc]) :
    (∃ before', ts = before' ++ [Tree.unary (.keyword k) (.leaf u) loc]) ∨
      ∃ before' word, word.loc = loc ∧ ts = before' ++ [Tree.leaf word, Tree.leaf u] := by
  induction h generalizing before with
  | refl => exact .inl ⟨before, hus⟩
  | tail hfirst hstep ih =>
    rcases split_of_recognises hstep hus with ⟨before', hmid⟩ | ⟨after', hafter, hmid⟩
    · exact ih hmid
    · -- the word has just been applied to the name
      cases hafter with
      | later _ hnone => cases hnone
      | here hjoins =>
        cases hjoins with
        | keyword k i level loc =>
          obtain ⟨before', hts⟩ := leaves_of_reduces hfirst hmid (by simp [Tree.isLeaf])
          exact .inr ⟨before', ⟨.keyword k, i, level, loc⟩, rfl, hts⟩

/-! ## §4 Errors at the end -/

/-- The tree is an operator that stands before an operand. -/
def Tree.isSign (t : Tree) : Bool := (t.operator? .leading).isSome

/-- What is missing is missing behind the last tree, behind a reserved word with nothing but signs
behind it, or behind a name with a declaring word before it. -/
inductive ConstructError.AtEnd (e : ConstructError) : List Tree → Prop where
  | last (before : List Tree) (t : Token) (hloc : e.loc = t.loc)
      (hfault : e.fault ∈ [.missingProperty, .missingRight, .missingAfterLeading]) :
      AtEnd e (before ++ [Tree.leaf t])
  | keyword (before : List Tree) (t : Token) (signs : List Tree) (hloc : e.loc = t.loc)
      (hfault : e.fault = .missingAfterKeyword) (ht : ∃ k, t.lexeme = .keyword k)
      (hsigns : ∀ u ∈ signs, u.isSign = true) : AtEnd e (before ++ Tree.leaf t :: signs)
  | declaration (before : List Tree) (word name : Token) (hloc : e.loc = word.loc)
      (hfault : ∃ k, e.fault = .declarationForm k) (hname : (Tree.leaf name).isName = true) :
      AtEnd e (before ++ [Tree.leaf word, Tree.leaf name])

theorem ConstructError.AtEnd.cons {e : ConstructError} {ts : List Tree} (h : e.AtEnd ts)
    (t : Tree) : e.AtEnd (t :: ts) := by
  cases h with
  | last before u hloc hfault => exact .last (t :: before) u hloc hfault
  | keyword before u signs hloc hfault hu hsigns =>
    exact .keyword (t :: before) u signs hloc hfault hu hsigns
  | declaration before word name hloc hfault hname =>
    exact .declaration (t :: before) word name hloc hfault hname

/-- What is missing at the end of a reduced forest is missing at the end of the forest. -/
theorem ConstructError.AtEnd.of_reduces {e : ConstructError} {ts us : List Tree}
    (h : Reduces ts us) (hus : e.AtEnd us) : e.AtEnd ts := by
  -- what is missing names the last leaves of the forest, which no recognition has touched
  cases hus with
  | last before t hloc hfault =>
    obtain ⟨before', rfl⟩ := leaves_of_reduces h rfl (by simp [Tree.isLeaf])
    exact .last before' t hloc hfault
  | keyword before t signs hloc hfault ht hsigns =>
    obtain ⟨before', rfl⟩ := leaves_of_reduces h rfl (by
      intro u hu
      rcases List.mem_cons.mp hu with rfl | hu
      · rfl
      · obtain ⟨_, hop⟩ := Option.isSome_iff_exists.mp (hsigns u hu)
        exact isLeaf_of_operator? hop)
    exact .keyword before' t signs hloc hfault ht hsigns
  | declaration before word name hloc hfault hname =>
    obtain ⟨before', rfl⟩ := leaves_of_reduces h rfl (by simp [Tree.isLeaf])
    exact .declaration before' word name hloc hfault hname

end Scriptlet
