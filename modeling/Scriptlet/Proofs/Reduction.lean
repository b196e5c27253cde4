import Mathlib
import Scriptlet.Proofs.Passes

/-!
# Reduction recognises constructs one by one

Whatever a pass does to a forest comes down to single recognitions: two or three neighbouring trees,
at the outermost depth or inside a group, become one construct over them. `Joins` says which trees
become which construct, and `Recognises` that this happens somewhere in a forest. Every pass, and
with them the whole reduction, is a sequence of recognitions.

What a single recognition keeps is therefore kept by reduction. The texts of a forest, read off in
order with their places, are kept: nothing is lost, moved or said twice.

## Contents

- §1 texts in order
- §2 recognitions
- §3 passes from the left
- §4 passes from the right
- §5 the whole reduction
-/

namespace Scriptlet

/-! ## §1 Texts in order -/

namespace Tree

mutual

/-- The texts of a tree from left to right, each with its place. A group keeps the place of its
opening delimiter only. -/
def inOrder : Tree → List (Text × Option Location)
  | .leaf t => [(t.lexeme.value, some t.loc)]
  | .group f cs loc => (f.opening, some loc) :: (inOrderAll cs ++ [(f.closing, none)])
  | .unary (.trailing op) x loc => x.inOrder ++ [(op.spelling, some loc)]
  | .unary (.leading op) x loc => (op.spelling, some loc) :: x.inOrder
  | .unary (.keyword k) x loc => (k.spelling, some loc) :: x.inOrder
  | .binary .member x y loc => x.inOrder ++ (BinaryForm.member.symbol, some loc) :: y.inOrder
  | .binary (.between _ op) x y loc => x.inOrder ++ (op.spelling, some loc) :: y.inOrder
  | .binary .index x y _ | .binary .call x y _ | .binary .function x y _ => x.inOrder ++ y.inOrder

/-- The texts of trees from left to right. -/
def inOrderAll : List Tree → List (Text × Option Location)
  | [] => []
  | t :: ts => t.inOrder ++ inOrderAll ts

end

@[simp] theorem inOrderAll_nil : inOrderAll [] = [] := by rw [inOrderAll]

@[simp] theorem inOrderAll_cons (t : Tree) (ts : List Tree) :
    inOrderAll (t :: ts) = t.inOrder ++ inOrderAll ts := by
  rw [inOrderAll]

/-- The order of operators in two rows, one behind the other. -/
@[simp] theorem inOrderAll_append (ts us : List Tree) :
    inOrderAll (ts ++ us) = inOrderAll ts ++ inOrderAll us := by
  induction ts with
  | nil => simp
  | cons t ts ih => simp [ih]

variable {t : Tree} {op : Operator} {loc : Location}

/-- A leaf that is taken for an operator has its spelling, at its place. -/
theorem inOrder_of_operator? {fixity : Fixity} (h : t.operator? fixity = some (op, loc)) :
    t.inOrder = [(op.spelling, some loc)] := by
  unfold operator? at h
  split at h
  · split at h
    · cases h
      rw [inOrder]
      rfl
    · cases h
  · cases h

/-- An operator of a tier stands alone in the order. -/
theorem inOrder_of_tierOperator? {tier : Tier} (h : t.tierOperator? tier = some (op, loc)) :
    t.inOrder = [(op.spelling, some loc)] :=
  inOrder_of_operator? (Option.filter_eq_some_iff.mp h).1

theorem inOrder_of_dot {fixity : Fixity} (h : t.lexeme? = some (.operator .dot fixity)) :
    t.inOrder = [(BinaryForm.member.symbol, some t.loc)] := by
  unfold lexeme? at h
  split at h
  · next u =>
    rw [inOrder, Option.some.inj h]
    rfl
  · cases h

/-- An operand is no operator. -/
theorem operator?_of_isOperand {fixity : Fixity} (h : t.isOperand = true) :
    t.operator? fixity = none := by
  unfold operator?
  split
  · cases h
  · rfl

/-- An operand is no operator of a tier. -/
theorem tierOperator?_of_isOperand {tier : Tier} (h : t.isOperand = true) :
    t.tierOperator? tier = none := by
  rw [tierOperator?, operator?_of_isOperand h]
  rfl

/-- What is taken for an operator is no operand. -/
theorem not_isOperand_of_operator? {fixity : Fixity} {found : Operator × Location}
    (h : t.operator? fixity = some found) : t.isOperand = false := by
  rw [Bool.eq_false_iff]
  intro hoperand
  rw [operator?_of_isOperand hoperand] at h
  cases h

theorem operator?_of_tierOperator? {tier : Tier} {found : Operator × Location}
    (h : t.tierOperator? tier = some found) : t.operator? .dual = some found :=
  (Option.filter_eq_some_iff.mp h).1

end Tree

open Scriptlet.Tree

/-! ## §2 Recognitions -/

/-- Neighbouring trees that become one construct. -/
inductive Joins : List Tree → Tree → Prop where
  | member {left dot property : Tree} {fixity : Fixity}
      (hdot : dot.lexeme? = some (.operator .dot fixity)) (hleft : left.isOperand = true)
      (hname : property.isName = true) :
      Joins [left, dot, property] (.binary .member left property dot.loc)
  | index {left t : Tree} (ht : t.isGroup .bracket = true) (hleft : left.isAccessor = true) :
      Joins [left, t] (.binary .index left t left.loc)
  | call {left t : Tree} (ht : t.isGroup .parenthesis = true) (hleft : left.isAccessor = true) :
      Joins [left, t] (.binary .call left t left.loc)
  | keyword (k : Keyword) (i level : Nat) (loc : Location) {x : Tree} (hx : x.isOperand = true) :
      Joins [.leaf ⟨.keyword k, i, level, loc⟩, x] (.unary (.keyword k) x loc)
  | function {left t : Tree} (ht : t.isGroup .brace = true)
      (hleft : left.isGroup .parenthesis = true) :
      Joins [left, t] (.binary .function left t left.loc)
  | trailing {left t : Tree} {op : Operator} {loc : Location}
      (ht : t.operator? .trailing = some (op, loc)) (hleft : left.isOperand = true) :
      Joins [left, t] (.unary (.trailing op) left loc)
  | leading {t x : Tree} {op : Operator} {loc : Location}
      (ht : t.operator? .leading = some (op, loc)) (hx : x.isOperand = true) :
      Joins [t, x] (.unary (.leading op) x loc)
  | between {tier : Tier} {left t right : Tree} {op : Operator} {loc : Location}
      (ht : t.tierOperator? tier = some (op, loc)) (hleft : left.isOperand = true)
      (hright : right.isOperand = true) :
      Joins [left, t, right] (.binary (.between tier op) left right loc)

/-- One construct is recognised somewhere in a forest. -/
inductive Recognises : List Tree → List Tree → Prop where
  | here {parts : List Tree} {joined : Tree} (h : Joins parts joined) (ts : List Tree) :
      Recognises (parts ++ ts) (joined :: ts)
  | later (t : Tree) {ts us : List Tree} (h : Recognises ts us) : Recognises (t :: ts) (t :: us)
  | inside (f : Family) (loc : Location) (ts : List Tree) {cs ds : List Tree}
      (h : Recognises cs ds) : Recognises (.group f cs loc :: ts) (.group f ds loc :: ts)

/-- Constructs are recognised one after the other. -/
def Reduces : List Tree → List Tree → Prop := Relation.ReflTransGen Recognises

variable {done ts us vs : List Tree} {t : Tree}

/-- A construct has the texts of what it is made of. -/
theorem inOrder_of_joins {parts : List Tree} {joined : Tree} (h : Joins parts joined) :
    joined.inOrder = inOrderAll parts := by
  cases h with
  | member hdot => simp [inOrder, inOrder_of_dot hdot]
  | index | call | function => simp [inOrder]
  | keyword k i level loc => simp [inOrder, Lexeme.value]
  | trailing ht | leading ht => simp [inOrder, inOrder_of_operator? ht]
  | between ht => simp [inOrder, inOrder_of_tierOperator? ht]

/-- A recognition keeps the texts and their order. -/
theorem inOrderAll_of_recognises (h : Recognises ts us) : inOrderAll us = inOrderAll ts := by
  induction h with
  | here h ts => simp [inOrder_of_joins h]
  | later t _ ih => simp [ih]
  | inside f loc ts _ ih => simp [inOrder, ih]

theorem inOrderAll_of_reduces (h : Reduces ts us) : inOrderAll us = inOrderAll ts := by
  induction h with
  | refl => rfl
  | tail _ hstep ih => rw [inOrderAll_of_recognises hstep, ih]

namespace Reduces

theorem refl (ts : List Tree) : Reduces ts ts := Relation.ReflTransGen.refl

/-- Reductions follow one another. -/
theorem trans (h : Reduces ts us) (h' : Reduces us vs) : Reduces ts vs :=
  Relation.ReflTransGen.trans h h'

/-- Reductions go on behind a tree that is left alone. -/
theorem cons (t : Tree) (h : Reduces ts us) : Reduces (t :: ts) (t :: us) := by
  induction h with
  | refl => exact refl _
  | tail _ hstep ih => exact ih.tail (.later t hstep)

/-- Reductions go on inside a group. -/
theorem inside (f : Family) (loc : Location) (ts : List Tree) {cs ds : List Tree}
    (h : Reduces cs ds) : Reduces (.group f cs loc :: ts) (.group f ds loc :: ts) := by
  induction h with
  | refl => exact refl _
  | tail _ hstep ih => exact ih.tail (.inside f loc ts hstep)

/-- Reductions go on behind trees that are done. -/
theorem before (done : List Tree) (h : Reduces ts us) : Reduces (done ++ ts) (done ++ us) := by
  induction done with
  | nil => exact h
  | cons t done ih => exact ih.cons t

/-- A construct is recognised in front of the rest, and the rest goes on from there. -/
theorem joins {parts : List Tree} {joined : Tree} (h : Joins parts joined)
    (hrest : Reduces (joined :: ts) us) : Reduces (parts ++ ts) us :=
  .head (.here h ts) hrest

/-- The same behind what is done. The last trees done may be among the parts, so it is for the
caller to say where the parts stand. -/
theorem joinsBehind {parts : List Tree} {joined : Tree} (h : Joins parts joined)
    (hsplit : us = done ++ (parts ++ ts)) (hrest : Reduces (done ++ joined :: ts) vs) :
    Reduces us vs := by
  subst hsplit
  exact (before done (.joins h (refl _))).trans hrest

end Reduces

/-! ## §3 Passes from the left -/

/-- The member pass joins an operand, the dot and a name. -/
theorem reduces_memberPass (h : memberPass done ts = .ok us) :
    Reduces (done.reverse ++ ts) us := by
  fun_induction memberPass done ts with
  | case1 done =>
    cases h
    rw [List.append_nil]
    exact .refl _
  | case2 | case3 | case5 | case6 => cases h
  | case4 t f hdot left done hleft property rest hname ih =>
    -- the only turn that changes the row joins a point to what stands on its sides
    have hrest := ih h
    rw [List.reverse_cons, List.append_assoc] at hrest
    exact .joinsBehind (.member hdot hleft hname) (by simp) hrest
  | case7 done t rest _ ih =>
    have hrest := ih h
    rwa [List.reverse_cons, List.append_assoc] at hrest

/-- A pass that joins neighbours only joins them as nodes. -/
theorem reduces_joinPass (done : List Tree) {join : Tree → Tree → Option Tree}
    (hjoin : ∀ left t joined, join left t = some joined → Joins [left, t] joined) :
    Reduces (done.reverse ++ ts) (joinPass join done ts) := by
  fun_induction joinPass join done ts with
  | case1 done =>
    rw [List.append_nil]
    exact .refl _
  | case2 t rest ih => exact ih
  -- what was done is in reverse, so the tree joined to stands right before the new one
  | case3 t rest left done joined heq ih =>
    rw [List.reverse_cons, List.append_assoc] at ih
    exact .joinsBehind (hjoin left t joined heq) (by simp) ih
  | case4 t rest left done _ ih => rwa [List.reverse_cons, List.append_assoc] at ih

/-- Calls and indices are joined to the operand in front of them. -/
theorem joins_of_joinAccessor {family : Family} {form : BinaryForm}
    (hform : ∀ left t : Tree, t.isGroup family = true → left.isAccessor = true →
      Joins [left, t] (.binary form left t left.loc)) (left t joined : Tree)
    (h : joinAccessor family form left t = some joined) : Joins [left, t] joined := by
  unfold joinAccessor at h
  split at h
  · next hboth =>
    rw [Bool.and_eq_true] at hboth
    cases h
    exact hform left t hboth.1 hboth.2
  · cases h

/-- Parameters and the body behind them are joined to a function. -/
theorem joins_of_joinFunction (left t joined : Tree) (h : joinFunction left t = some joined) :
    Joins [left, t] joined := by
  unfold joinFunction at h
  split at h
  · next hboth =>
    rw [Bool.and_eq_true] at hboth
    cases h
    exact .function hboth.1 hboth.2
  · cases h

/-- The trailing pass joins an operator to the operand in front of it. -/
theorem reduces_trailingPass (h : trailingPass done ts = .ok us) :
    Reduces (done.reverse ++ ts) us := by
  fun_induction trailingPass done ts with
  | case1 done =>
    cases h
    rw [List.append_nil]
    exact .refl _
  | case2 done t rest _ ih =>
    have hrest := ih h
    rwa [List.reverse_cons, List.append_assoc] at hrest
  | case3 t rest op loc hop left done hleft ih =>
    have hrest := ih h
    rw [List.reverse_cons, List.append_assoc] at hrest
    exact .joinsBehind (.trailing hop hleft) (by simp) hrest
  | case4 | case5 => cases h

/-- A pass to the left joins an operator to its two operands. -/
theorem reduces_chainLeft {tier : Tier} (h : chainLeft tier done ts = .ok us) :
    Reduces (done.reverse ++ ts) us := by
  fun_induction chainLeft tier done ts with
  | case1 done =>
    cases h
    rw [List.append_nil]
    exact .refl _
  | case2 done t rest _ ih =>
    have hrest := ih h
    rwa [List.reverse_cons, List.append_assoc] at hrest
  | case3 | case4 | case6 | case7 => cases h
  | case5 t op loc hop left done hleft right rest hright ih =>
    have hrest := ih h
    rw [List.reverse_cons, List.append_assoc] at hrest
    exact .joinsBehind (.between hop hleft hright) (by simp) hrest

/-! ## §4 Passes from the right -/

/-- An operand is taken with the signs before it: each of them is a recognition of its own, the one
next to the operand first. -/
theorem reduces_takeOperand {x : Tree} (h : takeOperand ts = some (x, us)) :
    Reduces ts (x :: us) ∧ x.isOperand = true := by
  -- only signs go on, each of them around what is taken behind it
  fun_induction takeOperand ts generalizing x us with
  | case1 | case4 => cases h
  | case2 t rest op loc hop ih =>
    obtain ⟨⟨inner, more⟩, hinner, heq⟩ := Option.map_eq_some_iff.mp h
    cases heq
    obtain ⟨hreduces, hoperand⟩ := ih hinner
    have hsign : Reduces ([t, inner] ++ us) _ := .joins (.leading hop hoperand) (.refl _)
    exact ⟨(hreduces.cons t).trans hsign, rfl⟩
  | case3 t rest _ hoperand =>
    cases h
    exact ⟨.refl _, hoperand⟩

/-- The keyword pass joins a keyword to its operand. -/
theorem reduces_keywordPass (h : keywordPass ts = .ok us) : Reduces ts us := by
  induction ts generalizing us with
  | nil =>
    cases h
    exact .refl _
  | cons t rest ih =>
    obtain ⟨more, hmore, h⟩ := bind_eq_ok.mp h
    have hrest := (ih hmore).cons t
    split at h
    · next k i level loc _ =>
      split at h
      · next x more' htake =>
        cases h
        -- the operand is put together before the word is applied to it
        obtain ⟨hreduces, hoperand⟩ := reduces_takeOperand htake
        refine hrest.trans ((hreduces.cons _).trans ?_)
        exact .joins (.keyword k i level loc hoperand) (.refl _)
      · cases h
    · cases h
      exact hrest

/-- The leading pass joins a sign to the operand behind it. -/
theorem reduces_leadingPass (h : leadingPass ts = .ok us) : Reduces ts us := by
  induction ts generalizing us with
  | nil =>
    cases h
    exact .refl _
  | cons t rest ih =>
    obtain ⟨more, hmore, h⟩ := bind_eq_ok.mp h
    have hrest := (ih hmore).cons t
    split at h
    · cases h
      exact hrest
    -- an operator that leads is applied to the first of what the rest became
    · next op loc hop =>
      split at h
      · next right more' =>
        split at h
        · next hright =>
          cases h
          exact hrest.trans (.joins (.leading hop hright) (.refl _))
        · cases h
      · cases h

/-- The right operand is the tree that stands there, and an operand. -/
theorem takeRight_eq {tier : Tier} {op : Operator} {loc : Location} {right : Tree}
    (h : takeRight tier op loc ts = .ok (right, us)) :
    ts = right :: us ∧ right.isOperand = true := by
  unfold takeRight at h
  split at h
  · split at h
    · next hright =>
      cases h
      exact ⟨rfl, hright⟩
    · cases h
  · cases h

/-- A pass to the right joins an operator to its two operands. -/
theorem reduces_chainRight {tier : Tier} (h : chainRight tier ts = .ok us) : Reduces ts us := by
  fun_induction chainRight tier ts generalizing us with
  | case1 | case3 =>
    cases h
    exact .refl _
  | case2 t rest op loc hop ih =>
    obtain ⟨more, _, h⟩ := bind_eq_ok.mp h
    obtain ⟨right, _, h⟩ := bind_eq_ok.mp h
    cases h
  | case4 t _ o rest op loc hop ih =>
    obtain ⟨more, hmore, h⟩ := bind_eq_ok.mp h
    obtain ⟨⟨right, more'⟩, htake, h⟩ := bind_eq_ok.mp h
    cases h
    obtain ⟨rfl, hright⟩ := takeRight_eq htake
    split at hop
    · next hleft =>
      -- the rest is reduced first, and its first tree is the right operand
      have hrest := ((ih hmore).cons o).cons t
      exact hrest.trans (.joins (.between hop hleft hright) (.refl _))
    · cases hop
  | case5 t _ o rest _ ih =>
    obtain ⟨more, hmore, h⟩ := bind_eq_ok.mp h
    cases h
    exact (ih hmore).cons t

/-! ## §5 The whole reduction -/

/-- A tier's pass reduces in whichever direction the tier goes. -/
theorem reduces_tierPass (tier : Tier) (h : tierPass tier ts = .ok us) : Reduces ts us := by
  unfold tierPass at h
  split at h
  · exact reduces_chainRight h
  · exact reduces_chainLeft h

/-- Each of the passes reduces. -/
theorem reduces_of_mem_passes {pass : Pass} (hpass : pass ∈ passes) (h : pass ts = .ok us) :
    Reduces ts us := by
  simp only [passes, List.mem_append, List.mem_cons, List.not_mem_nil, or_false, List.mem_map]
    at hpass
  -- the passes before the tiers, then those of the tiers
  rcases hpass with (rfl | rfl | rfl | rfl | rfl | rfl | rfl) | ⟨tier, -, rfl⟩
  · exact reduces_memberPass h
  · cases h
    exact reduces_joinPass [] (joins_of_joinAccessor fun _ _ => .index)
  · cases h
    exact reduces_joinPass [] (joins_of_joinAccessor fun _ _ => .call)
  · exact reduces_keywordPass h
  · cases h
    exact reduces_joinPass [] joins_of_joinFunction
  · exact reduces_trailingPass h
  · exact reduces_leadingPass h
  · exact reduces_tierPass tier h

/-- Some of the passes, one after the other. -/
theorem reduces_of_all_passes {ps : List Pass} (hps : ∀ pass ∈ ps, pass ∈ passes)
    (h : ps.foldlM (fun acc pass => pass acc) ts = .ok us) : Reduces ts us := by
  induction ps generalizing ts with
  | nil =>
    cases h
    exact .refl _
  | cons pass ps ih =>
    obtain ⟨mid, hmid, h⟩ := bind_eq_ok.mp h
    have hfirst := reduces_of_mem_passes (hps pass (by simp)) hmid
    exact hfirst.trans (ih (fun p hp => hps p (List.mem_cons_of_mem _ hp)) h)

/-- All passes, one after the other, reduce. -/
theorem reduces_runPasses (h : runPasses ts = .ok us) : Reduces ts us :=
  reduces_of_all_passes (fun _ h => h) h

mutual

/-- A group is reduced in its place among other trees. -/
theorem reduces_reduceGroup : ∀ (t : Tree) {u : Tree}, reduceGroup t = .ok u → ∀ ts : List Tree,
    Reduces (t :: ts) (u :: ts)
  -- contents are reduced first, groups before passes, and a group is its own context
  | .group f cs loc, u, h, ts => by
    rw [reduceGroup] at h
    obtain ⟨inner, hinner, h⟩ := bind_eq_ok.mp h
    obtain ⟨ds, hds, h⟩ := bind_eq_ok.mp h
    cases h
    exact .inside f loc ts ((reduces_reduceGroups cs hinner).trans (reduces_runPasses hds))
  | .leaf _, u, h, ts | .unary _ _ _, u, h, ts | .binary _ _ _ _, u, h, ts => by
    rw [reduceGroup] at h
    · cases h
      exact .refl _
    · simp

/-- A row is reduced tree by tree. -/
theorem reduces_reduceGroups : ∀ (ts : List Tree) {us : List Tree}, reduceGroups ts = .ok us →
    Reduces ts us
  | [], us, h => by
    rw [reduceGroups] at h
    cases h
    exact .refl _
  | t :: ts, us, h => by
    rw [reduceGroups] at h
    obtain ⟨u, hu, h⟩ := bind_eq_ok.mp h
    obtain ⟨more, hmore, h⟩ := bind_eq_ok.mp h
    cases h
    exact (reduces_reduceGroup t hu ts).trans ((reduces_reduceGroups ts hmore).cons u)

end

/-- Reduction is a sequence of recognitions. -/
theorem reduces_reduce (h : reduce ts = .ok us) : Reduces ts us := by
  obtain ⟨inner, hinner, h⟩ := bind_eq_ok.mp h
  exact (reduces_reduceGroups ts hinner).trans (reduces_runPasses h)

/-- **Reduction loses nothing.** The texts of the reduced forest, read off in order with their
places, are those of the forest. -/
theorem inOrderAll_reduce (ts us : List Tree) (h : reduce ts = .ok us) :
    inOrderAll us = inOrderAll ts :=
  inOrderAll_of_reduces (reduces_reduce h)

/-- A leaf in the first line. -/
def leafAt (column : Nat) (x : Lexeme) : Tree := .leaf ⟨x, column, 0, ⟨column, 1, column + 1⟩⟩

/-- The forest of `return -a.b[d](c + 1) ** x++ = 2`. -/
def assorted : List Tree :=
  [ leafAt 0 (.keyword .returnWord), leafAt 7 (.operator .minus .leading),
    leafAt 8 (.name "a"), leafAt 9 (.operator .dot .dual), leafAt 10 (.name "b"),
    .group .bracket [leafAt 12 (.name "d")] ⟨11, 1, 12⟩,
    .group .parenthesis
      [leafAt 15 (.name "c"), leafAt 17 (.operator .plus .dual), leafAt 19 (.number "1")]
      ⟨14, 1, 15⟩,
    leafAt 22 (.operator .power .dual), leafAt 25 (.name "x"),
    leafAt 26 (.operator .increment .trailing), leafAt 29 (.operator .assign .dual),
    leafAt 31 (.number "2") ]

theorem inOrderAll_reduce_assorted :
    ∃ t, reduce assorted = .ok [t] ∧ inOrderAll [t] = inOrderAll assorted := by
  refine ⟨_, rfl, ?_⟩
  exact inOrderAll_reduce assorted _ rfl

end Scriptlet
