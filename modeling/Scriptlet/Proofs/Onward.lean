import Scriptlet.Proofs.Growth

/-!
# Passes over a forest that goes on

Each pass keeps two forests side by side, one of which goes on where the other ends. If it makes
something of the long one, it makes the beginning of that of the short one, or fails at the end of
the short one, or the long one has two operands in a row from there on (`KeepsUp`).

The passes come in two kinds. A pass from the left has the same done behind it in both forests, so
the forests are told apart only at the last tree of the short one; what has been done stays, except
that its newest tree may grow. A pass from the right has reduced what is behind in both forests
first, so its step is asked about forests that already differ.

## Contents

- §1 keeping up
- §2 operators between two trees, from the left
- §3 trees joined to the one before
- §4 steps from the right
- §5 operators between operands, from the right
- §6 all passes
-/

namespace Scriptlet

open Scriptlet.Tree

/-! ## §1 Keeping up -/

/-- What a pass makes of a short forest, seen from what it makes of the long one: if it makes
something of the long one, the forests part there, or it does the same to the short one, or it fails
at its end. -/
def KeepsUp (ts : List Tree) (short long : Except ConstructError (List Tree)) : Prop :=
  ∀ us, long = .ok us → Broken us ∨ (∃ vs, short = .ok vs ∧ Ahead vs us) ∨
    ∃ e, short = .error e ∧ e.AtEnd ts

namespace KeepsUp

variable {ts : List Tree} {short long : Except ConstructError (List Tree)}

theorem cons (h : KeepsUp ts short long) (t : Tree) : KeepsUp (t :: ts) short long := by
  intro us hus
  rcases h us hus with hbroken | hahead | ⟨e, he, hend⟩
  · exact .inl hbroken
  · exact .inr (.inl hahead)
  · exact .inr (.inr ⟨e, he, hend.cons t⟩)

/-- The tree in front is kept. -/
theorem keep (h : KeepsUp ts short long) (t : Tree) :
    KeepsUp (t :: ts) (short >>= fun more => .ok (t :: more))
      (long >>= fun more => .ok (t :: more)) := by
  intro us hus
  obtain ⟨more, hmore, hus⟩ := bind_eq_ok.mp hus
  cases hus
  rcases h more hmore with hbroken | ⟨vs, rfl, hahead⟩ | ⟨e, rfl, hend⟩
  · exact .inl (.later t hbroken)
  · exact .inr (.inl ⟨t :: vs, rfl, hahead.cons t⟩)
  · exact .inr (.inr ⟨e, rfl, hend.cons t⟩)

/-- Behind trees that are done with, the last of them grows. -/
theorem ofBehind {done : List Tree} {x : Tree}
    (hshort : short = .ok (x :: done).reverse)
    (hlong : ∀ us, long = .ok us → ∃ w' rest, us = done.reverse ++ w' :: rest ∧ Grows x w') :
    KeepsUp ts short long := by
  intro us hus
  obtain ⟨w', rest, rfl, hgrows⟩ := hlong us hus
  refine .inr (.inl ⟨_, hshort, done.reverse, x, w', rest, ?_, rfl, hgrows⟩)
  rw [List.reverse_cons]

end KeepsUp

/-! ## §2 Operators between two trees, from the left -/

/-- A pass from the left that puts operators of a kind between their neighbours. -/
structure Chains (kind fits : Tree → Bool) (build : Tree → Tree → Tree → Tree)
    (pass : List Tree → Pass) : Prop where
  /-- The operators are no operands. -/
  apart : ∀ t, kind t = true → t.isOperand = false
  nil : ∀ done, pass done [] = .ok done.reverse
  keep : ∀ done t rest, kind t = false → pass done (t :: rest) = pass (t :: done) rest
  join : ∀ left done t right rest, kind t = true → left.isOperand = true → fits right = true →
    pass (left :: done) (t :: right :: rest) = pass (build left t right :: done) rest
  /-- Where the pass succeeds, the operator has both neighbours. -/
  invert : ∀ done t rest us, kind t = true → pass done (t :: rest) = .ok us →
    ∃ left done' right rest', done = left :: done' ∧ rest = right :: rest' ∧
      left.isOperand = true ∧ fits right = true
  /-- An operator behind an operand lacks something at the end. -/
  last : ∀ left done t, kind t = true → left.isOperand = true →
    ∃ e : ConstructError, pass (left :: done) [t] = .error e ∧ e.AtEnd [t]
  joins : ∀ left t right, kind t = true → left.isOperand = true → fits right = true →
    Joins [left, t, right] (build left t right)
  grows : ∀ left t x y, kind t = true → Grows x y → fits y = true →
    fits x = true ∧ Grows (build left t x) (build left t y)

namespace Chains

variable {kind fits : Tree → Bool} {build : Tree → Tree → Tree → Tree} {pass : List Tree → Pass}

/-- What is done stays, except that the last tree of it may grow. -/
theorem behind (hp : Chains kind fits build pass) : ∀ (ts done us : List Tree) (x w : Tree),
    Grows x w → pass (w :: done) ts = .ok us →
      ∃ w' rest, us = done.reverse ++ w' :: rest ∧ Grows x w'
  | [], done, us, x, w, hx, h => by
    rw [hp.nil] at h
    cases h
    exact ⟨w, [], by simp, hx⟩
  | [t], done, us, x, w, hx, h => by
    cases ht : kind t with
    -- a sign at the end of the row has nothing to be joined to, so the pass would have failed
    | true =>
      obtain ⟨left, done', right, rest, hdone, hrest, -⟩ := hp.invert _ _ _ _ ht h
      cases hrest
    | false =>
      rw [hp.keep _ _ _ ht, hp.nil] at h
      cases h
      exact ⟨w, [t], by simp, hx⟩
  | t :: r :: ts, done, us, x, w, hx, h => by
    cases ht : kind t with
    | true =>
      -- the newest tree grows by what is joined to it
      obtain ⟨left, done', right, rest, hdone, hrest, hleft, hright⟩ := hp.invert _ _ _ _ ht h
      cases hdone
      cases hrest
      rw [hp.join _ _ _ _ _ ht hleft hright] at h
      exact behind hp ts done us x _ (hx.joined hleft (hp.joins _ _ _ ht hleft hright)) h
    | false =>
      rw [hp.keep _ _ _ ht] at h
      obtain ⟨t', rest, rfl, -⟩ := behind hp (r :: ts) (w :: done) us t t (.refl t) h
      exact ⟨w, t' :: rest, by simp, hx⟩

theorem keepsUp (hp : Chains kind fits build pass) {z z' : Tree} (hz : Grows z z')
    (behind : List Tree) : ∀ (before done : List Tree),
      KeepsUp (before ++ [z]) (pass done (before ++ [z])) (pass done (before ++ z' :: behind))
  | [], done => by
    rw [List.nil_append, List.nil_append]
    cases ht : kind z with
    | true =>
      -- the operator is the last tree, so the short forest has nothing behind it
      obtain rfl := hz.eq_of_not_isOperand (hp.apart z ht)
      intro us h
      obtain ⟨left, done', right, rest, rfl, -, hleft, -⟩ := hp.invert _ _ _ _ ht h
      exact .inr (.inr (hp.last left done' z ht hleft))
    | false =>
      have ht' : kind z' = false := by
        rw [Bool.eq_false_iff]
        intro htrue
        rw [hz.eq_of_isLeaf (isLeaf_of_not_isOperand (hp.apart z' htrue)), htrue] at ht
        cases ht
      rw [hp.keep _ _ _ ht, hp.keep _ _ _ ht', hp.nil]
      exact .ofBehind rfl fun us h => hp.behind behind done us z z' hz h
  | [t], done => by
    cases ht : kind t with
    | true =>
      -- the last tree is the right neighbour, and the construct grows with it
      intro us h
      obtain ⟨left, done', right, rest, rfl, hrest, hleft, hright⟩ := hp.invert _ _ _ _ ht h
      obtain ⟨rfl, rfl⟩ := List.cons.inj hrest
      obtain ⟨hright', hgrows⟩ := hp.grows left t z z' ht hz hright
      have hshort : pass (left :: done') ([t] ++ [z]) = .ok (build left t z :: done').reverse := by
        rw [List.singleton_append, hp.join _ _ _ _ _ ht hleft hright', hp.nil]
      rw [List.singleton_append, hp.join _ _ _ _ _ ht hleft hright] at h
      exact KeepsUp.ofBehind hshort
        (fun us h => hp.behind behind done' us _ _ hgrows h) us h
    | false =>
      rw [List.cons_append, List.cons_append, hp.keep _ _ _ ht, hp.keep _ _ _ ht]
      exact (keepsUp hp hz behind [] (t :: done)).cons t
  | t :: r :: before, done => by
    cases ht : kind t with
    | true =>
      intro us h
      obtain ⟨left, done', right, rest, rfl, hrest, hleft, hright⟩ := hp.invert _ _ _ _ ht h
      obtain ⟨rfl, -⟩ := List.cons.inj hrest
      simp only [List.cons_append] at h ⊢
      rw [hp.join _ _ _ _ _ ht hleft hright] at h ⊢
      -- two trees are used up at once, which is why the recursion is over pairs
      exact ((keepsUp hp hz behind before _).cons r).cons t us h
    | false =>
      simp only [List.cons_append]
      rw [hp.keep _ _ _ ht, hp.keep _ _ _ ht]
      exact (keepsUp hp hz behind (r :: before) (t :: done)).cons t

end Chains

theorem chains_memberPass :
    Chains (Tree.isOperator .dot) Tree.isName (fun left t right => .binary .member left right t.loc)
      memberPass where
  apart t ht := by
    unfold Tree.isOperator at ht
    split at ht
    · rfl
    · cases ht
  nil done := rfl
  keep done t rest ht := by
    rw [memberPass]
    split
    · next f hdot =>
      rw [(isOperator_dot_eq t).mpr ⟨f, hdot⟩] at ht
      cases ht
    · rfl
  join left done t right rest ht hleft hright := by
    obtain ⟨f, hdot⟩ := (isOperator_dot_eq t).mp ht
    rw [memberPass, hdot]
    simp only [hleft, hright, if_true]
  invert done t rest us ht h := by
    obtain ⟨f, hdot⟩ := (isOperator_dot_eq t).mp ht
    -- a pass that succeeds has found its operands, so its tests are read backwards
    rw [memberPass, hdot] at h
    simp only at h
    split at h
    · cases h
    · next left done' =>
      split at h
      · next hleft =>
        split at h
        · cases h
        · next right rest' =>
          split at h
          · next hright => exact ⟨left, done', right, rest', rfl, rfl, hleft, hright⟩
          · cases h
      · cases h
  last left done t ht hleft := by
    obtain ⟨f, hdot⟩ := (isOperator_dot_eq t).mp ht
    refine ⟨⟨.member, Operator.dot.spelling, .missingProperty, t.loc⟩, ?_, ?_⟩
    · rw [memberPass, hdot]
      simp only [hleft, if_true]
    · cases t with
      | leaf u => exact .last [] u rfl (by simp)
      | _ => cases hdot
  joins left t right ht hleft hright := by
    obtain ⟨f, hdot⟩ := (isOperator_dot_eq t).mp ht
    exact .member hdot hleft hright
  grows left t x y _ hxy hy := by
    have hleaf : y.isLeaf = true := by
      cases y <;> first | rfl | cases hy
    obtain rfl := hxy.eq_of_isLeaf hleaf
    exact ⟨hy, .refl _⟩

theorem chains_chainLeft (tier : Tier) :
    Chains (Tree.isOfTier tier) Tree.isOperand
      (fun left t right =>
        match t.tierOperator? tier with
        | some (op, loc) => .binary (.between tier op) left right loc
        | none => t)
      (chainLeft tier) where
  apart t ht := by
    obtain ⟨_, hop⟩ := Option.isSome_iff_exists.mp ht
    exact not_isOperand_of_operator? (operator?_of_tierOperator? hop)
  nil done := rfl
  keep done t rest ht := by
    have hnone : t.tierOperator? tier = none := by
      simpa [Tree.isOfTier] using ht
    rw [chainLeft, hnone]
  join left done t right rest ht hleft hright := by
    obtain ⟨⟨op, loc⟩, hop⟩ := Option.isSome_iff_exists.mp ht
    rw [chainLeft, hop]
    simp only [hleft, hright, if_true]
  -- as for the point, with the operands of the tier in place of names
  invert done t rest us ht h := by
    obtain ⟨⟨op, loc⟩, hop⟩ := Option.isSome_iff_exists.mp ht
    rw [chainLeft, hop] at h
    simp only at h
    split at h
    · cases h
    · next left done' =>
      split at h
      · next hleft =>
        split at h
        · cases h
        · next right rest' =>
          split at h
          · next hright => exact ⟨left, done', right, rest', rfl, rfl, hleft, hright⟩
          · cases h
      · cases h
  last left done t ht hleft := by
    obtain ⟨⟨op, loc⟩, hop⟩ := Option.isSome_iff_exists.mp ht
    refine ⟨⟨.between tier, op.spelling, .missingRight, loc⟩, ?_, ?_⟩
    · rw [chainLeft, hop]
      simp only [hleft, if_true]
    · obtain ⟨u, rfl, rfl⟩ := leaf_of_operator? (operator?_of_tierOperator? hop)
      exact .last [] u rfl (by simp)
  joins left t right ht hleft hright := by
    obtain ⟨⟨op, loc⟩, hop⟩ := Option.isSome_iff_exists.mp ht
    rw [hop]
    exact .between hop hleft hright
  grows left t x y ht hxy hy := by
    obtain ⟨⟨op, loc⟩, hop⟩ := Option.isSome_iff_exists.mp ht
    rw [hop]
    exact ⟨hxy.isOperand_eq.symm.trans hy, .between tier op left loc hxy⟩

/-! ## §3 Trees joined to the one before -/

/-- Operators behind operands: what is done stays, except that the last tree of it may grow. -/
theorem trailingPass_behind {ts done us : List Tree} {x w : Tree} (hx : Grows x w)
    (h : trailingPass (w :: done) ts = .ok us) :
    ∃ w' rest, us = done.reverse ++ w' :: rest ∧ Grows x w' := by
  induction ts generalizing done x w with
  | nil =>
    cases h
    exact ⟨w, [], by simp, hx⟩
  | cons t ts ih =>
    rw [trailingPass] at h
    split at h
    · obtain ⟨t', rest, rfl, -⟩ := ih (.refl t) h
      exact ⟨w, t' :: rest, by simp, hx⟩
    · next op loc hop =>
      -- the newest tree is the operand of the sign, or it stays below what comes
      simp only at h
      split at h
      · next hw => exact ih (hx.joined hw (.trailing hop hw)) h
      · cases h

theorem keepsUp_trailingPass {z z' : Tree} (hz : Grows z z') (behind before done : List Tree) :
    KeepsUp (before ++ [z]) (trailingPass done (before ++ [z]))
      (trailingPass done (before ++ z' :: behind)) := by
  induction before generalizing done with
  | nil =>
    intro us h
    simp only [List.nil_append] at h ⊢
    cases hop : z.operator? .trailing with
    | none =>
      have hop' : z'.operator? .trailing = none := by
        rcases hz.eq_or_construct with rfl | ⟨hleaf, -⟩
        · exact hop
        · cases z' <;> first | rfl | cases hleaf
      rw [trailingPass, hop'] at h
      refine KeepsUp.ofBehind ?_ (fun us h => trailingPass_behind hz h) us h
      rw [trailingPass, hop]
      rfl
    -- a sign does not grow, and before it stands what it is applied to on both sides
    | some found =>
      obtain ⟨op, loc⟩ := found
      obtain rfl := hz.eq_of_not_isOperand (not_isOperand_of_operator? hop)
      rw [trailingPass, hop] at h
      simp only at h
      split at h
      · next left done' =>
        split at h
        · next hleft =>
          refine KeepsUp.ofBehind ?_ (fun us h => trailingPass_behind (.refl _) h) us h
          rw [trailingPass, hop]
          simp only [hleft, if_true]
          rfl
        · cases h
      · cases h
  | cons t before ih =>
    simp only [List.cons_append, trailingPass]
    split
    · exact (ih _).cons t
    · split
      · split
        · exact (ih _).cons t
        · intro us h
          cases h
      · intro us h
        cases h

/-- What is joined to the tree before it is a group, and that tree is an operand. -/
structure JoinsGroups (join : Tree → Tree → Option Tree) : Prop where
  joins : ∀ left t joined, join left t = some joined → Joins [left, t] joined
  left : ∀ left t joined, join left t = some joined → left.isOperand = true
  group : ∀ left t joined, join left t = some joined → ∃ f, t.isGroup f = true

theorem joinsGroups_joinAccessor {family : Family} {form : BinaryForm}
    (hform : ∀ left t : Tree, t.isGroup family = true → left.isAccessor = true →
      Joins [left, t] (.binary form left t left.loc)) :
    JoinsGroups (joinAccessor family form) := by
  -- joining has looked at the group and at what stands before it
  have hboth : ∀ left t joined, joinAccessor family form left t = some joined →
      t.isGroup family = true ∧ left.isAccessor = true := by
    intro left t joined h
    unfold joinAccessor at h
    split at h
    · next hboth => exact Bool.and_eq_true_iff.mp hboth
    · cases h
  exact ⟨joins_of_joinAccessor hform,
    fun left t joined h => isOperand_of_isAccessor (hboth left t joined h).2,
    fun left t joined h => ⟨family, (hboth left t joined h).1⟩⟩

theorem joinsGroups_joinFunction : JoinsGroups joinFunction := by
  have hboth : ∀ left t joined, joinFunction left t = some joined →
      t.isGroup .brace = true ∧ left.isGroup .parenthesis = true := by
    intro left t joined h
    unfold joinFunction at h
    split at h
    · next hboth => exact Bool.and_eq_true_iff.mp hboth
    · cases h
  exact ⟨joins_of_joinFunction,
    fun left t joined h => isOperand_of_isGroup (hboth left t joined h).2,
    fun left t joined h => ⟨.brace, (hboth left t joined h).1⟩⟩

section

variable {join : Tree → Tree → Option Tree} (hjoin : JoinsGroups join)

include hjoin

theorem joinPass_behind (ts done : List Tree) {x w : Tree} (hx : Grows x w) :
    ∃ w' rest, joinPass join (w :: done) ts = done.reverse ++ w' :: rest ∧ Grows x w' := by
  induction ts generalizing done x w with
  | nil => exact ⟨w, [], by simp [joinPass], hx⟩
  | cons t ts ih =>
    rw [joinPass]
    split
    · next joined hsome =>
      exact ih done (hx.joined (hjoin.left w t joined hsome) (hjoin.joins w t joined hsome))
    · obtain ⟨t', rest, hall, -⟩ := ih (w :: done) (.refl t)
      exact ⟨w, t' :: rest, by simpa using hall, hx⟩

theorem keepsUp_joinPass {z z' : Tree} (hz : Grows z z') (behind before done : List Tree) :
    KeepsUp (before ++ [z]) (.ok (joinPass join done (before ++ [z])))
      (.ok (joinPass join done (before ++ z' :: behind))) := by
  induction before generalizing done with
  | nil =>
    intro us h
    cases h
    simp only [List.nil_append]
    cases done with
    | nil =>
      obtain ⟨w, rest, hall, hw⟩ := joinPass_behind hjoin behind [] hz
      exact .inr (.inl ⟨_, rfl, [], z, w, rest, rfl, hall, hw⟩)
    | cons left done =>
      simp only [joinPass]
      split
      · next joined hsome =>
        obtain ⟨f, hgroup⟩ := hjoin.group left z' joined hsome
        obtain rfl := hz.eq_of_isGroup hgroup
        rw [hsome]
        obtain ⟨w, rest, hall, hw⟩ := joinPass_behind hjoin behind done (.refl joined)
        exact .inr (.inl ⟨_, rfl, done.reverse, joined, w, rest, by simp, hall, hw⟩)
      · next hnone =>
        split
        · next joined hsome =>
          -- the group at the end has become part of something that is not joined
          obtain ⟨f, hgroup⟩ := hjoin.group left z joined hsome
          obtain ⟨w, rest, hall, hw⟩ := joinPass_behind hjoin behind (left :: done) (.refl z')
          have hapart : StandsApart z' := by
            rcases hz.eq_or_construct with rfl | ⟨-, hno, hoperand⟩
            · rw [hsome] at hnone
              cases hnone
            · exact ⟨hoperand, hno⟩
          refine .inl ?_
          rw [hall, List.reverse_cons, List.append_assoc]
          exact Broken.before (.here left w rest (hjoin.left left z joined hsome)
            (hapart.grows hw)) _
        · obtain ⟨w, rest, hall, hw⟩ := joinPass_behind hjoin behind (left :: done) hz
          exact .inr (.inl ⟨_, rfl, (left :: done).reverse, z, w, rest, by simp, hall, hw⟩)
  | cons t before ih =>
    cases done with
    | nil => exact (ih [t]).cons t
    | cons left done =>
      simp only [List.cons_append, joinPass]
      split <;> exact (ih _).cons t

end

/-! ## §4 Steps from the right -/

/-- A pass from the right does a step at each tree, on what it has made of the trees behind. -/
structure Steps (step : Tree → Pass) (pass : Pass) : Prop where
  nil : pass [] = .ok []
  cons : ∀ t rest, pass (t :: rest) = (pass rest >>= step t)
  reduces : ∀ t more us, step t more = .ok us → Reduces (t :: more) us
  /-- The step at the last tree. -/
  last : ∀ z z' more us, Grows z z' → step z' more = .ok us →
    (∃ vs, step z [] = .ok vs ∧ Ahead vs us) ∨ ∃ e, step z [] = .error e ∧ e.AtEnd [z]
  /-- The step at a tree in front of others. -/
  front : ∀ t short long us, Ahead short long → step t long = .ok us →
    (∃ vs, step t short = .ok vs ∧ Ahead vs us) ∨
      ∃ e, step t short = .error e ∧ e.AtEnd (t :: short)

namespace Steps

variable {step : Tree → Pass} {pass : Pass}

theorem reduces_pass (hp : Steps step pass) {ts us : List Tree} (h : pass ts = .ok us) :
    Reduces ts us := by
  induction ts generalizing us with
  | nil =>
    rw [hp.nil] at h
    cases h
    exact .refl _
  | cons t rest ih =>
    rw [hp.cons] at h
    obtain ⟨more, hmore, h⟩ := bind_eq_ok.mp h
    exact ((ih hmore).cons t).trans (hp.reduces t more us h)

theorem keepsUp (hp : Steps step pass) {z z' : Tree} (hz : Grows z z') (behind before : List Tree) :
    KeepsUp (before ++ [z]) (pass (before ++ [z])) (pass (before ++ z' :: behind)) := by
  induction before with
  | nil =>
    intro us h
    simp only [List.nil_append, hp.cons, hp.nil] at h ⊢
    obtain ⟨more, -, h⟩ := bind_eq_ok.mp h
    exact .inr (hp.last z z' more us hz h)
  | cons t before ih =>
    intro us h
    simp only [List.cons_append, hp.cons] at h ⊢
    obtain ⟨more, hmore, h⟩ := bind_eq_ok.mp h
    -- the trees behind have kept up, and the step is taken on what became of them
    rcases ih more hmore with hbroken | ⟨vs, hvs, hahead⟩ | ⟨e, he, hend⟩
    · exact .inl ((Broken.later t hbroken).of_reduces (hp.reduces t more us h))
    · rw [hvs]
      refine .inr ((hp.front t vs more us hahead h).imp_right ?_)
      rintro ⟨e, he, hend⟩
      exact ⟨e, he, hend.of_reduces ((hp.reduces_pass hvs).cons t)⟩
    · rw [he]
      exact .inr (.inr ⟨e, rfl, hend.cons t⟩)

end Steps

/-- Where an operand is taken from a long forest, the same one is taken from the short one, or it is
the last tree there, or the short one has nothing but signs. -/
theorem takeOperand_ahead {short long : List Tree} (h : Ahead short long) {x' : Tree}
    {rest' : List Tree} (htake : takeOperand long = some (x', rest')) :
    (∃ rest, takeOperand short = some (x', rest) ∧ Ahead rest rest') ∨
      (∃ x, takeOperand short = some (x, []) ∧ Grows x x') ∨
      takeOperand short = none ∧ ∀ u ∈ short, u.isSign = true := by
  induction short generalizing long x' with
  | nil =>
    obtain ⟨before, _, _, _, hnil, -⟩ := h
    simp at hnil
  | cons t short ih =>
    rcases h.cases_head with ⟨x, y, behind, hone, rfl, hgrows⟩ | ⟨u, short', long', heq, rfl, hrest⟩
    · obtain ⟨rfl, rfl⟩ := List.cons.inj hone
      rw [takeOperand] at htake
      split at htake
      · next op loc hop =>
        -- the short forest ends with the sign
        obtain rfl := hgrows.eq_of_isLeaf (isLeaf_of_operator? hop)
        refine .inr (.inr ⟨by rw [takeOperand, hop]; rfl, ?_⟩)
        simp [Tree.isSign, hop]
      · next hop =>
        split at htake
        · next hy =>
          cases htake
          have hx : t.isOperand = true := hgrows.isOperand_eq.symm.trans hy
          refine .inr (.inl ⟨t, ?_, hgrows⟩)
          rw [takeOperand, operator?_of_isOperand hx]
          simp only [hx, if_true]
        · cases htake
    · obtain ⟨rfl, rfl⟩ := List.cons.inj heq
      rw [takeOperand] at htake ⊢
      split at htake
      · next op loc hop =>
        obtain ⟨⟨inner, more⟩, hinner, heq⟩ := Option.map_eq_some_iff.mp htake
        cases heq
        rcases ih hrest hinner with ⟨rest, htake', hahead⟩ | ⟨x, htake', hx⟩ | ⟨htake', hsigns⟩
        · exact .inl ⟨rest, by simp [htake'], hahead⟩
        · exact .inr (.inl ⟨_, by simp [htake'], .leading op loc hx⟩)
        · refine .inr (.inr ⟨by simp [htake'], ?_⟩)
          intro u hu
          rcases List.mem_cons.mp hu with rfl | hu
          · simp [Tree.isSign, hop]
          · exact hsigns u hu
      · next hop =>
        split at htake
        · next ht =>
          cases htake
          exact .inl ⟨short, by simp [ht], hrest⟩
        · cases htake

/-- What a reserved word does to the reduced trees behind it; other trees stay. -/
def applyKeyword (t : Tree) (more : List Tree) : Except ConstructError (List Tree) :=
  match t with
  | .leaf ⟨.keyword k, _, _, loc⟩ =>
    match takeOperand more with
    | some (operand, more') => return .unary (.keyword k) operand loc :: more'
    | none => .error ⟨.keyword, k.spelling, .missingAfterKeyword, loc⟩
  | _ => return t :: more

/-- What an operator before an operand does to the reduced trees behind it; other trees stay. -/
def applyLeading (t : Tree) (more : List Tree) : Except ConstructError (List Tree) :=
  match t.operator? .leading with
  | none => return t :: more
  | some (op, loc) =>
    match more with
    | right :: more' =>
      if right.isOperand then return .unary (.leading op) right loc :: more'
      else .error ⟨.leading, op.spelling, .missingAfterLeading, loc⟩
    | [] => .error ⟨.leading, op.spelling, .missingAfterLeading, loc⟩

theorem steps_keywordPass : Steps applyKeyword keywordPass where
  nil := rfl
  cons t rest := rfl
  reduces t more us h := by
    unfold applyKeyword at h
    split at h
    · next k i level loc =>
      split at h
      · next x more' htake =>
        cases h
        obtain ⟨hreduces, hoperand⟩ := reduces_takeOperand htake
        exact (hreduces.cons _).trans (.joins (.keyword k i level loc hoperand) (.refl _))
      · cases h
    · cases h
      exact .refl _
  last z z' more us hz h := by
    unfold applyKeyword at h
    split at h
    · next k i level loc =>
      -- the word is the last tree, so its operand is missing there
      obtain rfl := hz.eq_of_isLeaf rfl
      exact .inr ⟨_, rfl, .keyword [] _ [] rfl rfl ⟨k, rfl⟩ (by simp)⟩
    · next hno =>
      cases h
      refine .inl ⟨[z], ?_, .one hz more⟩
      unfold applyKeyword
      split
      · next k i level loc =>
        obtain rfl := hz.eq_of_not_isOperand rfl
        exact absurd rfl (hno k i level loc)
      · rfl
  front t short long us hahead h := by
    unfold applyKeyword at h ⊢
    split at h
    · next k i level loc =>
      split at h
      · next x' rest' htake =>
        cases h
        -- the operand is before the last tree, is the last tree, or is missing behind signs
        rcases takeOperand_ahead hahead htake with
          ⟨rest, htake', hrest⟩ | ⟨x, htake', hx⟩ | ⟨htake', hsigns⟩
        · exact .inl ⟨_, by simp only [htake']; rfl, hrest.cons _⟩
        · exact .inl ⟨_, by simp only [htake']; rfl, .one (.keyword k loc hx) rest'⟩
        · exact .inr ⟨⟨.keyword, k.spelling, .missingAfterKeyword, loc⟩, by simp only [htake'],
            .keyword [] _ short rfl rfl ⟨k, rfl⟩ hsigns⟩
      · cases h
    · cases h
      exact .inl ⟨_, rfl, hahead.cons t⟩

theorem steps_leadingPass : Steps applyLeading leadingPass where
  nil := rfl
  cons t rest := rfl
  reduces t more us h := by
    unfold applyLeading at h
    split at h
    · cases h
      exact .refl _
    · next op loc hop =>
      split at h
      · next right more' =>
        split at h
        · next hright =>
          cases h
          exact .joins (.leading hop hright) (.refl _)
        · cases h
      · cases h
  last z z' more us hz h := by
    unfold applyLeading
    cases hop : z.operator? .leading with
    | some found =>
      -- the sign is the last tree, so its operand is missing there
      obtain ⟨op, loc⟩ := found
      obtain ⟨u, rfl, rfl⟩ := leaf_of_operator? hop
      exact .inr ⟨_, rfl, .last [] u rfl (by simp)⟩
    | none =>
      refine .inl ⟨[z], rfl, ?_⟩
      unfold applyLeading at h
      split at h
      · cases h
        exact .one hz more
      · next hop' =>
        rw [hz.eq_of_isLeaf (isLeaf_of_operator? hop'), hop'] at hop
        cases hop
  front t short long us hahead h := by
    unfold applyLeading at h ⊢
    split at h
    · cases h
      exact .inl ⟨_, rfl, hahead.cons t⟩
    · next op loc hop =>
      split at h
      · next right more' =>
        split at h
        · next hright =>
          cases h
          -- the operand is the last tree, which may have grown, or one in front of it
          rcases hahead.cases_head with
            ⟨x, y, behind, rfl, hlong, hx⟩ | ⟨u, short', _, rfl, hlong, hrest⟩
          · obtain ⟨rfl, rfl⟩ := List.cons.inj hlong
            have hx' : x.isOperand = true := hx.isOperand_eq.symm.trans hright
            exact .inl ⟨_, by simp only [hx', if_true]; rfl, .one (.leading op loc hx) _⟩
          · obtain ⟨rfl, rfl⟩ := List.cons.inj hlong
            exact .inl ⟨_, by simp only [hright, if_true]; rfl, hrest.cons _⟩
        · cases h
      · cases h

/-! ## §5 Operators between operands, from the right -/

section

variable {tier : Tier} {t o : Tree} {rest us : List Tree}

/-- An operator with nothing in front of it is never accepted. -/
theorem chainRight_head (h : chainRight tier (t :: rest) = .ok us) :
    t.tierOperator? tier = none := by
  rw [chainRight.eq_def] at h
  simp only at h
  split at h
  · obtain ⟨_, _, h⟩ := bind_eq_ok.mp h
    obtain ⟨_, _, h⟩ := bind_eq_ok.mp h
    cases h
  · next hnone => exact hnone

/-- Two trees that are no operand and operator of the tier: the first is kept. -/
theorem chainRight_keep (ht : t.tierOperator? tier = none)
    (ho : (if t.isOperand then o.tierOperator? tier else none) = none) :
    chainRight tier (t :: o :: rest) =
      chainRight tier (o :: rest) >>= fun more => .ok (t :: more) := by
  rw [chainRight, ht]
  simp only [ho]
  rfl

/-- An operand and an operator of the tier. -/
theorem chainRight_join {op : Operator} {loc : Location} (ht : t.isOperand = true)
    (ho : o.tierOperator? tier = some (op, loc)) :
    chainRight tier (t :: o :: rest) = chainRight tier rest >>= fun more =>
      takeRight tier op loc more >>= fun (right, more') =>
        .ok (.binary (.between tier op) t right loc :: more') := by
  rw [chainRight, tierOperator?_of_isOperand ht]
  simp only [ht, ho, if_true]
  rfl

/-- What is no operator of the tier is none before it grows. -/
theorem tierOperator?_of_grows {z z' : Tree} (hz : Grows z z')
    (h : z'.tierOperator? tier = none) : z.tierOperator? tier = none := by
  cases hop : z.tierOperator? tier with
  | none => rfl
  | some found =>
    have hsame := hz.eq_of_not_isOperand
      (not_isOperand_of_operator? (operator?_of_tierOperator? hop))
    rw [← hsame, hop] at h
    cases h

end

/-- A row of one tree keeps up: the tree is kept, or it becomes the left operand. -/
theorem keepsUp_chainRight_one (tier : Tier) {z z' : Tree} (hz : Grows z z') (behind : List Tree) :
    KeepsUp [z] (chainRight tier [z]) (chainRight tier (z' :: behind)) := by
  intro us h
  have hnone : z.tierOperator? tier = none := tierOperator?_of_grows hz (chainRight_head h)
  have hshort : chainRight tier [z] = .ok [z] := by simp only [chainRight, hnone]
  refine .inr (.inl ⟨[z], hshort, ?_⟩)
  cases behind with
  | nil =>
    simp only [chainRight, chainRight_head h] at h
    cases h
    exact .one hz []
  | cons o rest =>
    cases ho : if z'.isOperand then o.tierOperator? tier else none with
    | none =>
      rw [chainRight_keep (chainRight_head h) ho] at h
      obtain ⟨more, -, h⟩ := bind_eq_ok.mp h
      cases h
      exact .one hz more
    | some found =>
      obtain ⟨op, loc⟩ := found
      obtain ⟨hleft, ho⟩ : z'.isOperand = true ∧ o.tierOperator? tier = some (op, loc) := by
        simpa using ho
      rw [chainRight_join hleft ho] at h
      obtain ⟨more, -, h⟩ := bind_eq_ok.mp h
      obtain ⟨⟨right, more'⟩, htake, h⟩ := bind_eq_ok.mp h
      cases h
      exact .one (hz.joined hleft (.between ho hleft (takeRight_eq htake).2)) more'

/-- Behind an operand and an operator, a row keeps up if the trees behind them do. -/
theorem KeepsUp.chainRight_join {tier : Tier} {t o : Tree} {op : Operator} {loc : Location}
    {short long : List Tree} (ht : t.isOperand = true) (ho : o.tierOperator? tier = some (op, loc))
    (hk : KeepsUp short (chainRight tier short) (chainRight tier long)) :
    KeepsUp (t :: o :: short) (chainRight tier (t :: o :: short))
      (chainRight tier (t :: o :: long)) := by
  intro us h
  rw [Scriptlet.chainRight_join ht ho] at h ⊢
  obtain ⟨more, hmore, h⟩ := bind_eq_ok.mp h
  obtain ⟨⟨right, more'⟩, htake, h⟩ := bind_eq_ok.mp h
  cases h
  obtain ⟨rfl, hright⟩ := takeRight_eq htake
  -- the right operand is the first tree of the reduced rest, which may be the one that grows
  rcases hk _ hmore with hbroken | ⟨vs, hvs, hahead⟩ | ⟨e, he, hend⟩
  · have hjoined : Recognises (t :: o :: right :: more') _ :=
      .here (.between ho ht hright) more'
    exact .inl (((hbroken.later o).later t).of_recognises hjoined)
  · have hshort : ∀ x rest, vs = x :: rest → x.isOperand = true →
        (chainRight tier short >>= fun more =>
          takeRight tier op loc more >>= fun (right, more') =>
            .ok (.binary (.between tier op) t right loc :: more')) =
          .ok (.binary (.between tier op) t x loc :: rest) := by
      rintro x rest rfl hx
      exact bind_eq_ok.mpr ⟨_, hvs, bind_eq_ok.mpr ⟨(x, rest), if_pos hx, rfl⟩⟩
    rcases hahead.cases_head with
      ⟨x, y, behind, hvs', heq, hx⟩ | ⟨u, short', long', hvs', heq, hrest⟩
    · obtain ⟨rfl, rfl⟩ := List.cons.inj heq
      exact .inr (.inl ⟨_, hshort x [] hvs' (hx.isOperand_eq.symm.trans hright),
        .one (.between tier op t loc hx) _⟩)
    · obtain ⟨rfl, rfl⟩ := List.cons.inj heq
      exact .inr (.inl ⟨_, hshort _ short' hvs' hright, hrest.cons _⟩)
  · rw [he]
    exact .inr (.inr ⟨e, rfl, (hend.cons o).cons t⟩)

/-- Operators of a tier that group to the right. -/
theorem keepsUp_chainRight (tier : Tier) {z z' : Tree} (hz : Grows z z') (behind : List Tree) :
    ∀ before : List Tree, KeepsUp (before ++ [z]) (chainRight tier (before ++ [z]))
      (chainRight tier (before ++ z' :: behind))
  | [] => keepsUp_chainRight_one tier hz behind
  | [t] => by
    intro us h
    have ht := chainRight_head h
    simp only [List.cons_append, List.nil_append] at h ⊢
    cases hop : if t.isOperand then z'.tierOperator? tier else none with
    | none =>
      have hop' : (if t.isOperand then z.tierOperator? tier else none) = none := by
        split at hop
        · next hleft => exact (if_pos hleft).trans (tierOperator?_of_grows hz hop)
        · next hleft => exact if_neg hleft
      rw [chainRight_keep ht hop] at h
      rw [chainRight_keep ht hop']
      exact (keepsUp_chainRight tier hz behind []).keep t us h
    | some found =>
      obtain ⟨op, loc⟩ := found
      obtain ⟨hleft, hop⟩ : t.isOperand = true ∧ z'.tierOperator? tier = some (op, loc) := by
        simpa using hop
      -- the operator is the last tree
      have hfound := operator?_of_tierOperator? hop
      obtain rfl := hz.eq_of_isLeaf (isLeaf_of_operator? hfound)
      obtain ⟨u, rfl, rfl⟩ := leaf_of_operator? hfound
      exact .inr (.inr ⟨_, chainRight_join hleft hop, .last [t] u rfl (by simp)⟩)
  | t :: o :: before => by
    intro us h
    have ht := chainRight_head h
    simp only [List.cons_append] at h ⊢
    cases hop : if t.isOperand then o.tierOperator? tier else none with
    | none =>
      rw [chainRight_keep ht hop] at h ⊢
      exact (keepsUp_chainRight tier hz behind (o :: before)).keep t us h
    | some found =>
      obtain ⟨op, loc⟩ := found
      obtain ⟨hleft, hop⟩ : t.isOperand = true ∧ o.tierOperator? tier = some (op, loc) := by
        simpa using hop
      -- two trees are used up at once, which is why the recursion is over pairs
      exact (keepsUp_chainRight tier hz behind before).chainRight_join hleft hop us h

/-! ## §6 All passes -/

theorem keepsUp_tierPass (tier : Tier) {z z' : Tree} (hz : Grows z z')
    (before behind : List Tree) :
    KeepsUp (before ++ [z]) (tierPass tier (before ++ [z]))
      (tierPass tier (before ++ z' :: behind)) := by
  unfold tierPass
  split
  · exact keepsUp_chainRight tier hz behind before
  · exact (chains_chainLeft tier).keepsUp hz behind before []

theorem keepsUp_of_mem_passes {pass : Pass} (hpass : pass ∈ passes) {short long : List Tree}
    (h : Ahead short long) : KeepsUp short (pass short) (pass long) := by
  obtain ⟨before, z, z', behind, rfl, rfl, hz⟩ := h
  simp only [passes, List.mem_append, List.mem_cons, List.not_mem_nil, or_false, List.mem_map]
    at hpass
  rcases hpass with (rfl | rfl | rfl | rfl | rfl | rfl | rfl) | ⟨tier, -, rfl⟩
  · exact chains_memberPass.keepsUp hz behind before []
  · exact keepsUp_joinPass (joinsGroups_joinAccessor fun _ _ => .index) hz behind before []
  · exact keepsUp_joinPass (joinsGroups_joinAccessor fun _ _ => .call) hz behind before []
  · exact steps_keywordPass.keepsUp hz behind before
  · exact keepsUp_joinPass joinsGroups_joinFunction hz behind before []
  · exact keepsUp_trailingPass hz behind before []
  · exact steps_leadingPass.keepsUp hz behind before
  · exact keepsUp_tierPass tier hz before behind

theorem keepsUp_runPasses {short long : List Tree} (h : Ahead short long) :
    KeepsUp short (runPasses short) (runPasses long) := by
  have hall : ∀ ps : List Pass, (∀ pass ∈ ps, pass ∈ passes) → ∀ short long, Ahead short long →
      KeepsUp short (ps.foldlM (fun acc pass => pass acc) short)
        (ps.foldlM (fun acc pass => pass acc) long) := by
    intro ps hps
    induction ps with
    | nil =>
      intro short long h us hus
      cases hus
      exact .inr (.inl ⟨short, rfl, h⟩)
    | cons pass ps ih =>
      intro short long h us hus
      have hpass := hps pass (by simp)
      have hrest : ∀ p ∈ ps, p ∈ passes := fun p hp => hps p (List.mem_cons_of_mem _ hp)
      obtain ⟨mid, hmid, hus⟩ := bind_eq_ok.mp hus
      -- the pass has kept up, and then the next is run on its result, or it lacked something
      rcases keepsUp_of_mem_passes hpass h mid hmid with
        hbroken | ⟨vs, hvs, hahead⟩ | ⟨e, he, hend⟩
      · exact .inl (hbroken.of_reduces (reduces_of_all_passes hrest hus))
      · rw [List.foldlM_cons, hvs]
        rcases ih hrest vs mid hahead us hus with hbroken | hgoes | ⟨e, he, hend⟩
        · exact .inl hbroken
        · exact .inr (.inl hgoes)
        · exact .inr (.inr ⟨e, he, hend.of_reduces (reduces_of_mem_passes hpass hvs)⟩)
      · rw [List.foldlM_cons, he]
        exact .inr (.inr ⟨e, rfl, hend⟩)
  exact hall passes (fun _ h => h) short long h

/-- The groups of a forest in two parts are reduced in each part. -/
theorem append_of_reduceGroups {ts us forest : List Tree}
    (h : reduceGroups (ts ++ us) = .ok forest) :
    ∃ vs ws, reduceGroups ts = .ok vs ∧ reduceGroups us = .ok ws ∧ forest = vs ++ ws := by
  induction ts generalizing forest with
  | nil => exact ⟨[], forest, by rw [reduceGroups], h, rfl⟩
  | cons t ts ih =>
    rw [List.cons_append, reduceGroups] at h
    obtain ⟨u, hu, h⟩ := bind_eq_ok.mp h
    obtain ⟨more, hmore, h⟩ := bind_eq_ok.mp h
    cases h
    obtain ⟨vs, ws, hvs, hws, rfl⟩ := ih hmore
    refine ⟨u :: vs, ws, ?_, hws, rfl⟩
    rw [reduceGroups]
    exact bind_eq_ok.mpr ⟨u, hu, bind_eq_ok.mpr ⟨vs, hvs, rfl⟩⟩

theorem reduceGroups_length {ts us : List Tree} (h : reduceGroups ts = .ok us) :
    us.length = ts.length := by
  induction ts generalizing us with
  | nil =>
    rw [reduceGroups] at h
    cases h
    rfl
  | cons t ts ih =>
    rw [reduceGroups] at h
    obtain ⟨u, -, h⟩ := bind_eq_ok.mp h
    obtain ⟨more, hmore, h⟩ := bind_eq_ok.mp h
    cases h
    simp [ih hmore]

/-- **A forest that goes on.** Where a forest is reduced, then each beginning of it but the empty
one is reduced to a beginning of the result, its last tree apart; or it lacks something at its end;
or the result has two operands in a row. -/
theorem keepsUp_reduce (ts more : List Tree) (hts : ts ≠ []) :
    KeepsUp ts (reduce ts) (reduce (ts ++ more)) := by
  -- the groups are reduced one by one, and the last of the beginning may be any tree
  intro us h
  obtain ⟨inner, hinner, h⟩ := bind_eq_ok.mp h
  obtain ⟨vs, ws, hvs, -, rfl⟩ := append_of_reduceGroups hinner
  have hne : vs ≠ [] := by
    rintro rfl
    exact hts (List.length_eq_zero_iff.mp (reduceGroups_length hvs).symm)
  have hahead : Ahead vs (vs ++ ws) :=
    ⟨vs.dropLast, vs.getLast hne, vs.getLast hne, ws,
      (List.dropLast_append_getLast hne).symm, by
      rw [List.append_cons, List.dropLast_append_getLast], .refl _⟩
  rw [reduce, hvs]
  rcases keepsUp_runPasses hahead us h with hbroken | hgoes | ⟨e, he, hend⟩
  · exact .inl hbroken
  · exact .inr (.inl hgoes)
  · exact .inr (.inr ⟨e, he, hend.of_reduces (reduces_reduceGroups ts hvs)⟩)

end Scriptlet
