import Scriptlet.Forest.Precedence
import Scriptlet.Proofs.Separators

/-!
# The passes read rows by precedence

A row of operands with operators of the tiers between them is reduced to one tree, the one that is
found from the top down. By induction on the row: it is cut at its outermost operator. To the passes
of the tighter tiers this operator is no operand and nothing to apply, so they work on both sides by
themselves. At the turn of its own tier the side that has no operator of the tier left is a single
tree already, and the other side becomes one in the same pass. The looser tiers find nothing to do.

## Contents

- §1 cut rows
- §2 passes of tiers on rows
- §3 the passes before the tiers
-/

namespace Scriptlet

open Scriptlet.Tree

/-! ## §1 Cut rows -/

/-- Where no cut is found, nothing passes the test. -/
theorem cutFirst_eq_none {α : Type} {test : α → Bool} {xs : List α}
    (h : cutFirst test xs = none) : ∀ x ∈ xs, test x = false := by
  induction xs with
  | nil => simp
  | cons x xs ih =>
    rw [cutFirst] at h
    split at h
    · cases h
    · next hx =>
      exact List.forall_mem_cons.mpr ⟨by simpa using hx, ih (Option.map_eq_none_iff.mp h)⟩

/-- Where no cut is found, no joint is of the tier. -/
theorem cutAt_eq_none {tier : Tier} {js : List Joint} (h : cutAt tier js = none) :
    ∀ j ∈ js, j.tier ≠ tier := by
  have hall : ∀ j ∈ js, (j.tier == tier) = false := by
    unfold cutAt at h
    split at h
    · exact cutFirst_eq_none h
    · exact cutLast_eq_none h
  exact fun j hj => beq_eq_false_iff_ne.mp (hall j hj)

theorem Tier.mem_all (tier : Tier) : tier ∈ Tier.all := by cases tier <;> decide

/-- Only a row without operators has no outermost one. -/
theorem cutLoosest_eq_none {js : List Joint} (h : cutLoosest js = none) : js = [] := by
  cases js with
  | nil => rfl
  | cons j js =>
    have hnone := List.findSome?_eq_none_iff.mp h j.tier (List.mem_reverse.mpr j.tier.mem_all)
    exact absurd rfl (cutAt_eq_none hnone j (by simp))

/-- A row cut at its outermost operator: the tier of that operator and the tighter ones are all
there are in the row, and on one side there are only tighter ones. -/
structure Outermost (before : List Joint) (j : Joint) (after : List Joint)
    (tighter looser : List Tier) : Prop where
  tiers : Tier.all = tighter ++ j.tier :: looser
  before_le : ∀ i ∈ before, i.tier ∈ tighter ++ [j.tier]
  after_le : ∀ i ∈ after, i.tier ∈ tighter ++ [j.tier]
  side : if j.tier.groupsRight then ∀ i ∈ before, i.tier ∈ tighter
    else ∀ i ∈ after, i.tier ∈ tighter

/-- The loosest cut is at an outermost joint. -/
theorem outermost_of_cutLoosest {js before after : List Joint} {j : Joint}
    (h : cutLoosest js = some (before, j, after)) :
    ∃ tighter looser, Outermost before j after tighter looser := by
  obtain ⟨looser, tier, tighter, hsplit, hcut, hnone⟩ := List.findSome?_eq_some_iff.mp h
  have hjs : js = before ++ j :: after := cutLoosest_eq_append h
  -- the tiers were tried from the loosest on
  have htiers : Tier.all = tighter.reverse ++ tier :: looser.reverse := by
    rw [← List.reverse_reverse Tier.all, hsplit]
    simp
  have htighter : ∀ i : Joint, i ∈ js → i.tier ≠ tier → i.tier ∈ tighter.reverse := by
    intro i hi hne
    have hmem := i.tier.mem_all
    rw [htiers, List.mem_append, List.mem_cons] at hmem
    rcases hmem with hmem | rfl | hmem
    · exact hmem
    · exact absurd rfl hne
    · exact absurd rfl (cutAt_eq_none (hnone _ (List.mem_reverse.mp hmem)) i hi)
  have hle : ∀ i : Joint, i ∈ js → i.tier ∈ tighter.reverse ++ [tier] := by
    intro i hi
    by_cases heq : i.tier = tier
    · simp [heq]
    · exact List.mem_append_left _ (htighter i hi heq)
  unfold cutAt at hcut
  split at hcut
  · next hright =>
    obtain ⟨_, hj, hbefore⟩ := cutFirst_eq_some hcut
    obtain rfl : j.tier = tier := by simpa using hj
    refine ⟨_, _, htiers, fun i hi => hle i (by simp [hjs, hi]),
      fun i hi => hle i (by simp [hjs, hi]), ?_⟩
    rw [if_pos hright]
    exact fun i hi => htighter i (by simp [hjs, hi]) (by simpa using hbefore i hi)
  · next hleft =>
    obtain ⟨_, hj, hafter⟩ := cutLast_eq_some hcut
    obtain rfl : j.tier = tier := by simpa using hj
    refine ⟨_, _, htiers, fun i hi => hle i (by simp [hjs, hi]),
      fun i hi => hle i (by simp [hjs, hi]), ?_⟩
    rw [if_neg hleft]
    exact fun i hi => htighter i (by simp [hjs, hi]) (by simpa using hafter i hi)

/-- A chain, cut at a joint, is a chain on each side of the sign. -/
theorem chain_append (first : Tree) (before : List Joint) (j : Joint) (after : List Joint) :
    chain first (before ++ j :: after) = chain first before ++ j.sign :: chain j.right after := by
  simp [chain]

/-! ## §2 Passes of tiers on rows -/

/-- The passes of some tiers, one after the other. -/
def runTiers (tiers : List Tier) (ts : List Tree) : Except ConstructError (List Tree) :=
  (tiers.map tierPass).foldlM (fun acc pass => pass acc) ts

section Rows

variable {tier : Tier} {tiers more : List Tier} {done ts us vs ws : List Tree} {o : Tree}

/-- A pass from the left that succeeds needs nothing of what comes behind. -/
theorem chainLeft_append (h : chainLeft tier done ts = .ok us) (vs : List Tree) :
    chainLeft tier done (ts ++ vs) = chainLeft tier us.reverse vs := by
  fun_induction chainLeft tier done ts with
  -- what is done at the end of the first row is where the second goes on
  | case1 done =>
    cases h
    rw [List.reverse_reverse]
    rfl
  | case2 done t rest hop ih => rw [List.cons_append, chainLeft, hop, ← ih h]
  | case3 | case4 | case6 | case7 => cases h
  | case5 t op loc hop left done hleft right rest hright ih =>
    rw [List.cons_append, List.cons_append, chainLeft, hop, ← ih h]
    simp only [hleft, hright, if_true]

/-- A tier to the left leaves operands alone. -/
theorem chainLeft_of_operands (done : List Tree) (h : ∀ t ∈ ts, t.isOperand = true) :
    chainLeft tier done ts = .ok (done.reverse ++ ts) := by
  induction ts generalizing done with
  | nil => rw [chainLeft, List.append_nil]
  | cons t ts ih =>
    obtain ⟨ht, hts⟩ := List.forall_mem_cons.mp h
    rw [chainLeft, tierOperator?_of_isOperand ht]
    simpa using ih (t :: done) hts

/-- A tier to the right leaves operands alone. -/
theorem chainRight_of_operands (h : ∀ t ∈ ts, t.isOperand = true) :
    chainRight tier ts = .ok ts := by
  induction ts with
  | nil => rfl
  | cons t ts ih =>
    obtain ⟨ht, hts⟩ := List.forall_mem_cons.mp h
    cases ts with
    | nil => rw [chainRight.eq_2, tierOperator?_of_isOperand ht]
    | cons u ts =>
      -- neither a tree nor the one behind it is an operator of the tier
      have hu : u.tierOperator? tier = none := tierOperator?_of_isOperand (hts u (by simp))
      rw [chainRight.eq_3, tierOperator?_of_isOperand ht]
      simp only [hu, ite_self, ih hts]
      rfl

/-- Tiers in a row are run one part after the other. -/
theorem runTiers_append (tiers more : List Tier) (ts : List Tree) :
    runTiers (tiers ++ more) ts = runTiers tiers ts >>= runTiers more := by
  rw [runTiers, List.map_append, List.foldlM_append]
  rfl

/-- An operator of another tier parts the work of the passes. -/
theorem runTiers_between (ho : o.isOperand = false)
    (hother : ∀ tier ∈ tiers, o.tierOperator? tier = none) (h : runTiers tiers ts = .ok us)
    (h' : runTiers tiers vs = .ok ws) : runTiers tiers (ts ++ o :: vs) = .ok (us ++ o :: ws) := by
  have hsplits : ∀ pass ∈ tiers.map tierPass, SplitsAt o pass :=
    List.forall_mem_map.mpr fun tier htier => splitsAt_tierPass ho (hother tier htier)
  exact (splitsAt_foldlM hsplits ts vs _).mpr ⟨us, ws, h, h', rfl⟩

/-- Terms are operands. -/
theorem isOperand_of_isTerm {t : Tree} (h : t.isTerm = true) : t.isOperand = true := by
  unfold isTerm at h
  split at h
  · cases h
  · exact h

/-- Operands without operators stay as they are. -/
theorem runTiers_of_operands (tiers : List Tier) (h : ∀ t ∈ ts, t.isOperand = true) :
    runTiers tiers ts = .ok ts := by
  induction tiers with
  | nil => rfl
  | cons tier tiers ih =>
    have htier : tierPass tier ts = .ok ts := by
      unfold tierPass
      split
      · exact chainRight_of_operands h
      · exact chainLeft_of_operands [] h
    exact foldlM_passes htier ih

variable {j : Joint}

theorem Joint.isOperand_sign (j : Joint) : j.sign.isOperand = false := rfl

/-- The sign of a joint is an operator of its tier. -/
theorem Joint.tierOperator?_sign (j : Joint) :
    j.sign.tierOperator? j.tier = some (j.op, j.loc) := by
  simp [sign, tierOperator?, operator?, j.belongs]

/-- The sign of a joint is no operator of another tier. -/
theorem Joint.tierOperator?_sign_of_ne {tier : Tier} (h : tier ≠ j.tier) :
    j.sign.tierOperator? tier = none := by
  simp [sign, tierOperator?, operator?, j.belongs, h.symm]

theorem runTiers_singleton (tier : Tier) (ts : List Tree) :
    runTiers [tier] ts = tierPass tier ts := by
  show (tierPass tier ts >>= fun us => .ok us) = _
  cases tierPass tier ts <;> rfl

/-- At the turn of the tier of an operator both sides become one tree each, and one of them, the one
that the tier does not group to, is one tree already. -/
theorem tierPass_cut {x y : Tree} (hx : x.isOperand = true) (hy : y.isOperand = true)
    (hus : tierPass j.tier us = .ok [x]) (hvs : tierPass j.tier vs = .ok [y])
    (hside : if j.tier.groupsRight then us = [x] else vs = [y]) :
    tierPass j.tier (us ++ j.sign :: vs) = .ok [j.apply x y] := by
  unfold tierPass at hus hvs ⊢
  -- grouping to the right reads the left side last, grouping to the left reads the right side last
  cases hright : j.tier.groupsRight with
  | true =>
    rw [hright, if_pos rfl] at hside hvs
    subst hside
    rw [if_pos rfl, List.singleton_append, chainRight, tierOperator?_of_isOperand hx]
    simp only [hx, if_true, j.tierOperator?_sign, hvs]
    refine bind_eq_ok.mpr ⟨[y], rfl, bind_eq_ok.mpr ⟨(y, []), ?_, rfl⟩⟩
    rw [takeRight, if_pos hy]
  | false =>
    rw [hright, if_neg (by simp)] at hside hus
    subst hside
    rw [if_neg (by simp), chainLeft_append hus, List.reverse_singleton, chainLeft,
      j.tierOperator?_sign]
    simp only [hx, hy, if_true]
    rfl

end Rows

/-- What is read by precedence is an operand. -/
theorem isOperand_readByPrecedence {first : Tree} (h : first.isOperand = true) (js : List Joint) :
    (readByPrecedence first js).isOperand = true := by
  rw [readByPrecedence]
  split
  · exact h
  · rfl

/-- A tier stands at one place among all tiers only. -/
theorem Tier.nodup_all : Tier.all.Nodup := by decide

/-- Where the tiers that are tried include the one of the cut, they go at least that far. -/
theorem Outermost.exists_rest {before after : List Joint} {j : Joint}
    {tighter looser tiers more : List Tier} (h : Outermost before j after tighter looser)
    (hall : Tier.all = tiers ++ more) (hj : j.tier ∈ tiers) :
    ∃ rest, tiers = tighter ++ j.tier :: rest := by
  have hsplit : tiers ++ more = (tighter ++ [j.tier]) ++ looser := by
    rw [← hall, h.tiers]
    simp
  rcases List.append_eq_append_iff.mp hsplit with ⟨cut, heq, hmore⟩ | ⟨rest, rfl, _⟩
  · -- the tier of the cut would be among those that are left as well
    rcases List.eq_nil_or_concat cut with rfl | ⟨cut, tier, rfl⟩
    · exact ⟨[], by simpa using heq.symm⟩
    · have hlast : j.tier = tier := by
        simpa using congrArg List.getLast? heq
      have hdup := Tier.nodup_all
      rw [hall, List.nodup_append] at hdup
      exact absurd rfl (hdup.2.2 _ hj j.tier (by simp [hmore, hlast]))
  · exact ⟨rest, by simp⟩

/-- No tighter tier is that of the outermost joint. -/
theorem Outermost.ne_tier {before after : List Joint} {j : Joint} {tighter looser : List Tier}
    (h : Outermost before j after tighter looser) {tier : Tier} (htier : tier ∈ tighter) :
    tier ≠ j.tier := by
  have hdup := Tier.nodup_all
  rw [h.tiers, List.nodup_append] at hdup
  exact hdup.2.2 tier htier j.tier (by simp)

/-- The passes of the tiers up to the loosest one of a row reduce the row to its tree. -/
theorem runTiers_chain {first : Tree} {js : List Joint} {tiers more : List Tier}
    (hall : Tier.all = tiers ++ more) (hjs : ∀ j ∈ js, j.tier ∈ tiers)
    (hfirst : first.isOperand = true) (hright : ∀ j ∈ js, j.right.isOperand = true) :
    runTiers tiers (chain first js) = .ok [readByPrecedence first js] := by
  -- by induction on the row, as it is cut
  fun_induction readByPrecedence first js generalizing tiers more with
  | case1 first js hcut =>
    obtain rfl := cutLoosest_eq_none hcut
    exact runTiers_of_operands tiers (List.forall_mem_singleton.mpr hfirst)
  | case2 first js before j after hcut ihbefore ihafter =>
    obtain rfl := cutLoosest_eq_append hcut
    obtain ⟨tighter, looser, hout⟩ := outermost_of_cutLoosest hcut
    obtain ⟨rest, rfl⟩ := hout.exists_rest hall (hjs j (by simp))
    obtain ⟨hbefore, hj, hafter⟩ : (∀ i ∈ before, i.right.isOperand = true) ∧
        j.right.isOperand = true ∧ ∀ i ∈ after, i.right.isOperand = true := by
      simpa [or_imp, forall_and] using hright
    have hx := isOperand_readByPrecedence hfirst before
    have hy := isOperand_readByPrecedence hj after
    have htiers : Tier.all = (tighter ++ [j.tier]) ++ looser := by
      rw [hout.tiers]
      simp
    -- what the tighter tiers leave on each side, and what the tier of the cut makes of it
    have hleft := ihbefore htiers hout.before_le hfirst hbefore
    have hright := ihafter htiers hout.after_le hj hafter
    rw [runTiers_append] at hleft hright
    obtain ⟨us, hus, hleft⟩ := bind_eq_ok.mp hleft
    obtain ⟨vs, hvs, hright⟩ := bind_eq_ok.mp hright
    rw [runTiers_singleton] at hleft hright
    have hother : ∀ tier ∈ tighter, j.sign.tierOperator? tier = none :=
      fun _ htier => Joint.tierOperator?_sign_of_ne (hout.ne_tier htier)
    have htight := runTiers_between j.isOperand_sign hother hus hvs
    rw [← chain_append] at htight
    -- on the side without operators of the tier, the tighter ones leave one tree
    have hside : if j.tier.groupsRight then us = [readByPrecedence first before]
        else vs = [readByPrecedence j.right after] := by
      have hone := hout.side
      split at hone
      · next hgroups =>
        rw [if_pos hgroups]
        exact Except.ok.inj (hus.symm.trans (ihbefore hout.tiers hone hfirst hbefore))
      · next hgroups =>
        rw [if_neg hgroups]
        exact Except.ok.inj (hvs.symm.trans (ihafter hout.tiers hone hj hafter))
    have hcutpass := tierPass_cut hx hy hleft hright hside
    rw [runTiers_append]
    refine bind_eq_ok.mpr ⟨_, htight, bind_eq_ok.mpr ⟨_, hcutpass, ?_⟩⟩
    exact runTiers_of_operands rest (List.forall_mem_singleton.mpr rfl)

/-! ## §3 The passes before the tiers -/

/-- Terms are left alone by the early passes. -/
theorem inert_of_isTerm {t : Tree} (h : t.isTerm = true) : t.inert = true := by
  cases t with
  | leaf u =>
    obtain ⟨x, i, level, loc⟩ := u
    cases x <;> first | rfl | cases h
  | group => cases h
  | unary | binary => rfl

/-- Signs are left alone by the early passes. -/
theorem Joint.inert_sign (j : Joint) : j.sign.inert = true := by
  obtain ⟨op, tier, belongs, i, level, loc, right⟩ := j
  cases op <;> first | rfl | cases belongs

/-- The trees of a row are operands and operators between operands. -/
theorem forall_mem_chain {P : Tree → Prop} {first : Tree} {js : List Joint} (hfirst : P first)
    (hsign : ∀ j ∈ js, P j.sign) (hright : ∀ j ∈ js, P j.right) : ∀ t ∈ chain first js, P t := by
  intro t ht
  rcases List.mem_cons.mp ht with rfl | ht
  · exact hfirst
  · obtain ⟨j, hj, ht⟩ := List.mem_flatMap.mp ht
    rcases List.mem_cons.mp ht with rfl | ht
    · exact hsign j hj
    · rw [List.mem_singleton.mp ht]
      exact hright j hj

/-- Rows without groups stay as they are when groups are reduced. -/
theorem reduceGroups_of_not_group {ts : List Tree}
    (h : ∀ t ∈ ts, ∀ f cs loc, t ≠ .group f cs loc) : reduceGroups ts = .ok ts := by
  induction ts with
  | nil => rw [reduceGroups]
  | cons t ts ih =>
    obtain ⟨ht, hts⟩ := List.forall_mem_cons.mp h
    rw [reduceGroups, ih hts, reduceGroup]
    · rfl
    · exact ht

/-- The leading pass leaves rows without signs alone. -/
theorem leadingPass_of_none {ts : List Tree} (h : ∀ t ∈ ts, t.operator? .leading = none) :
    leadingPass ts = .ok ts := by
  induction ts with
  | nil => rfl
  | cons t ts ih =>
    obtain ⟨ht, hts⟩ := List.forall_mem_cons.mp h
    rw [leadingPass, ih hts, ht]
    rfl

/-- Nothing but the passes of the tiers changes trees that are no groups and take part in no
other construct. -/
theorem runPasses_eq_runTiers {ts : List Tree} (hinert : ∀ t ∈ ts, t.inert = true)
    (hgroup : ∀ t ∈ ts, ∀ f, t.isGroup f = false)
    (hleading : ∀ t ∈ ts, t.operator? .leading = none) : runPasses ts = runTiers Tier.all ts := by
  have hcalled : callPass [] ts = ts := joinPass_of_not_group fun t ht => hgroup t ht .parenthesis
  rw [runPasses, ← List.take_append_drop 7 passes, List.foldlM_append,
    untiered_of_inert hinert hcalled hinert (leadingPass_of_none hleading)]
  rfl

/-- **The passes are a parser by precedence.** A row of operands that are no groups, with operators
of the tiers between them, is reduced to the one tree that it is read as from the top down. -/
theorem reduce_chain (first : Tree) (js : List Joint) (hfirst : first.isTerm = true)
    (hright : ∀ j ∈ js, j.right.isTerm = true) :
    reduce (chain first js) = .ok [readByPrecedence first js] := by
  -- no operand is a group and no sign leads: only the tiers find anything to do
  have hgroup : ∀ t ∈ chain first js, ∀ f cs loc, t ≠ .group f cs loc := by
    refine forall_mem_chain ?_ (fun j _ => by simp [Joint.sign]) fun j hj => ?_
    · rintro f cs loc rfl
      cases hfirst
    · rintro f cs loc heq
      have hterm := hright j hj
      rw [heq] at hterm
      cases hterm
  have hfamily : ∀ t ∈ chain first js, ∀ f, t.isGroup f = false := by
    intro t ht f
    cases t with
    | group g cs loc => exact absurd rfl (hgroup _ ht g cs loc)
    | _ => rfl
  have hinert : ∀ t ∈ chain first js, t.inert = true :=
    forall_mem_chain (inert_of_isTerm hfirst) (fun j _ => j.inert_sign)
      fun j hj => inert_of_isTerm (hright j hj)
  have hleading : ∀ t ∈ chain first js, t.operator? .leading = none :=
    forall_mem_chain (operator?_of_isOperand (isOperand_of_isTerm hfirst)) (fun j _ => rfl)
      fun j hj => operator?_of_isOperand (isOperand_of_isTerm (hright j hj))
  rw [reduce, reduceGroups_of_not_group hgroup]
  show runPasses (chain first js) = _
  rw [runPasses_eq_runTiers hinert hfamily hleading]
  exact runTiers_chain (List.append_nil _).symm (fun j _ => j.tier.mem_all)
    (isOperand_of_isTerm hfirst) fun j hj => isOperand_of_isTerm (hright j hj)

/-- An operator in the first line and the name behind it. -/
def jointAt (column : Nat) (op : Operator) (tier : Tier) (h : op.tier? = some tier)
    (name : Text) : Joint :=
  ⟨op, tier, h, column, 0, ⟨column, 1, column + 1⟩, leafAt (column + 2) (.name name)⟩

/-- What stands behind the first name of `a = b || c - d - e ** f ** g * h`. -/
def mixedRow : List Joint :=
  [ jointAt 2 .assign .assignment rfl "b", jointAt 6 .logicalOr .logicalOr rfl "c",
    jointAt 11 .minus .additive rfl "d", jointAt 15 .minus .additive rfl "e",
    jointAt 19 .power .exponent rfl "f", jointAt 24 .power .exponent rfl "g",
    jointAt 29 .times .multiplicative rfl "h" ]

theorem reduce_chain_mixed :
    let first := leafAt 0 (.name "a")
    first.isTerm = true ∧ (∀ j ∈ mixedRow, j.right.isTerm = true) ∧
      reduce (chain first mixedRow) = .ok [readByPrecedence first mixedRow] ∧
      (readByPrecedence first mixedRow).shown
        = "(= a (|| b (- (- c d) (* (** e (** f g)) h))))" := by
  intro first
  have hright : ∀ j ∈ mixedRow, j.right.isTerm = true := by decide
  have hreduce := reduce_chain first mixedRow rfl hright
  refine ⟨rfl, hright, hreduce, ?_⟩
  -- the row is read from the top down as the passes read it
  have hshown : (reduce (chain first mixedRow)).map shownForest
      = .ok "(= a (|| b (- (- c d) (* (** e (** f g)) h))))" := by decide +kernel
  rw [hreduce] at hshown
  simpa [Except.map, shownForest, shownAll, Text.words, Text.join] using hshown

end Scriptlet
