import Scriptlet.Proofs.Yield

/-!
# Every pass keeps the symbols and ranks what it builds

A pass replaces neighbouring trees by a construct over them, so the symbols of the forest stay the
same. The tiers come in the order of their levels: when a pass looks at an operand, everything in
the forest binds more tightly than the operators of the pass, except for what the pass itself has
built. Hence every construct is ranked, and after all passes every tree of the forest is.

## Contents

- §1 ranked forests
- §2 leaves that are operators
- §3 passes from the left
- §4 passes from the right
- §5 the pipeline
-/

namespace Scriptlet

namespace Tree

/-! ## §1 Ranked forests -/

/-- The trees are ranked and bind at least as tightly as the level. -/
def AllRanked (k : Nat) (ts : List Tree) : Prop := ∀ t ∈ ts, t.Ranked ∧ t.level ≤ k

namespace AllRanked

variable {k l : Nat} {t : Tree} {ts : List Tree}

/-- The first of ranked trees is ranked. -/
theorem head (h : AllRanked k (t :: ts)) : t.Ranked ∧ t.level ≤ k := h t (by simp)

theorem tail (h : AllRanked k (t :: ts)) : AllRanked k ts :=
  fun u hu => h u (List.mem_cons_of_mem _ hu)

theorem cons (ht : t.Ranked) (hlevel : t.level ≤ k) (h : AllRanked k ts) :
    AllRanked k (t :: ts) := by
  intro u hu
  rcases List.mem_cons.mp hu with rfl | hu
  · exact ⟨ht, hlevel⟩
  · exact h u hu

theorem nil : AllRanked k [] := fun _ h => by cases h

/-- Ranked trees are so at every looser level. -/
theorem mono (h : AllRanked k ts) (hkl : k ≤ l) : AllRanked l ts :=
  fun t ht => ⟨(h t ht).1, Nat.le_trans (h t ht).2 hkl⟩

theorem reverse (h : AllRanked k ts) : AllRanked k ts.reverse :=
  fun t ht => h t (List.mem_reverse.mp ht)

end AllRanked

/-! ## §2 Leaves that are operators -/

variable {t : Tree} {op : Operator} {loc : Location}

/-- An operator leaf yields its spelling. -/
theorem yield_of_operator? {fixity : Fixity} (h : t.operator? fixity = some (op, loc)) :
    t.yield = [.mark op.spelling] := by
  unfold operator? at h
  split at h
  · split at h
    · cases h; rfl
    · cases h
  · cases h

/-- An operator leaf of a tier yields its spelling. -/
theorem yield_of_tierOperator? {tier : Tier} (h : t.tierOperator? tier = some (op, loc)) :
    t.yield = [.mark op.spelling] ∧ op.tier? = some tier := by
  obtain ⟨hop, htier⟩ := Option.filter_eq_some_iff.mp h
  exact ⟨yield_of_operator? hop, by simpa using htier⟩

theorem yield_of_dot {f : Fixity} (h : t.lexeme? = some (.operator .dot f)) :
    t.yield = [.mark Operator.dot.spelling] := by
  unfold lexeme? at h
  split at h
  · next u => rw [yield, Option.some.inj h]; rfl
  · cases h

end Tree

open Scriptlet.Tree

/-- What a pass makes of trees of level `k` has the same symbols and is of level `l`. -/
def Keeps (k l : Nat) (pass : Pass) : Prop :=
  ∀ ts us, pass ts = .ok us → AllRanked k ts → yieldAll us = yieldAll ts ∧ AllRanked l us

variable {done ts us : List Tree} {k : Nat}

/-! ## §3 Passes from the left -/

/-- The member pass keeps the yield, and ranks what it makes. -/
theorem memberPass_keeps (h : memberPass done ts = .ok us) (hdone : AllRanked 0 done)
    (hts : AllRanked 0 ts) :
    yieldAll us = yieldAll done.reverse ++ yieldAll ts ∧ AllRanked 0 us := by
  fun_induction memberPass done ts with
  | case1 done =>
    cases h
    exact ⟨by simp [yieldAll], hdone.reverse⟩
  | case2 | case3 | case5 | case6 => cases h
  | case4 t f hdot left done _ property rest _ ih =>
    -- the last tree done, the dot and the next tree become one tree
    have hbuilt : AllRanked 0 (.binary .member left property t.loc :: done) :=
      .cons (.member left property t.loc) (by simp [level]) hdone.tail
    obtain ⟨hyield, hranked⟩ := ih h hbuilt hts.tail.tail
    refine ⟨?_, hranked⟩
    rw [hyield, yieldAll_reverse_cons, yieldAll_reverse_cons, yieldAll, yieldAll, yield,
      yield_of_dot hdot]
    simp
  | case7 done t rest _ ih =>
    obtain ⟨hyield, hranked⟩ := ih h (.cons hts.head.1 hts.head.2 hdone) hts.tail
    exact ⟨by rw [hyield, yieldAll_shift], hranked⟩

/-- Joining neighbours keeps the symbols if what is joined has the symbols of both. -/
theorem joinPass_keeps {join : Tree → Tree → Option Tree}
    (hjoin : ∀ left t joined, join left t = some joined → left.Ranked ∧ left.level ≤ k →
      t.Ranked ∧ t.level ≤ k →
      joined.yield = left.yield ++ t.yield ∧ joined.Ranked ∧ joined.level ≤ k)
    (hdone : AllRanked k done) (hts : AllRanked k ts) :
    yieldAll (joinPass join done ts) = yieldAll done.reverse ++ yieldAll ts ∧
      AllRanked k (joinPass join done ts) := by
  fun_induction joinPass join done ts with
  | case1 done => exact ⟨by simp [yieldAll], hdone.reverse⟩
  | case2 t rest ih =>
    obtain ⟨hyield, hranked⟩ := ih (.cons hts.head.1 hts.head.2 .nil) hts.tail
    exact ⟨by rw [hyield]; simp [yieldAll], hranked⟩
  | case3 t rest left done joined heq ih =>
    -- the joined tree takes the place of the left one
    obtain ⟨hsame, hj, hlevel⟩ := hjoin left t joined heq hdone.head hts.head
    obtain ⟨hyield, hranked⟩ := ih (.cons hj hlevel hdone.tail) hts.tail
    refine ⟨?_, hranked⟩
    rw [hyield, yieldAll_reverse_cons, yieldAll_reverse_cons, yieldAll, hsame]
    simp
  | case4 t rest left done heq ih =>
    obtain ⟨hyield, hranked⟩ := ih (.cons hts.head.1 hts.head.2 hdone) hts.tail
    exact ⟨by rw [hyield, yieldAll_shift], hranked⟩

/-- The trailing pass keeps the yield, and ranks what it makes. -/
theorem trailingPass_keeps (h : trailingPass done ts = .ok us) (hdone : AllRanked 1 done)
    (hts : AllRanked 1 ts) :
    yieldAll us = yieldAll done.reverse ++ yieldAll ts ∧ AllRanked 1 us := by
  fun_induction trailingPass done ts with
  | case1 done =>
    cases h
    exact ⟨by simp [yieldAll], hdone.reverse⟩
  | case2 done t rest _ ih =>
    obtain ⟨hyield, hranked⟩ := ih h (.cons hts.head.1 hts.head.2 hdone) hts.tail
    exact ⟨by rw [hyield, yieldAll_shift], hranked⟩
  -- the newest tree done becomes the operand, and its symbols stay in front of the sign
  | case3 t rest op loc hop left done _ ih =>
    have hbuilt : AllRanked 1 (.unary (.trailing op) left loc :: done) :=
      .cons (.trailing op left loc) (by simp [level]) hdone.tail
    obtain ⟨hyield, hranked⟩ := ih h hbuilt hts.tail
    refine ⟨?_, hranked⟩
    rw [hyield, yieldAll_reverse_cons, yieldAll_reverse_cons, yieldAll, yield,
      yield_of_operator? hop]
    simp
  | case4 | case5 => cases h

/-- An operator that groups to the left has on its left what the pass has built so far, and on its
right what was there before. -/
theorem chainLeft_keeps {tier : Tier} (hside : tier.groupsRight = false)
    (h : chainLeft tier done ts = .ok us) (hdone : AllRanked tier.level done)
    (hts : AllRanked (tier.level - 1) ts) :
    yieldAll us = yieldAll done.reverse ++ yieldAll ts ∧ AllRanked tier.level us := by
  have htwo := tier.two_le_level
  fun_induction chainLeft tier done ts with
  | case1 done =>
    cases h
    exact ⟨by simp [yieldAll], hdone.reverse⟩
  | case2 done t rest _ ih =>
    have hlevel := hts.head.2
    have hbuilt : AllRanked tier.level (t :: done) := .cons hts.head.1 (by omega) hdone
    obtain ⟨hyield, hranked⟩ := ih h hbuilt hts.tail
    exact ⟨by rw [hyield, yieldAll_shift], hranked⟩
  | case3 | case4 | case6 | case7 => cases h
  | case5 t op loc hop left done _ right rest _ ih =>
    obtain ⟨hyop, htier⟩ := yield_of_tierOperator? hop
    have hright := hts.tail.head
    -- what is done has the level of the tier already; what is to come binds more tightly
    have hbuilt : AllRanked tier.level (.binary (.between tier op) left right loc :: done) :=
      .cons (.chainLeft tier op left right loc htier hside hdone.head.1 hright.1 hdone.head.2
        (by omega)) (Nat.le_refl _) hdone.tail
    obtain ⟨hyield, hranked⟩ := ih h hbuilt hts.tail.tail
    refine ⟨?_, hranked⟩
    rw [hyield, yieldAll_reverse_cons, yieldAll_reverse_cons, yieldAll, yieldAll, yield, hyop]
    simp

/-! ## §4 Passes from the right -/

/-- The operand that is taken stands first in the yield. -/
theorem takeOperand_keeps {operand : Tree} {more : List Tree}
    (h : takeOperand ts = some (operand, more)) (hts : AllRanked 1 ts) :
    yieldAll ts = operand.yield ++ yieldAll more ∧ (operand.Ranked ∧ operand.level ≤ 1) ∧
      AllRanked 1 more := by
  fun_induction takeOperand ts generalizing operand more with
  | case1 => cases h
  | case2 t rest op loc hop ih =>
    obtain ⟨⟨inner, more⟩, hinner, heq⟩ := Option.map_eq_some_iff.mp h
    cases heq
    -- further signs before the operand belong to it
    obtain ⟨hyield, ⟨hranked, hlevel⟩, hmore⟩ := ih hinner hts.tail
    refine ⟨?_, ⟨.leading op inner loc hranked hlevel, by simp [level]⟩, hmore⟩
    rw [yieldAll, yield_of_operator? hop, yield, hyield]
    rfl
  | case3 t rest _ _ =>
    cases h
    exact ⟨rfl, hts.head, hts.tail⟩
  | case4 => cases h

/-- The keyword pass keeps the yield, and ranks what it makes. -/
theorem keywordPass_keeps (h : keywordPass ts = .ok us) (hts : AllRanked 0 ts) :
    yieldAll us = yieldAll ts ∧ AllRanked 1 us := by
  induction ts generalizing us with
  | nil =>
    cases h
    exact ⟨rfl, .nil⟩
  | cons t rest ih =>
    obtain ⟨more, hmore, h⟩ := bind_eq_ok.mp h
    obtain ⟨hyield, hranked⟩ := ih hmore hts.tail
    split at h
    · next word i level loc _ =>
      split at h
      · next operand more' htake =>
        cases h
        -- the operand is what stands behind the word after the pass over the rest
        obtain ⟨hsplit, hoperand, hmore'⟩ := takeOperand_keeps htake hranked
        refine ⟨?_, .cons (.keyword word operand loc hoperand.1 hoperand.2)
          (by simp [Tree.level]) hmore'⟩
        rw [yieldAll, yieldAll, yield, ← hyield, hsplit, yield, List.cons_append]
        rfl
      · cases h
    · cases h
      exact ⟨by rw [yieldAll, yieldAll, hyield],
        .cons hts.head.1 (Nat.le_trans hts.head.2 (by omega)) hranked⟩

/-- The leading pass keeps the yield, and ranks what it makes. -/
theorem leadingPass_keeps (h : leadingPass ts = .ok us) (hts : AllRanked 1 ts) :
    yieldAll us = yieldAll ts ∧ AllRanked 1 us := by
  induction ts generalizing us with
  | nil =>
    cases h
    exact ⟨rfl, .nil⟩
  | cons t rest ih =>
    obtain ⟨more, hmore, h⟩ := bind_eq_ok.mp h
    obtain ⟨hyield, hranked⟩ := ih hmore hts.tail
    split at h
    · cases h
      exact ⟨by rw [yieldAll, yieldAll, hyield], .cons hts.head.1 hts.head.2 hranked⟩
    -- the sign takes the first of the trees that those behind it were reduced to
    · next op loc hop =>
      split at h
      · next right more' =>
        split at h
        · cases h
          refine ⟨?_, .cons (.leading op right loc hranked.head.1 hranked.head.2)
            (by simp [Tree.level]) hranked.tail⟩
          rw [yieldAll, yieldAll, yield, ← hyield, yield_of_operator? hop, yieldAll]
          rfl
        · cases h
      · cases h

/-- The right operand is the tree that stands there. -/
theorem takeRight_eq_ok {tier : Tier} {op : Operator} {loc : Location} {right : Tree}
    {more : List Tree} (h : takeRight tier op loc ts = .ok (right, more)) : ts = right :: more := by
  unfold takeRight at h
  split at h
  · split at h
    · cases h; rfl
    · cases h
  · cases h

/-- An operator that groups to the right has on its left what was there before, and on its right
what the pass has built. -/
theorem chainRight_keeps {tier : Tier} (hside : tier.groupsRight = true)
    (h : chainRight tier ts = .ok us) (hts : AllRanked (tier.level - 1) ts) :
    yieldAll us = yieldAll ts ∧ AllRanked tier.level us := by
  have htwo := tier.two_le_level
  fun_induction chainRight tier ts generalizing us with
  | case1 =>
    cases h
    exact ⟨rfl, .nil⟩
  | case2 t rest op loc hop ih =>
    obtain ⟨more, _, h⟩ := bind_eq_ok.mp h
    obtain ⟨right, _, h⟩ := bind_eq_ok.mp h
    cases h
  | case3 t _ =>
    cases h
    exact ⟨rfl, hts.mono (by omega)⟩
  | case4 t _ o rest op loc hop ih =>
    obtain ⟨more, hmore, h⟩ := bind_eq_ok.mp h
    obtain ⟨⟨right, more'⟩, hright, h⟩ := bind_eq_ok.mp h
    cases h
    -- the rest is reduced first, so its first tree is the whole right operand
    obtain rfl := takeRight_eq_ok hright
    obtain ⟨hyield, hranked⟩ := ih hmore hts.tail.tail
    split at hop
    · obtain ⟨hyop, htier⟩ := yield_of_tierOperator? hop
      have hlevel := hts.head.2
      refine ⟨?_, .cons (.chainRight tier op t right loc htier hside hts.head.1 hranked.head.1
        (by omega) hranked.head.2) (Nat.le_refl _) hranked.tail⟩
      rw [yieldAll, yieldAll, yieldAll, yield, hyop, ← hyield, yieldAll]
      simp
    · cases hop
  | case5 t _ o rest hop ih =>
    obtain ⟨more, hmore, h⟩ := bind_eq_ok.mp h
    cases h
    obtain ⟨hyield, hranked⟩ := ih hmore hts.tail
    have hlevel := hts.head.2
    exact ⟨by rw [yieldAll, yieldAll, hyield], .cons hts.head.1 (by omega) hranked⟩

/-! ## §5 The pipeline -/

/-- An accessor is joined to the operand in front of it. -/
theorem joinAccessor_joins {family : Family} {form : BinaryForm} {left t joined : Tree}
    (h : joinAccessor family form left t = some joined) :
    t.isGroup family = true ∧ joined = .binary form left t left.loc := by
  unfold joinAccessor at h
  split at h
  · next hcond =>
    simp only [Bool.and_eq_true] at hcond
    exact ⟨hcond.1, (Option.some.inj h).symm⟩
  · cases h

/-- What is joined to an accessor has the symbols of both. -/
theorem accessorPass_keeps {family : Family} {form : BinaryForm}
    (hform : form = .index ∨ form = .call ∧ family = .parenthesis) :
    Keeps 0 0 fun ts => .ok (joinPass (joinAccessor family form) [] ts) := by
  intro ts us h hts
  cases h
  -- joining keeps the order of the symbols, so that only the joined tree has to be looked at
  refine joinPass_keeps (fun left t joined hjoin hleft ht => ?_) .nil hts
  obtain ⟨hgroup, rfl⟩ := joinAccessor_joins hjoin
  rcases hform with rfl | ⟨rfl, rfl⟩
  · exact ⟨by rw [yield], .index left t _, by simp [level]⟩
  · refine ⟨by rw [yield], ?_, by simp [level]⟩
    cases ht.1 with
    | group f cs loc hcs =>
      obtain rfl : Family.parenthesis = f := by simpa [isGroup] using hgroup
      exact .call left cs loc _ hleft.1 hcs
    | _ => cases hgroup

theorem functionPass_keeps : Keeps 1 1 fun ts => .ok (joinPass joinFunction [] ts) := by
  intro ts us h hts
  cases h
  refine joinPass_keeps (fun left t joined hjoin _ _ => ?_) .nil hts
  unfold joinFunction at hjoin
  split at hjoin
  · cases hjoin
    exact ⟨by rw [yield], .function left t _, by simp [level]⟩
  · cases hjoin

/-- Each tier's pass keeps the yield, and raises the level to its tier's. -/
theorem tierPass_keeps (tier : Tier) : Keeps (tier.level - 1) tier.level (tierPass tier) := by
  intro ts us h hts
  unfold tierPass at h
  cases hside : tier.groupsRight with
  | true =>
    rw [hside, if_pos rfl] at h
    exact chainRight_keeps hside h hts
  | false =>
    rw [hside, if_neg (by simp)] at h
    exact chainLeft_keeps hside h .nil hts

/-- Passes one after the other, each from the level that the one before it reaches. -/
theorem Keeps.andThen {j k l : Nat} {first : Pass} {more : List Pass} (hfirst : Keeps j k first)
    (hmore : Keeps k l fun ts => more.foldlM (fun acc pass => pass acc) ts) :
    Keeps j l fun ts => (first :: more).foldlM (fun acc pass => pass acc) ts := by
  intro ts us h hts
  obtain ⟨mid, hmid, h⟩ := bind_eq_ok.mp h
  obtain ⟨hyield, hranked⟩ := hfirst ts mid hmid hts
  obtain ⟨hyield', hranked'⟩ := hmore mid us h hranked
  exact ⟨by rw [hyield', hyield], hranked'⟩

theorem Keeps.last {k : Nat} :
    Keeps k k fun ts => ([] : List Pass).foldlM (fun acc pass => pass acc) ts := by
  intro ts us h hts
  cases h
  exact ⟨rfl, hts⟩

/-- All passes together keep the yield, and rank what they leave. -/
theorem runPasses_keeps : Keeps 0 8 runPasses := by
  unfold runPasses passes
  -- accessors leave level 0, signs level 1, and each tier raises the level to its own
  refine .andThen (k := 0) (fun ts us h hts => memberPass_keeps h .nil hts) ?_
  refine .andThen (accessorPass_keeps (.inl rfl)) ?_
  refine .andThen (accessorPass_keeps (.inr ⟨rfl, rfl⟩)) ?_
  refine .andThen (k := 1) (fun ts us h hts => keywordPass_keeps h hts) ?_
  refine .andThen functionPass_keeps ?_
  refine .andThen (k := 1) (fun ts us h hts => trailingPass_keeps h .nil hts) ?_
  refine .andThen (k := 1) (fun ts us h hts => leadingPass_keeps h hts) ?_
  refine .andThen (tierPass_keeps .exponent) (.andThen (tierPass_keeps .multiplicative) ?_)
  refine .andThen (tierPass_keeps .additive) (.andThen (tierPass_keeps .comparison) ?_)
  refine .andThen (tierPass_keeps .logicalAnd) (.andThen (tierPass_keeps .logicalOr) ?_)
  exact .andThen (tierPass_keeps .assignment) .last

/-- The contents of a group are reduced like a forest. -/
theorem reduceGroups_keeps (h : reduceGroups ts = .ok us)
    (hts : ∀ t ∈ ts, ∀ u, reduceGroup t = .ok u → u.yield = t.yield ∧ u.Ranked ∧ u.level = 0) :
    yieldAll us = yieldAll ts ∧ AllRanked 0 us := by
  -- the trees are reduced one by one, each by itself
  induction ts generalizing us with
  | nil =>
    rw [reduceGroups] at h
    cases h
    exact ⟨rfl, .nil⟩
  | cons t ts ih =>
    rw [reduceGroups] at h
    obtain ⟨u, hu, h⟩ := bind_eq_ok.mp h
    obtain ⟨more, hmore, h⟩ := bind_eq_ok.mp h
    cases h
    obtain ⟨hyield, hranked, hlevel⟩ := hts t (by simp) u hu
    obtain ⟨hyield', hranked'⟩ := ih hmore fun v hv => hts v (List.mem_cons_of_mem _ hv)
    exact ⟨by rw [yieldAll, yieldAll, hyield, hyield'], .cons hranked (by omega) hranked'⟩

/-- A reduced group keeps its yield, and is ranked among the atoms. -/
theorem reduceGroup_keeps {t u : Tree} (ht : t.Raw) (h : reduceGroup t = .ok u) :
    u.yield = t.yield ∧ u.Ranked ∧ u.level = 0 := by
  induction ht generalizing u with
  | leaf t hproper =>
    rw [reduceGroup] at h
    · cases h
      exact ⟨rfl, .leaf t hproper, rfl⟩
    · simp
  -- the groups inside come first, then the passes over the contents
  | group f cs loc _ ih =>
    rw [reduceGroup] at h
    obtain ⟨inner, hinner, h⟩ := bind_eq_ok.mp h
    obtain ⟨cs', hpasses, h⟩ := bind_eq_ok.mp h
    cases h
    obtain ⟨hyield, hranked⟩ := reduceGroups_keeps hinner fun c hc u hu => ih c hc hu
    obtain ⟨hyield', hranked'⟩ := runPasses_keeps inner cs' hpasses hranked
    refine ⟨by rw [yield, yield, hyield', hyield], ?_, rfl⟩
    exact .group f cs' loc fun c hc => (hranked' c hc).1

/-- The reduced forest has the symbols of the forest, and all its trees are ranked. -/
theorem reduce_keeps (h : reduce ts = .ok us) (hraw : ∀ t ∈ ts, t.Raw) :
    yieldAll us = yieldAll ts ∧ ∀ u ∈ us, u.Ranked := by
  obtain ⟨inner, hinner, h⟩ := bind_eq_ok.mp h
  obtain ⟨hyield, hranked⟩ :=
    reduceGroups_keeps hinner fun t ht u hu => reduceGroup_keeps (hraw t ht) hu
  obtain ⟨hyield', hranked'⟩ := runPasses_keeps inner us h hranked
  exact ⟨by rw [hyield', hyield], fun u hu => (hranked' u hu).1⟩

end Scriptlet
