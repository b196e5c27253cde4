import Scriptlet.Proofs.Accessors
import Scriptlet.Proofs.Phrases

/-!
# Reserved words and signs of assignment in front of a row

A reserved word is applied to the first operand of what follows it, before any operator between
operands is looked at, so in the end it sits at the far left of the tree that the row becomes. All
passes behind its own see an operand where they would see one without it. Hence they build the same
tree up to that one place, and moving the word to the front gives back exactly what the row is
without it.

A sign of assignment is of the loosest tier. What stands on its two sides is reduced as if it stood
alone, and then there is one tree on each side.

## Contents

- §1 trees that begin with a reserved word
- §2 passes of tiers
- §3 a reserved word in front of a row
- §4 a sign of assignment in front of a row
- §5 statements that begin so
-/

namespace Scriptlet

open Scriptlet.Tree

variable {ts us more : List Tree} {t c : Tree} {k : Keyword} {at_ : Location}

/-! ## §1 Trees that begin with a reserved word -/

/-- The first tree is the second, an operand, with a reserved word at its far left. -/
structure Bears (k : Keyword) (at_ : Location) (c t : Tree) : Prop where
  lifts : liftKeyword c = some (k, at_, t)
  operand : t.isOperand = true

namespace Bears

theorem isOperand (h : Bears k at_ c t) : c.isOperand = true := by
  have hlifts := h.lifts
  cases c with
  | unary | binary => rfl
  | leaf | group => cases hlifts

/-- A chain over such a tree is one as well. -/
theorem between (h : Bears k at_ c t) (tier : Tier) (op : Operator) (right : Tree)
    (loc : Location) :
    Bears k at_ (.binary (.between tier op) c right loc)
      (.binary (.between tier op) t right loc) :=
  ⟨by rw [liftKeyword, h.lifts]; rfl, rfl⟩

end Bears

/-! ## §2 Passes of tiers -/

/-- The lists are equal but for their first trees, the first of which begins with the word. -/
def Leads (k : Keyword) (at_ : Location) (cs ts : List Tree) : Prop :=
  ∃ c t more, cs = c :: more ∧ ts = t :: more ∧ Bears k at_ c t

section Tiers

variable {tier : Tier} {cs : List Tree}

theorem chainLeft_leads (h : Bears k at_ c t) (hok : chainLeft tier [t] more = .ok us) :
    ∃ vs, chainLeft tier [c] more = .ok vs ∧ Leads k at_ vs us := by
  generalize hdone : [t] = done at hok
  fun_induction chainLeft tier done more generalizing c t with
  | case1 done =>
    subst hdone
    cases hok
    exact ⟨[c], rfl, c, t, [], rfl, rfl, h⟩
  | case2 done o more hop =>
    subst hdone
    -- behind another operator the first tree is out of reach
    have hbehind (x : Tree) :
        chainLeft tier [o, x] more = (chainLeft tier [o] more).map ([x] ++ ·) :=
      chainLeft_before [o] more fun hnil => absurd hnil (List.cons_ne_nil o [])
    rw [chainLeft, hop]
    simp only [hbehind] at hok ⊢
    obtain ⟨rs, hrs, rfl⟩ := exists_of_map_eq_ok hok
    exact ⟨c :: rs, by rw [hrs]; rfl, c, t, rs, rfl, rfl, h⟩
  | case5 o op loc hop left done hleft right more hright ih =>
    obtain ⟨rfl, rfl⟩ := List.cons.inj hdone
    rw [chainLeft, hop]
    simp only [h.isOperand, hright, if_true]
    exact ih (h.between tier op right loc) rfl hok
  | case3 | case4 | case6 | case7 => cases hok

theorem chainRight_leads (h : Bears k at_ c t) (hok : chainRight tier (t :: more) = .ok us) :
    ∃ vs, chainRight tier (c :: more) = .ok vs ∧ Leads k at_ vs us := by
  cases more with
  | nil =>
    rw [chainRight.eq_2, tierOperator?_of_isOperand h.operand] at hok
    cases hok
    refine ⟨[c], ?_, c, t, [], rfl, rfl, h⟩
    rw [chainRight.eq_2, tierOperator?_of_isOperand h.isOperand]
  | cons o more =>
    rw [chainRight.eq_3, tierOperator?_of_isOperand h.operand] at hok
    rw [chainRight.eq_3, tierOperator?_of_isOperand h.isOperand]
    simp only [h.operand, h.isOperand, if_true] at hok ⊢
    cases hop : o.tierOperator? tier with
    | none =>
      rw [hop] at hok
      obtain ⟨rs, hrs, heq⟩ := bind_eq_ok.mp hok
      cases heq
      exact ⟨c :: rs, bind_eq_ok.mpr ⟨rs, hrs, rfl⟩, c, t, rs, rfl, rfl, h⟩
    | some found =>
      obtain ⟨op, loc⟩ := found
      rw [hop] at hok
      -- the right operand is what it is without the word
      obtain ⟨rs, hrs, hok⟩ := bind_eq_ok.mp hok
      obtain ⟨⟨right, rest⟩, hright, heq⟩ := bind_eq_ok.mp hok
      cases heq
      exact ⟨_, bind_eq_ok.mpr ⟨rs, hrs, bind_eq_ok.mpr ⟨_, hright, rfl⟩⟩, _, _, rest, rfl, rfl,
        h.between tier op right loc⟩

theorem tierPass_leads (h : Leads k at_ cs ts) (hok : tierPass tier ts = .ok us) :
    ∃ vs, tierPass tier cs = .ok vs ∧ Leads k at_ vs us := by
  obtain ⟨c, t, more, rfl, rfl, hbears⟩ := h
  -- the first tree is an operand, and the pass goes on behind it in either direction
  unfold tierPass at hok ⊢
  split at hok
  · next hside =>
    rw [if_pos hside]
    exact chainRight_leads hbears hok
  · next hside =>
    rw [if_neg hside]
    rw [chainLeft, tierOperator?_of_isOperand hbears.operand] at hok
    rw [chainLeft, tierOperator?_of_isOperand hbears.isOperand]
    exact chainLeft_leads hbears hok

theorem foldlM_tiers_leads {tiers : List Tier} (h : Leads k at_ cs ts)
    (hok : (tiers.map tierPass).foldlM (fun acc pass => pass acc) ts = .ok us) :
    ∃ vs, (tiers.map tierPass).foldlM (fun acc pass => pass acc) cs = .ok vs ∧
      Leads k at_ vs us := by
  induction tiers generalizing cs ts with
  | nil =>
    cases hok
    exact ⟨cs, rfl, h⟩
  | cons tier tiers ih =>
    obtain ⟨mid, hmid, hrest⟩ := bind_eq_ok.mp hok
    obtain ⟨mid', hmid', hleads⟩ := tierPass_leads h hmid
    obtain ⟨vs, hvs, hleads⟩ := ih hleads hrest
    exact ⟨vs, foldlM_passes hmid' hvs, hleads⟩

end Tiers

/-! ## §3 A reserved word in front of a row -/

/-- The operand that is taken with the operators before it is the one that they are applied to. -/
theorem leadingPass_of_takeOperand (h : takeOperand ts = some (t, more))
    (hmore : leadingPass more = .ok us) :
    leadingPass ts = .ok (t :: us) ∧ t.isOperand = true := by
  -- the operators before the operand are applied from the inside out
  fun_induction takeOperand ts generalizing t with
  | case1 => cases h
  | case2 o rest op loc hop ih =>
    obtain ⟨⟨operand, rest'⟩, htake, heq⟩ := Option.map_eq_some_iff.mp h
    cases heq
    obtain ⟨hrest, hoperand⟩ := ih htake
    refine ⟨?_, rfl⟩
    rw [leadingPass, hrest, hop]
    refine bind_eq_ok.mpr ⟨operand :: us, rfl, ?_⟩
    simp only [hoperand, if_true]
    rfl
  | case3 o rest hop ho =>
    cases h
    refine ⟨?_, ho⟩
    rw [leadingPass, hmore, hop]
    rfl
  | case4 => cases h

theorem takeOperand_signed {a : List Tree} (h : Signed Single a) (rest : List Tree) :
    ∃ t, takeOperand (a ++ rest) = some (t, rest) ∧ Lowers t := by
  induction h with
  | bare a h =>
    obtain ⟨t, rfl, ht⟩ := h
    refine ⟨t, ?_, ht⟩
    rw [List.singleton_append, takeOperand, operator?_of_lowers ht]
    simp only [ht.isOperand, if_true]
  | sign op hop i level loc a _ ih =>
    obtain ⟨t, ht, hlowers⟩ := ih
    refine ⟨.unary (.leading op) t loc, ?_, hlowers.sign hop⟩
    rw [List.cons_append, takeOperand]
    simp only [operator?, beq_self_eq_true, if_true, ht, Option.map_some]

/-- The first operand of a row with its signs, and what is left of the row. -/
theorem takeOperand_row {commas : Bool} {n : Nat}
    (h : Row (Signed Single) (Separates commas n) ts) :
    ∃ t more us, takeOperand ts = some (t, more) ∧ leadingPass more = .ok us ∧
      Row Single (Separates commas n) (t :: us) ∧ ∀ x ∈ more, x ∈ ts := by
  cases h with
  | one a ha =>
    -- one operand is all of the row, or an operator follows it
    obtain ⟨t, ht, hlowers⟩ := takeOperand_signed ha []
    rw [List.append_nil] at ht
    exact ⟨t, [], [], ht, rfl, .one [t] ⟨t, rfl, hlowers⟩, by simp⟩
  | more a o rest ha ho h =>
    obtain ⟨t, ht, hlowers⟩ := takeOperand_signed ha (o :: rest)
    obtain ⟨us, hus, hrow⟩ := leadingPass_row h
    have hsep : leadingPass (o :: rest) = .ok (o :: us) := by
      rw [leadingPass, hus]
      cases ho <;> rfl
    exact ⟨t, o :: rest, o :: us, ht, hsep, .more [t] o us ⟨t, rfl, hlowers⟩ ho hrow,
      fun x hx => List.mem_append_right a hx⟩

/-- Up to the tiers, a row and a row behind a reserved word become lists that differ in their first
trees only. -/
theorem untiered_keyword {commas : Bool} (k : Keyword) (i level : Nat) (at_ : Location)
    (h : Row (Signed Kernel) (Separates commas 1) ts) :
    ∃ us vs, (passes.take 7).foldlM (fun acc pass => pass acc) ts = .ok us ∧
      Row Single (Separates commas 1) us ∧
      (passes.take 7).foldlM (fun acc pass => pass acc)
        (.leaf ⟨.keyword k, i, level, at_⟩ :: ts) = .ok vs ∧ Leads k at_ vs us := by
  set word : Tree := .leaf ⟨.keyword k, i, level, at_⟩ with hword
  have hinert := h.inert fun _ => Kernel.inert
  have hstart : ∀ left, ([] : List Tree).head? = some left → left.isAccessor = false := by simp
  obtain ⟨called, hcalled, hcalls⟩ := callPass_row h hstart
  rw [List.reverse_nil, List.nil_append] at hcalled
  have hinert' := hcalls.inert fun _ => Single.inert
  obtain ⟨t, more, us, htake, hmore, hrow, hsub⟩ := takeOperand_row hcalls
  obtain ⟨hled, hoperand⟩ := leadingPass_of_takeOperand htake hmore
  have hhead : ∀ x ∈ Tree.unary (.keyword k) t at_ :: more, x.inert = true :=
    List.forall_mem_cons.mpr ⟨rfl, fun x hx => hinert' x (hsub x hx)⟩
  refine ⟨t :: us, .unary (.keyword k) t at_ :: us,
    untiered_of_inert hinert hcalled hinert' hled, hrow, ?_, _, t, us, rfl, rfl, rfl, hoperand⟩
  -- the word is neither indexed nor called, and its own pass applies it to the operand
  have hmember : memberPass [] (word :: ts) = .ok (word :: ts) := by
    rw [memberPass_push (by simp [hword, lexeme?]), memberPass_of_inert hinert]
    rfl
  have hindex : joinPass (joinAccessor .bracket .index) [] (word :: ts) = word :: ts :=
    joinPass_of_not_group <| List.forall_mem_cons.mpr
      ⟨rfl, fun t ht => isGroup_of_inert (hinert t ht) (by decide)⟩
  have hcall : callPass [] (word :: ts) = word :: called := by
    rw [← hcalled, callPass, joinPass_push (by simp), joinPass_alone]
    exact fun x => joinAccessor_eq_none (.inl rfl)
  have hkeyword : keywordPass (word :: called) = .ok (.unary (.keyword k) t at_ :: more) := by
    rw [keywordPass, keywordPass_of_inert hinert', hword]
    refine bind_eq_ok.mpr ⟨called, rfl, ?_⟩
    simp only [htake]
    rfl
  have hlast : leadingPass (.unary (.keyword k) t at_ :: more)
      = .ok (.unary (.keyword k) t at_ :: us) := by
    rw [leadingPass, hmore]
    rfl
  refine foldlM_passes hmember (foldlM_passes (congrArg Except.ok hindex) ?_)
  refine foldlM_passes (congrArg Except.ok hcall) (foldlM_passes hkeyword ?_)
  refine foldlM_passes (congrArg Except.ok (joinFunction_of_inert hhead)) ?_
  exact foldlM_passes (trailingPass_of_inert hhead) (foldlM_passes hlast rfl)

/-- **A reserved word stays in front.** A row becomes one tree, and behind a reserved word it
becomes the same tree with the word at its far left. -/
theorem runPasses_keyword (i level : Nat) (h : Row (Signed Kernel) (Separates false 1) ts) :
    ∃ t c, runPasses ts = .ok [t] ∧ Lowers t ∧
      runPasses (.leaf ⟨.keyword k, i, level, at_⟩ :: ts) = .ok [c] ∧ Bears k at_ c t := by
  obtain ⟨us, vs, hus, hrow, hvs, hleads⟩ := untiered_keyword k i level at_ h
  have htiers : Tier.all.map Tier.level = List.range' (1 + 1) Tier.all.length := by decide
  obtain ⟨ts', hts', hdone⟩ := foldlM_tiers htiers hrow
  -- both rows are taken through the passes side by side, so each result has one tree
  obtain ⟨cs', hcs', c, t, more, rfl, rfl, hbears⟩ := foldlM_tiers_leads hleads hts'
  obtain ⟨t', heq, hlowers⟩ := hdone.single
  obtain ⟨rfl, rfl⟩ := List.cons.inj heq
  refine ⟨t, c, ?_, hlowers, ?_, hbears⟩
  · rw [runPasses, ← List.take_append_drop 7 passes, List.foldlM_append, hus]
    exact hts'
  · rw [runPasses, ← List.take_append_drop 7 passes, List.foldlM_append, hvs]
    exact hcs'

/-! ## §4 A sign of assignment in front of a row -/

/-- The tiers of operators of expressions. -/
def Tier.expressive : List Tier := Tier.all.dropLast

/-- Only the operators of assignment are looser than those of expressions. -/
theorem Row.single_of_expressive (h : Row Single (Separates false 7) ts) :
    ∃ t, ts = [t] ∧ Lowers t := by
  cases h with
  | one a ha => exact ha
  | more a o ts ha ho h =>
    cases ho with
    | between op tier htier hk hbinary =>
      exact absurd (Operator.level_of_toBinary? htier hbinary) (by omega)
    | comma h => cases h

/-- All passes but the last make a row one tree. -/
theorem expressive_row (h : Row (Signed Kernel) (Separates false 1) ts) :
    ∃ t, (passes.take 7 ++ Tier.expressive.map tierPass).foldlM (fun acc pass => pass acc) ts
      = .ok [t] ∧ Lowers t := by
  obtain ⟨led, hled, hsigns⟩ := untiered_row h
  have htiers : Tier.expressive.map Tier.level = List.range' (1 + 1) Tier.expressive.length := by
    decide
  obtain ⟨us, hus, hrow⟩ := foldlM_tiers htiers hsigns
  obtain ⟨t, rfl, ht⟩ := Row.single_of_expressive hrow
  refine ⟨t, ?_, ht⟩
  rw [List.foldlM_append, hled]
  exact hus

/-- **A sign of assignment parts a row**: if what stands before it becomes one operand by itself,
and behind it there is a row, the sign is between that operand and the tree of the row. -/
theorem runPasses_assignment {before : List Tree} {target : Tree} {op : Operator}
    (htier : op.tier? = some .assignment) (i level : Nat) (loc : Location)
    (hbefore : (passes.take 7 ++ Tier.expressive.map tierPass).foldlM
      (fun acc pass => pass acc) before = .ok [target])
    (htarget : target.isOperand = true) (h : Row (Signed Kernel) (Separates false 1) ts) :
    ∃ t, Lowers t ∧ runPasses (before ++ .leaf ⟨.operator op .dual, i, level, loc⟩ :: ts)
      = .ok [.binary (.between .assignment op) target t loc] := by
  set sign : Tree := .leaf ⟨.operator op .dual, i, level, loc⟩ with hsign
  have hdivider : sign.isDivider = true := by
    cases op <;> first | rfl | cases htier
  have hother : ∀ tier ∈ Tier.expressive, sign.tierOperator? tier = none := by
    intro tier hmem
    cases tier with
    | assignment => exact absurd hmem (by decide)
    | _ => simp [hsign, tierOperator?, operator?, htier]
  have hown : sign.tierOperator? .assignment = some (op, loc) := by
    simp [hsign, tierOperator?, operator?, htier]
  obtain ⟨t, ht, hlowers⟩ := expressive_row h
  refine ⟨t, hlowers, ?_⟩
  -- both sides are reduced by themselves, and the sign is left for the last pass
  have hparted := (splitsAt_foldlM (splitsAt_of_mem_tiers hdivider hother) before ts _).mpr
    ⟨[target], [t], hbefore, ht, rfl⟩
  have hlast : chainRight .assignment ([target] ++ sign :: [t])
      = .ok [.binary (.between .assignment op) target t loc] := by
    rw [List.singleton_append, chainRight.eq_3, tierOperator?_of_isOperand htarget]
    simp only [htarget, if_true, hown, chainRight.eq_2,
      tierOperator?_of_isOperand hlowers.isOperand]
    refine bind_eq_ok.mpr ⟨[t], rfl, bind_eq_ok.mpr ⟨(t, []), ?_, rfl⟩⟩
    rw [takeRight, if_pos hlowers.isOperand]
  have hsplit : passes
      = (passes.take 7 ++ Tier.expressive.map tierPass) ++ [chainRight .assignment] := rfl
  rw [runPasses, hsplit, List.foldlM_append]
  refine bind_eq_ok.mpr ⟨_, hparted, ?_⟩
  exact foldlM_passes hlast rfl

/-! ## §5 Statements that begin so -/

section

variable {x : Text} {i level i' level' : Nat} {loc loc' : Location} {op : Operator}

/-- A name is left alone by the passes. -/
theorem passes_name : (passes.take 7 ++ Tier.expressive.map tierPass).foldlM
    (fun acc pass => pass acc) [.leaf ⟨.name x, i, level, loc⟩]
      = .ok [.leaf ⟨.name x, i, level, loc⟩] := rfl

/-- A reserved word is applied to a name. -/
theorem passes_keyword_name : (passes.take 7 ++ Tier.expressive.map tierPass).foldlM
    (fun acc pass => pass acc)
    [.leaf ⟨.keyword k, i, level, loc⟩, .leaf ⟨.name x, i', level', loc'⟩]
      = .ok [.unary (.keyword k) (.leaf ⟨.name x, i', level', loc'⟩) loc] := rfl

theorem lowerStatement_giveBack (h : Bears .returnWord at_ c t) (ht : Lowers t) :
    ∃ n, lowerStatement c = .ok n := by
  obtain ⟨-, n, hn⟩ := ht
  have hlifts := h.lifts
  refine ⟨.giveBack n at_, ?_⟩
  rw [lowerStatement]
  · unfold lowerSimple
    rw [hlifts]
    exact bind_eq_ok.mpr ⟨n, hn, rfl⟩
  · rintro cs loc rfl
    cases hlifts

theorem lowerStatement_declare (hk : k = .letWord ∨ k = .varWord) (ht : Lowers t) :
    ∃ n, lowerStatement (.binary (.between .assignment .assign)
      (.unary (.keyword k) (.leaf ⟨.name x, i, level, loc⟩) at_) t loc') = .ok n := by
  obtain ⟨-, n, hn⟩ := ht
  refine ⟨.declare x n at_, ?_⟩
  -- the word is moved in front of the whole assignment
  rcases hk with rfl | rfl
  all_goals
    rw [lowerStatement]
    · exact bind_eq_ok.mpr ⟨n, hn, rfl⟩
    · simp

theorem lowerStatement_assign (ht : Lowers t) :
    ∃ n, lowerStatement (.binary (.between .assignment op) (.leaf ⟨.name x, i, level, loc⟩) t loc')
      = .ok n := by
  obtain ⟨-, n, hn⟩ := ht
  rw [lowerStatement]
  · show ∃ m, lowerAssignment op (.leaf ⟨.name x, i, level, loc⟩) t loc' = .ok m
    rw [lowerAssignment, hn]
    cases op.compound? <;> exact ⟨_, rfl⟩
  · simp

end

end Scriptlet
