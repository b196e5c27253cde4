import Scriptlet.Proofs.Reduction
import Scriptlet.Proofs.Rows

/-!
# Passes work on both sides of a separator by themselves

A separator is no operand, no name and nothing that is applied. A pass from the left that meets one
has finished what stands before it, and what it does behind is what it would do at the start: only
the newest tree it has done is ever looked at, and nothing is joined to a separator. A pass from the
right has reduced what stands behind before it comes to the separator, and takes no operand across.
So each pass, and all of them after each other, give on both sides what they give on each alone, and
fail exactly where one of the two sides fails.

An operator of a tier is such a tree to all passes but the one of its own tier.

## Contents

- §1 trees that divide
- §2 passes from the left
- §3 passes from the right
- §4 all passes
-/

namespace Scriptlet

open Scriptlet.Tree

/-! ## §1 Trees that divide -/

namespace Tree

/-- An operator that is not the point and stands neither before nor behind a single operand. -/
def isDivider : Tree → Bool
  | .leaf ⟨.operator op f, _, _, _⟩ => op != .dot && f != .leading && f != .trailing
  | _ => false

/-- What statements and arguments end at: a semicolon or a comma between trees. -/
def isSeparator (t : Tree) : Bool := t.isDivider && (t.isOperator .semicolon || t.isOperator .comma)

end Tree

/-- The pass succeeds around the tree exactly where it succeeds on both sides of it, and then it
leaves what it leaves of each side. -/
def SplitsAt (o : Tree) (pass : Pass) : Prop :=
  ∀ ts vs us, pass (ts ++ o :: vs) = .ok us ↔
    ∃ ls rs, pass ts = .ok ls ∧ pass vs = .ok rs ∧ us = ls ++ o :: rs

variable {o t : Tree} {ts us vs : List Tree}

/-- A divider is an operator between operands, and not the dot. -/
theorem exists_of_isDivider (h : o.isDivider = true) :
    ∃ op f i level loc, o = .leaf ⟨.operator op f, i, level, loc⟩ ∧ op ≠ .dot ∧ f ≠ .leading ∧
      f ≠ .trailing := by
  unfold isDivider at h
  split at h
  · next op f i level loc => exact ⟨op, f, i, level, loc, rfl, by simpa [and_assoc] using h⟩
  · cases h

/-- A divider is no operand. -/
theorem isOperand_of_isDivider (h : o.isDivider = true) : o.isOperand = false := by
  obtain ⟨op, f, i, level, loc, rfl, -⟩ := exists_of_isDivider h
  rfl

theorem isName_of_isDivider (h : o.isDivider = true) : o.isName = false := by
  obtain ⟨op, f, i, level, loc, rfl, -⟩ := exists_of_isDivider h
  rfl

theorem isAccessor_of_isDivider (h : o.isDivider = true) : o.isAccessor = false := by
  obtain ⟨op, f, i, level, loc, rfl, -⟩ := exists_of_isDivider h
  rfl

theorem isGroup_of_isDivider (h : o.isDivider = true) (f : Family) : o.isGroup f = false := by
  obtain ⟨op, g, i, level, loc, rfl, -⟩ := exists_of_isDivider h
  rfl

theorem lexeme?_of_isDivider (h : o.isDivider = true) (f : Fixity) :
    o.lexeme? ≠ some (.operator .dot f) := by
  obtain ⟨op, g, i, level, loc, rfl, hop, -⟩ := exists_of_isDivider h
  simp [lexeme?, hop]

theorem leading_of_isDivider (h : o.isDivider = true) : o.operator? .leading = none := by
  obtain ⟨op, f, i, level, loc, rfl, -, hf, -⟩ := exists_of_isDivider h
  simp [operator?, hf]

theorem trailing_of_isDivider (h : o.isDivider = true) : o.operator? .trailing = none := by
  obtain ⟨op, f, i, level, loc, rfl, -, -, hf⟩ := exists_of_isDivider h
  simp [operator?, hf]

/-- No tier has a separator. -/
theorem tierOperator?_of_isSeparator (h : o.isSeparator = true) (tier : Tier) :
    o.tierOperator? tier = none := by
  obtain ⟨hdivider, hop⟩ : o.isDivider = true ∧
      (o.isOperator .semicolon = true ∨ o.isOperator .comma = true) := by
    simpa [isSeparator] using h
  obtain ⟨op, f, i, level, loc, rfl, -⟩ := exists_of_isDivider hdivider
  obtain rfl | rfl : op = .semicolon ∨ op = .comma := by simpa [isOperator] using hop
  all_goals simp [tierOperator?, operator?, Operator.tier?, Option.filter_eq_none_iff]

/-- A pass that goes from the left splits at a divider when each side goes by itself. -/
theorem splitsAt_of_left {pass : Pass}
    (h : ∀ ts vs, pass (ts ++ o :: vs) = do
      let ls ← pass ts
      let rs ← pass vs
      return ls ++ o :: rs) : SplitsAt o pass := by
  intro ts vs us
  rw [h]
  -- the sides fail independently, so the order in which they run does not matter for success
  constructor
  · intro hok
    obtain ⟨ls, hls, hok⟩ := bind_eq_ok.mp hok
    obtain ⟨rs, hrs, hok⟩ := bind_eq_ok.mp hok
    cases hok
    exact ⟨ls, rs, hls, hrs, rfl⟩
  · rintro ⟨ls, rs, hls, hrs, rfl⟩
    rw [hls, hrs]
    rfl

/-- A pass that goes from the right splits at a divider when each side goes by itself. -/
theorem splitsAt_of_right {pass : Pass}
    (h : ∀ ts vs, pass (ts ++ o :: vs) = do
      let rs ← pass vs
      let ls ← pass ts
      return ls ++ o :: rs) : SplitsAt o pass := by
  intro ts vs us
  rw [h]
  constructor
  · intro hok
    obtain ⟨rs, hrs, hok⟩ := bind_eq_ok.mp hok
    obtain ⟨ls, hls, hok⟩ := bind_eq_ok.mp hok
    cases hok
    exact ⟨ls, rs, hls, hrs, rfl⟩
  · rintro ⟨ls, rs, hls, hrs, rfl⟩
    rw [hls, hrs]
    rfl

/-! ## §2 Passes from the left -/

section Left

variable {done : List Tree}

/-- The member pass goes on over what is not the dot. -/
theorem memberPass_push {rest : List Tree} (h : ∀ f, t.lexeme? ≠ some (.operator .dot f)) :
    memberPass done (t :: rest) = memberPass (t :: done) rest := by
  rw [memberPass]
  split
  · next f hf => exact absurd hf (h f)
  · rfl

/-- What was done before a tree that divides is not looked at. -/
theorem memberPass_behind_divider (ho : o.isDivider = true) (before done ts : List Tree) :
    memberPass (done ++ o :: before) ts
      = (memberPass done ts).map (before.reverse ++ o :: ·) := by
  -- the newest tree is read in no other case than behind a point
  fun_induction memberPass done ts with
  | case1 done => simp [memberPass, Except.map]
  | case2 t rest f hf =>
    rw [memberPass, hf]
    simp only [List.nil_append, isOperand_of_isDivider ho]
    rfl
  | case3 t f hf refuse left done hleft =>
    rw [List.cons_append, memberPass, hf]
    simp only [hleft, if_true]
    rfl
  | case4 t f hf left done hleft p rest hp ih =>
    rw [List.cons_append, memberPass, hf]
    simp only [hleft, hp, if_true]
    exact ih
  | case5 t f hf refuse left done hleft p rest hp =>
    rw [List.cons_append, memberPass, hf]
    simp only [hleft, hp, if_true]
    rfl
  | case6 t rest f hf refuse left done hleft =>
    rw [List.cons_append, memberPass, hf]
    simp only [hleft]
    rfl
  | case7 done t rest hf ih =>
    rw [memberPass_push fun f h => hf f h]
    exact ih

/-- The member pass splits at a divider, whatever has been done before it. -/
theorem memberPass_divider (ho : o.isDivider = true) (done ts vs : List Tree) :
    memberPass done (ts ++ o :: vs) = do
      let ls ← memberPass done ts
      let rs ← memberPass [] vs
      return ls ++ o :: rs := by
  fun_induction memberPass done ts with
  | case1 done =>
    rw [List.nil_append, memberPass_push (lexeme?_of_isDivider ho)]
    exact memberPass_behind_divider ho done [] vs
  | case2 t rest f hf =>
    rw [List.cons_append, memberPass, hf]
    rfl
  | case3 t f hf refuse left done hleft =>
    -- a property has to be a name, so the tree that divides is none
    rw [List.cons_append, List.nil_append, memberPass, hf]
    simp only [hleft, isName_of_isDivider ho, if_true]
    rfl
  | case4 t f hf left done hleft p rest hp ih =>
    rw [List.cons_append, List.cons_append, memberPass, hf]
    simp only [hleft, hp, if_true]
    exact ih
  | case5 t f hf refuse left done hleft p rest hp =>
    rw [List.cons_append, List.cons_append, memberPass, hf]
    simp only [hleft, hp, if_true]
    rfl
  | case6 t rest f hf refuse left done hleft =>
    rw [List.cons_append, memberPass, hf]
    simp only [hleft]
    rfl
  | case7 done t rest hf ih =>
    rw [List.cons_append, memberPass_push fun f h => hf f h]
    exact ih

section Join

variable {join : Tree → Tree → Option Tree}

/-- Only the newest tree that is done is joined to. -/
theorem joinPass_newest (x : Tree) (done before ts : List Tree) :
    joinPass join (x :: (done ++ before)) ts
      = before.reverse ++ joinPass join (x :: done) ts := by
  induction ts generalizing x done with
  | nil => simp [joinPass]
  | cons t ts ih =>
    rw [joinPass, joinPass]
    cases join x t with
    | some joined => exact ih joined done
    | none => exact ih t (x :: done)

/-- A tree that is joined to nothing before it parts the work of the pass. -/
theorem joinPass_parted (h : ∀ x, join x t = none) (done ts vs : List Tree) :
    joinPass join done (ts ++ t :: vs) = joinPass join done ts ++ joinPass join [t] vs := by
  induction ts generalizing done with
  | nil =>
    rw [List.nil_append, joinPass_push fun x _ => h x, joinPass.eq_1]
    -- nothing is joined to the separator, neither on its left nor on its right
    exact joinPass_newest t [] done vs
  | cons u ts ih =>
    rw [List.cons_append, joinPass.eq_def, joinPass.eq_def join done (u :: ts)]
    cases done with
    | nil => exact ih [u]
    | cons x done =>
      simp only
      cases join x u with
      | some joined => exact ih (joined :: done)
      | none => exact ih (u :: x :: done)

/-- What nothing is joined to stays in front of what the pass does behind it. -/
theorem joinPass_alone (h : ∀ x, join o x = none) (vs : List Tree) :
    joinPass join [o] vs = o :: joinPass join [] vs := by
  cases vs with
  | nil => rfl
  | cons v vs =>
    rw [joinPass_push fun x hx => Option.some.inj hx ▸ h v]
    exact joinPass_newest v [] [o] vs

/-- A pass that joins neighbours splits where nothing joins the divider. -/
theorem splitsAt_joinPass (hleft : ∀ x, join x o = none) (hright : ∀ x, join o x = none) :
    SplitsAt o fun ts => .ok (joinPass join [] ts) := by
  refine splitsAt_of_left fun ts vs => ?_
  rw [joinPass_parted hleft, joinPass_alone hright]
  rfl

end Join

/-- The trailing pass does not look behind a divider. -/
theorem trailingPass_behind_divider (ho : o.isDivider = true) (before done ts : List Tree) :
    trailingPass (done ++ o :: before) ts
      = (trailingPass done ts).map (before.reverse ++ o :: ·) := by
  fun_induction trailingPass done ts with
  | case1 done => simp [trailingPass, Except.map]
  | case2 done t rest hop ih =>
    rw [trailingPass, hop]
    exact ih
  | case3 t rest op loc hop left done hleft ih =>
    rw [List.cons_append, trailingPass, hop]
    simp only [hleft, if_true]
    exact ih
  | case4 t rest op loc hop left done hleft =>
    rw [List.cons_append, trailingPass, hop]
    simp only [hleft]
    rfl
  | case5 t rest op loc hop =>
    rw [List.nil_append, trailingPass, hop]
    simp only [isOperand_of_isDivider ho]
    rfl

/-- The trailing pass splits at a divider, whatever has been done before it. -/
theorem trailingPass_divider (ho : o.isDivider = true) (done ts vs : List Tree) :
    trailingPass done (ts ++ o :: vs) = do
      let ls ← trailingPass done ts
      let rs ← trailingPass [] vs
      return ls ++ o :: rs := by
  fun_induction trailingPass done ts with
  -- the separator starts the row of what is done afresh
  | case1 done =>
    rw [List.nil_append, trailingPass, trailing_of_isDivider ho]
    exact trailingPass_behind_divider ho done [] vs
  | case2 done t rest hop ih =>
    rw [List.cons_append, trailingPass, hop]
    exact ih
  | case3 t rest op loc hop left done hleft ih =>
    rw [List.cons_append, trailingPass, hop]
    simp only [hleft, if_true]
    exact ih
  | case4 t rest op loc hop left done hleft =>
    rw [List.cons_append, trailingPass, hop]
    simp only [hleft]
    rfl
  | case5 t rest op loc hop =>
    rw [List.cons_append, trailingPass, hop]
    rfl

section Chain

variable {tier : Tier}

/-- Only the newest tree that is done is taken as an operand. -/
theorem chainLeft_before {before : List Tree} (done ts : List Tree)
    (h : done = [] → ∀ x ∈ before.head?, x.isOperand = false) :
    chainLeft tier (done ++ before) ts
      = (chainLeft tier done ts).map (before.reverse ++ ·) := by
  fun_induction chainLeft tier done ts with
  | case1 done => simp [chainLeft, Except.map]
  | case2 done t rest hop ih =>
    rw [chainLeft, hop]
    exact ih fun hnil => absurd hnil (List.cons_ne_nil t done)
  | case3 t rest op loc hop =>
    rw [List.nil_append, chainLeft, hop]
    -- with nothing done the left operand would be one of the trees before
    cases before with
    | nil => rfl
    | cons x before =>
      simp only [h rfl x rfl]
      rfl
  | case4 t op loc hop refuse left done hleft =>
    rw [List.cons_append, chainLeft, hop]
    simp only [hleft, if_true]
    rfl
  | case5 t op loc hop left done hleft right rest hright ih =>
    rw [List.cons_append, chainLeft, hop]
    simp only [hleft, hright, if_true]
    exact ih fun hnil => absurd hnil (List.cons_ne_nil _ done)
  | case6 t op loc hop refuse left done hleft right rest hright =>
    rw [List.cons_append, chainLeft, hop]
    simp only [hleft, hright, if_true]
    rfl
  | case7 t rest op loc hop refuse left done hleft =>
    rw [List.cons_append, chainLeft, hop]
    simp only [hleft]
    rfl

/-- A tier to the left splits at what is neither an operand nor of the tier. -/
theorem chainLeft_parted (ho : o.isOperand = false) (hother : o.tierOperator? tier = none)
    (done ts vs : List Tree) :
    chainLeft tier done (ts ++ o :: vs) = do
      let ls ← chainLeft tier done ts
      let rs ← chainLeft tier [] vs
      return ls ++ o :: rs := by
  fun_induction chainLeft tier done ts with
  | case1 done =>
    rw [List.nil_append, chainLeft, hother]
    have hbefore : chainLeft tier ([] ++ o :: done) vs = _ :=
      chainLeft_before [] vs fun _ x hx => Option.some.inj hx ▸ ho
    rw [List.nil_append, List.reverse_cons] at hbefore
    rw [hbefore]
    simp only [List.append_assoc, List.singleton_append]
    rfl
  | case2 done t rest hop ih =>
    rw [List.cons_append, chainLeft, hop]
    exact ih
  | case3 t rest op loc hop =>
    rw [List.cons_append, chainLeft, hop]
    rfl
  | case4 t op loc hop refuse left done hleft =>
    -- the tree that divides is no right operand
    rw [List.cons_append, List.nil_append, chainLeft, hop]
    simp only [hleft, ho, if_true]
    rfl
  | case5 t op loc hop left done hleft right rest hright ih =>
    rw [List.cons_append, List.cons_append, chainLeft, hop]
    simp only [hleft, hright, if_true]
    exact ih
  | case6 t op loc hop refuse left done hleft right rest hright =>
    rw [List.cons_append, List.cons_append, chainLeft, hop]
    simp only [hleft, hright, if_true]
    rfl
  | case7 t rest op loc hop refuse left done hleft =>
    rw [List.cons_append, chainLeft, hop]
    simp only [hleft]
    rfl

end Chain

end Left

/-! ## §3 Passes from the right -/

/-- An operand is not taken from behind a tree that divides. -/
theorem takeOperand_divider (ho : o.isDivider = true) (ts vs : List Tree) :
    takeOperand (ts ++ o :: vs)
      = (takeOperand ts).map fun (operand, more) => (operand, more ++ o :: vs) := by
  fun_induction takeOperand ts with
  | case1 =>
    rw [List.nil_append, takeOperand, leading_of_isDivider ho]
    simp only [isOperand_of_isDivider ho]
    rfl
  | case2 t rest op loc hop ih =>
    rw [List.cons_append, takeOperand, hop]
    -- the sign before is applied to what is taken behind it
    simp only [ih, Option.map_map]
    rfl
  | case3 t rest hop ht =>
    rw [List.cons_append, takeOperand, hop]
    simp only [ht, if_true, Option.map_some]
  | case4 t rest hop ht =>
    rw [List.cons_append, takeOperand, hop]
    simp only [ht]
    rfl

/-- The keyword pass splits at a divider. -/
theorem keywordPass_divider (ho : o.isDivider = true) (ts vs : List Tree) :
    keywordPass (ts ++ o :: vs) = do
      let rs ← keywordPass vs
      let ls ← keywordPass ts
      return ls ++ o :: rs := by
  induction ts with
  | nil =>
    obtain ⟨op, f, i, level, loc, rfl, -⟩ := exists_of_isDivider ho
    rfl
  | cons t ts ih =>
    rw [List.cons_append, keywordPass, ih, keywordPass]
    simp only [bind_assoc, pure_bind]
    refine bind_congr fun rs => bind_congr fun ls => ?_
    split
    · rw [takeOperand_divider ho]
      cases takeOperand ls <;> rfl
    · rfl

/-- The leading pass splits at a divider. -/
theorem leadingPass_divider (ho : o.isDivider = true) (ts vs : List Tree) :
    leadingPass (ts ++ o :: vs) = do
      let rs ← leadingPass vs
      let ls ← leadingPass ts
      return ls ++ o :: rs := by
  induction ts with
  | nil =>
    rw [List.nil_append, leadingPass, leadingPass, leading_of_isDivider ho]
    rfl
  | cons t ts ih =>
    rw [List.cons_append, leadingPass, ih, leadingPass]
    simp only [bind_assoc, pure_bind]
    refine bind_congr fun rs => bind_congr fun ls => ?_
    -- an operator before the separator finds no operand behind it
    cases t.operator? .leading with
    | none => rfl
    | some found =>
      cases ls with
      | nil =>
        simp only [List.nil_append, isOperand_of_isDivider ho]
        rfl
      | cons right more =>
        simp only [List.cons_append]
        split <;> rfl

section Chain

variable {tier : Tier}

/-- The right operand is looked for before the divider only. -/
theorem takeRight_parted (ho : o.isOperand = false) (op : Operator) (loc : Location)
    (ts vs : List Tree) :
    takeRight tier op loc (ts ++ o :: vs)
      = (takeRight tier op loc ts).map fun (right, more) => (right, more ++ o :: vs) := by
  cases ts with
  | nil =>
    rw [List.nil_append, takeRight, ho]
    rfl
  | cons t ts =>
    rw [List.cons_append, takeRight, takeRight]
    split <;> rfl

/-- A tier to the right passes over what is neither an operand nor of the tier. -/
theorem chainRight_alone (ho : o.isOperand = false) (hother : o.tierOperator? tier = none)
    (vs : List Tree) : chainRight tier (o :: vs) = (chainRight tier vs).map (o :: ·) := by
  cases vs with
  | nil =>
    rw [chainRight.eq_2, hother]
    rfl
  | cons v vs =>
    rw [chainRight.eq_3, hother]
    simp only [ho, Bool.false_eq_true, if_false]
    rfl

/-- A tier to the right splits at what is neither an operand nor of the tier. -/
theorem chainRight_parted (ho : o.isOperand = false) (hother : o.tierOperator? tier = none)
    (ts vs : List Tree) :
    chainRight tier (ts ++ o :: vs) = do
      let rs ← chainRight tier vs
      let ls ← chainRight tier ts
      return ls ++ o :: rs := by
  fun_induction chainRight tier ts with
  | case1 => exact chainRight_alone ho hother vs
  | case2 t rest op loc hop ih =>
    rw [List.cons_append, chainRight.eq_def]
    simp only [hop, ih, bind_assoc, pure_bind]
    refine bind_congr fun rs => bind_congr fun ls => ?_
    rw [takeRight_parted ho]
    cases takeRight tier op loc ls <;> rfl
  | case3 t hop =>
    -- the last tree stays, since the tree that divides is no operator of the tier
    rw [List.singleton_append, chainRight.eq_3, hop]
    simp only [hother, ite_self, chainRight_alone ho hother]
    cases chainRight tier vs <;> rfl
  | case4 t hnone p rest op loc hop ih =>
    rw [List.cons_append, List.cons_append, chainRight.eq_3, hnone]
    simp only [hop, ih, bind_assoc, pure_bind]
    refine bind_congr fun rs => bind_congr fun ls => ?_
    rw [takeRight_parted ho]
    cases takeRight tier op loc ls <;> rfl
  | case5 t hnone p rest hop ih =>
    rw [List.cons_append] at ih
    rw [List.cons_append, List.cons_append, chainRight.eq_3, hnone]
    simp only [hop, ih, bind_assoc, pure_bind]
    rfl

end Chain

/-! ## §4 All passes -/

theorem splitsAt_memberPass (ho : o.isDivider = true) : SplitsAt o (memberPass []) :=
  splitsAt_of_left (memberPass_divider ho [])

theorem splitsAt_trailingPass (ho : o.isDivider = true) : SplitsAt o (trailingPass []) :=
  splitsAt_of_left (trailingPass_divider ho [])

theorem splitsAt_accessorPass (ho : o.isDivider = true) (family : Family) (form : BinaryForm) :
    SplitsAt o fun ts => .ok (joinPass (joinAccessor family form) [] ts) := by
  apply splitsAt_joinPass
  · intro x
    simp [joinAccessor, isGroup_of_isDivider ho]
  · intro x
    simp [joinAccessor, isAccessor_of_isDivider ho]

theorem splitsAt_functionPass (ho : o.isDivider = true) :
    SplitsAt o fun ts => .ok (joinPass joinFunction [] ts) := by
  apply splitsAt_joinPass <;> intro x <;> simp [joinFunction, isGroup_of_isDivider ho]

/-- Every tier splits at what is neither an operand nor of the tier. -/
theorem splitsAt_tierPass (ho : o.isOperand = false) {tier : Tier}
    (hother : o.tierOperator? tier = none) : SplitsAt o (tierPass tier) := by
  unfold tierPass
  split
  · exact splitsAt_of_right (chainRight_parted ho hother)
  · exact splitsAt_of_left (chainLeft_parted ho hother [])

/-- What divides each of some passes divides their composition. -/
theorem splitsAt_foldlM {ps : List Pass} (h : ∀ pass ∈ ps, SplitsAt o pass) :
    SplitsAt o fun ts => ps.foldlM (fun acc pass => pass acc) ts := by
  induction ps with
  | nil =>
    intro ts vs us
    constructor
    · rintro ⟨⟩
      exact ⟨ts, vs, rfl, rfl, rfl⟩
    · rintro ⟨_, _, ⟨⟩, ⟨⟩, rfl⟩
      rfl
  | cons pass ps ih =>
    obtain ⟨hpass, hps⟩ := List.forall_mem_cons.mp h
    intro ts vs us
    constructor
    · intro hok
      obtain ⟨mid, hmid, hok⟩ := bind_eq_ok.mp hok
      obtain ⟨ls, rs, hls, hrs, rfl⟩ := (hpass ts vs mid).mp hmid
      obtain ⟨ls', rs', hls', hrs', rfl⟩ := (ih hps ls rs us).mp hok
      exact ⟨ls', rs', foldlM_passes hls hls', foldlM_passes hrs hrs', rfl⟩
    · rintro ⟨ls', rs', hls', hrs', rfl⟩
      obtain ⟨ls, hls, hls'⟩ := bind_eq_ok.mp hls'
      obtain ⟨rs, hrs, hrs'⟩ := bind_eq_ok.mp hrs'
      exact foldlM_passes ((hpass ts vs _).mpr ⟨ls, rs, hls, hrs, rfl⟩)
        ((ih hps ls rs _).mpr ⟨ls', rs', hls', hrs', rfl⟩)

/-- An operator that divides divides every pass before those of the tiers. -/
theorem splitsAt_of_mem_take (ho : o.isDivider = true) :
    ∀ pass ∈ passes.take 7, SplitsAt o pass := by
  intro pass hpass
  simp only [passes, List.cons_append, List.take_succ_cons, List.take_zero, List.mem_cons,
    List.not_mem_nil, or_false] at hpass
  rcases hpass with rfl | rfl | rfl | rfl | rfl | rfl | rfl
  · exact splitsAt_memberPass ho
  · exact splitsAt_accessorPass ho .bracket .index
  · exact splitsAt_accessorPass ho .parenthesis .call
  · exact splitsAt_of_right (keywordPass_divider ho)
  · exact splitsAt_functionPass ho
  · exact splitsAt_trailingPass ho
  · exact splitsAt_of_right (leadingPass_divider ho)

/-- To the passes of all tiers but its own an operator is such a tree. -/
theorem splitsAt_of_mem_tiers (ho : o.isDivider = true) {tiers : List Tier}
    (hother : ∀ tier ∈ tiers, o.tierOperator? tier = none) :
    ∀ pass ∈ passes.take 7 ++ tiers.map tierPass, SplitsAt o pass := by
  intro pass hpass
  rcases List.mem_append.mp hpass with hpass | hpass
  · exact splitsAt_of_mem_take ho pass hpass
  · obtain ⟨tier, htier, rfl⟩ := List.mem_map.mp hpass
    exact splitsAt_tierPass (isOperand_of_isDivider ho) (hother tier htier)

/-- Groups are reduced on each side of a divider by themselves. -/
theorem reduceGroups_divider (ho : o.isDivider = true) (ts vs : List Tree) :
    reduceGroups (ts ++ o :: vs) = do
      let ls ← reduceGroups ts
      let rs ← reduceGroups vs
      return ls ++ o :: rs := by
  -- a tree that divides is no group, so it has no contents to reduce
  have hleaf : reduceGroup o = .ok o := by
    obtain ⟨op, f, i, level, loc, rfl, -⟩ := exists_of_isDivider ho
    rw [reduceGroup]
    intro f cs loc h
    cases h
  induction ts with
  | nil =>
    show reduceGroups (o :: vs) = (reduceGroups vs).map (o :: ·)
    rw [reduceGroups, hleaf]
    rfl
  | cons t ts ih =>
    rw [List.cons_append, reduceGroups, ih, reduceGroups]
    simp only [bind_assoc, pure_bind, List.cons_append]

/-- Reduction works on both sides of a separator by itself: it succeeds where it succeeds on both,
and gives what it gives on each with the separator between. -/
theorem reduce_append_separator {s : Tree} (hs : s.isSeparator = true) (as bs cs : List Tree) :
    reduce (as ++ s :: bs) = .ok cs ↔
      ∃ as' bs', reduce as = .ok as' ∧ reduce bs = .ok bs' ∧ cs = as' ++ s :: bs' := by
  have hdivider : s.isDivider = true := (Bool.and_eq_true _ _ ▸ hs).1
  -- every pass parts at the separator, the tiers too, since none of them owns it
  have hpasses : SplitsAt s runPasses := by
    apply splitsAt_foldlM
    exact splitsAt_of_mem_tiers hdivider fun tier _ => tierOperator?_of_isSeparator hs tier
  have hgroups : SplitsAt s reduceGroups := splitsAt_of_left (reduceGroups_divider hdivider)
  constructor
  · intro hok
    obtain ⟨inner, hinner, hok⟩ := bind_eq_ok.mp hok
    obtain ⟨ls, rs, hls, hrs, rfl⟩ := (hgroups as bs inner).mp hinner
    obtain ⟨as', bs', has, hbs, rfl⟩ := (hpasses ls rs cs).mp hok
    exact ⟨as', bs', bind_eq_ok.mpr ⟨ls, hls, has⟩, bind_eq_ok.mpr ⟨rs, hrs, hbs⟩, rfl⟩
  · rintro ⟨as', bs', has, hbs, rfl⟩
    obtain ⟨ls, hls, has⟩ := bind_eq_ok.mp has
    obtain ⟨rs, hrs, hbs⟩ := bind_eq_ok.mp hbs
    exact bind_eq_ok.mpr ⟨ls ++ s :: rs, (hgroups as bs _).mpr ⟨ls, rs, hls, hrs, rfl⟩,
      (hpasses ls rs _).mpr ⟨as', bs', has, hbs, rfl⟩⟩

/-- The two statements of `a+1;-b`, each reduced by itself. -/
theorem reduce_two_statements :
    let semicolon := leafAt 3 (.operator .semicolon .separator)
    semicolon.isSeparator = true ∧
      reduce ([leafAt 0 (.name "a"), leafAt 1 (.operator .plus .dual), leafAt 2 (.number "1")]
          ++ semicolon :: [leafAt 4 (.operator .minus .leading), leafAt 5 (.name "b")])
        = .ok [.binary (.between .additive .plus) (leafAt 0 (.name "a")) (leafAt 2 (.number "1"))
              ⟨1, 1, 2⟩,
            semicolon, .unary (.leading .minus) (leafAt 5 (.name "b")) ⟨4, 1, 5⟩] :=
  ⟨rfl, (reduce_append_separator rfl _ _ _).mpr ⟨_, _, rfl, rfl, rfl⟩⟩

end Scriptlet
