import Scriptlet.Forest.Loose
import Scriptlet.Proofs.Reduction

/-!
# Reduced forests are sound

Each pass is about leaves of one kind: points, reserved words, operators behind or before an
operand, or the operators of a tier. A pass that succeeds has used up all leaves of its kind, and no
pass makes new leaves. Behind the last pass there is therefore no leaf left of any of these kinds.
What stands inside constructs had to be an operand when the construct was put together, so it is
sound as well.

Both are cases of one property of passes, `Clears`: whatever joining keeps is kept, and the kind of
the pass is gone.

## Contents

- §1 what joining keeps
- §2 passes from the left
- §3 passes from the right
- §4 all passes
- §5 sound operands
- §6 the whole reduction
-/

namespace Scriptlet

open Scriptlet.Tree

/-! ## §1 What joining keeps -/

/-- What is joined has the property if its parts have it. -/
def JoinStable (P : Tree → Prop) : Prop :=
  ∀ parts joined, Joins parts joined → (∀ t ∈ parts, P t) → P joined

/-- A pass that succeeds leaves no tree of the kind, and keeps what joining keeps. -/
def Clears (kind : Tree → Bool) (pass : Pass) : Prop :=
  ∀ P : Tree → Prop, JoinStable P → ∀ ts us, pass ts = .ok us → (∀ t ∈ ts, P t) →
    ∀ u ∈ us, P u ∧ kind u = false

/-- Only leaves are of the kind. -/
def OnLeaves (kind : Tree → Bool) : Prop := ∀ parts joined, Joins parts joined → kind joined = false

/-- The tree is a reserved word. -/
def Tree.isKeyword : Tree → Bool
  | .leaf ⟨.keyword _, _, _, _⟩ => true
  | _ => false

/-- The tree is an operator with the fixity. -/
def Tree.hasFixity (fixity : Fixity) (t : Tree) : Bool := (t.operator? fixity).isSome

/-- The tree is an operator of the tier, between operands. -/
def Tree.isOfTier (tier : Tier) (t : Tree) : Bool := (t.tierOperator? tier).isSome

/-- Only leaves are operators. -/
theorem onLeaves_isOperator (op : Operator) : OnLeaves (Tree.isOperator op) := by
  intro parts joined h
  cases h <;> rfl

theorem onLeaves_isKeyword : OnLeaves Tree.isKeyword := by
  intro parts joined h
  cases h <;> rfl

theorem onLeaves_hasFixity (fixity : Fixity) : OnLeaves (Tree.hasFixity fixity) := by
  intro parts joined h
  cases h <;> rfl

/-- Only leaves are of a tier. -/
theorem onLeaves_isOfTier (tier : Tier) : OnLeaves (Tree.isOfTier tier) := by
  intro parts joined h
  cases h <;> rfl

theorem onLeaves_nothing : OnLeaves fun _ => false := fun _ _ _ => rfl

variable {P : Tree → Prop} {kind : Tree → Bool} {done ts us : List Tree} {t : Tree}

/-- What is kept when trees are joined, is kept with the absence of a kind of leaf beside it. -/
theorem JoinStable.and (hP : JoinStable P) (hkind : OnLeaves kind) :
    JoinStable fun t => P t ∧ kind t = false :=
  fun parts joined h hparts => ⟨hP parts joined h fun t ht => (hparts t ht).1, hkind parts joined h⟩

theorem JoinStable.two {joined : Tree} {x y : Tree} (hP : JoinStable P) (h : Joins [x, y] joined)
    (hx : P x) (hy : P y) : P joined :=
  hP _ _ h (by simp [hx, hy])

theorem JoinStable.three {joined : Tree} {x y z : Tree} (hP : JoinStable P)
    (h : Joins [x, y, z] joined) (hx : P x) (hy : P y) (hz : P z) : P joined :=
  hP _ _ h (by simp [hx, hy, hz])

/-! ## §2 Passes from the left -/

/-- A leaf is the dot when its lexeme says so. -/
theorem isOperator_dot_eq (t : Tree) :
    t.isOperator .dot = true ↔ ∃ f, t.lexeme? = some (.operator .dot f) := by
  cases t with
  | leaf u =>
    obtain ⟨x, i, level, loc⟩ := u
    cases x <;> simp [Tree.isOperator, lexeme?]
  | _ => simp [Tree.isOperator, lexeme?]

/-- The member pass leaves no dot. -/
theorem clears_memberPass : Clears (Tree.isOperator .dot) (memberPass []) := by
  intro P hP
  have hall : ∀ done ts us, memberPass done ts = .ok us →
      (∀ t ∈ done, P t ∧ t.isOperator .dot = false) → (∀ t ∈ ts, P t) →
      ∀ u ∈ us, P u ∧ u.isOperator .dot = false := by
    intro done ts us h hdone hts
    fun_induction memberPass done ts with
    -- of the cases that succeed, one joins and the others move a tree over
    | case1 done =>
      cases h
      exact fun u hu => hdone u (List.mem_reverse.mp hu)
    | case2 | case3 | case5 | case6 => cases h
    | case4 t f hdot left done hleft property rest hname ih =>
      simp only [List.forall_mem_cons] at hdone hts
      have hjoined := hP.three (.member hdot hleft hname) hdone.1.1 hts.1 hts.2.1
      exact ih h (List.forall_mem_cons.mpr ⟨⟨hjoined, rfl⟩, hdone.2⟩) hts.2.2
    | case7 done t rest hother ih =>
      simp only [List.forall_mem_cons] at hts
      have hkind : t.isOperator .dot = false := by
        rw [Bool.eq_false_iff, ne_eq, isOperator_dot_eq]
        rintro ⟨f, hdot⟩
        exact hother f hdot
      exact ih h (List.forall_mem_cons.mpr ⟨⟨hts.1, hkind⟩, hdone⟩) hts.2
  exact fun ts us h hts => hall [] ts us h (by simp) hts

/-- Joining by itself is about no leaves. -/
theorem clears_joinPass {join : Tree → Tree → Option Tree}
    (hjoin : ∀ left t joined, join left t = some joined → Joins [left, t] joined) :
    Clears (fun _ => false) fun ts => .ok (joinPass join [] ts) := by
  intro P hP
  have hall : ∀ done ts, (∀ t ∈ done, P t) → (∀ t ∈ ts, P t) →
      ∀ u ∈ joinPass join done ts, P u := by
    intro done ts hdone hts
    -- the pass never fails; a tree is joined to the newest one or becomes the newest
    fun_induction joinPass join done ts with
    | case1 done => exact fun u hu => hdone u (List.mem_reverse.mp hu)
    | case2 t rest ih =>
      simp only [List.forall_mem_cons] at hts
      exact ih (by simpa using hts.1) hts.2
    | case3 t rest left done joined heq ih =>
      simp only [List.forall_mem_cons] at hdone hts
      have hjoined := hP.two (hjoin left t joined heq) hdone.1 hts.1
      exact ih (List.forall_mem_cons.mpr ⟨hjoined, hdone.2⟩) hts.2
    | case4 t rest left done _ ih =>
      simp only [List.forall_mem_cons] at hts
      exact ih (List.forall_mem_cons.mpr ⟨hts.1, hdone⟩) hts.2
  intro ts us h hts
  cases h
  exact fun u hu => ⟨hall [] ts (by simp) hts u hu, rfl⟩

/-- The trailing pass leaves no operator that stands behind its operand. -/
theorem clears_trailingPass : Clears (Tree.hasFixity .trailing) (trailingPass []) := by
  intro P hP
  have hall : ∀ done ts us, trailingPass done ts = .ok us →
      (∀ t ∈ done, P t ∧ t.hasFixity .trailing = false) → (∀ t ∈ ts, P t) →
      ∀ u ∈ us, P u ∧ u.hasFixity .trailing = false := by
    intro done ts us h hdone hts
    fun_induction trailingPass done ts with
    -- a tree is either no trailing operator and stays, or it is joined to its operand
    | case1 done =>
      cases h
      exact fun u hu => hdone u (List.mem_reverse.mp hu)
    | case2 done t rest hop ih =>
      simp only [List.forall_mem_cons] at hts
      have hkind : t.hasFixity .trailing = false := by rw [Tree.hasFixity, hop]; rfl
      exact ih h (List.forall_mem_cons.mpr ⟨⟨hts.1, hkind⟩, hdone⟩) hts.2
    | case3 t rest op loc hop left done hleft ih =>
      simp only [List.forall_mem_cons] at hdone hts
      have hjoined := hP.two (.trailing hop hleft) hdone.1.1 hts.1
      exact ih h (List.forall_mem_cons.mpr ⟨⟨hjoined, rfl⟩, hdone.2⟩) hts.2
    | case4 | case5 => cases h
  exact fun ts us h hts => hall [] ts us h (by simp) hts

/-- A pass that chains to the left leaves no operator of its tier. -/
theorem clears_chainLeft (tier : Tier) : Clears (Tree.isOfTier tier) (chainLeft tier []) := by
  intro P hP
  have hall : ∀ done ts us, chainLeft tier done ts = .ok us →
      (∀ t ∈ done, P t ∧ t.isOfTier tier = false) → (∀ t ∈ ts, P t) →
      ∀ u ∈ us, P u ∧ u.isOfTier tier = false := by
    intro done ts us h hdone hts
    fun_induction chainLeft tier done ts with
    -- an operator of the tier never stays: it is joined between its operands, or the pass fails
    | case1 done =>
      cases h
      exact fun u hu => hdone u (List.mem_reverse.mp hu)
    | case2 done t rest hop ih =>
      simp only [List.forall_mem_cons] at hts
      have hkind : t.isOfTier tier = false := by rw [Tree.isOfTier, hop]; rfl
      exact ih h (List.forall_mem_cons.mpr ⟨⟨hts.1, hkind⟩, hdone⟩) hts.2
    | case3 | case4 | case6 | case7 => cases h
    | case5 t op loc hop left done hleft right rest hright ih =>
      simp only [List.forall_mem_cons] at hdone hts
      have hjoined := hP.three (.between hop hleft hright) hdone.1.1 hts.1 hts.2.1
      exact ih h (List.forall_mem_cons.mpr ⟨⟨hjoined, rfl⟩, hdone.2⟩) hts.2.2
  exact fun ts us h hts => hall [] ts us h (by simp) hts

/-! ## §3 Passes from the right -/

/-- The operand that is taken is one of the trees, and an operand. -/
theorem JoinStable.takeOperand {x : Tree} (hP : JoinStable P) (h : takeOperand ts = some (x, us))
    (hts : ∀ t ∈ ts, P t) : P x ∧ x.isOperand = true ∧ ∀ u ∈ us, u ∈ ts := by
  fun_induction Scriptlet.takeOperand ts generalizing x us with
  | case1 | case4 => cases h
  | case2 t rest op loc hop ih =>
    simp only [List.forall_mem_cons] at hts
    -- the signs are taken from the outside in, and only the last has the operand itself
    obtain ⟨⟨inner, more⟩, hinner, heq⟩ := Option.map_eq_some_iff.mp h
    cases heq
    obtain ⟨hx, hoperand, hmore⟩ := ih hinner hts.2
    exact ⟨hP.two (.leading hop hoperand) hts.1 hx, rfl,
      fun u hu => List.mem_cons_of_mem _ (hmore u hu)⟩
  | case3 t rest _ hoperand =>
    cases h
    exact ⟨hts t (by simp), hoperand, fun u hu => List.mem_cons_of_mem _ hu⟩

/-- The keyword pass leaves no keyword. -/
theorem clears_keywordPass : Clears Tree.isKeyword keywordPass := by
  intro P hP ts us h hts
  induction ts generalizing us with
  | nil =>
    cases h
    simp
  -- the rest comes first, and what is taken behind a keyword is from the rest
  | cons t rest ih =>
    simp only [List.forall_mem_cons] at hts
    obtain ⟨more, hmore, h⟩ := bind_eq_ok.mp h
    have hrest := ih more hmore hts.2
    split at h
    · next k i level loc _ =>
      split at h
      · next x more' htake =>
        cases h
        obtain ⟨hx, hoperand, hmore'⟩ := hP.takeOperand htake fun u hu => (hrest u hu).1
        have hjoined := hP.two (.keyword k i level loc hoperand) hts.1 hx
        exact List.forall_mem_cons.mpr ⟨⟨hjoined, rfl⟩, fun u hu => hrest u (hmore' u hu)⟩
      · cases h
    · next hother =>
      cases h
      have hkind : t.isKeyword = false := by
        unfold Tree.isKeyword
        split
        · next k i level loc => exact absurd rfl (hother k i level loc)
        · rfl
      exact List.forall_mem_cons.mpr ⟨⟨hts.1, hkind⟩, hrest⟩

/-- The leading pass leaves no operator that stands before its operand. -/
theorem clears_leadingPass : Clears (Tree.hasFixity .leading) leadingPass := by
  intro P hP ts us h hts
  induction ts generalizing us with
  | nil =>
    cases h
    simp
  | cons t rest ih =>
    simp only [List.forall_mem_cons] at hts
    -- the rest comes first, so a sign finds its operand ready
    obtain ⟨more, hmore, h⟩ := bind_eq_ok.mp h
    have hrest := ih more hmore hts.2
    split at h
    · next hop =>
      cases h
      have hkind : t.hasFixity .leading = false := by rw [Tree.hasFixity, hop]; rfl
      exact List.forall_mem_cons.mpr ⟨⟨hts.1, hkind⟩, hrest⟩
    · next op loc hop =>
      split at h
      · next right more' =>
        split at h
        · next hright =>
          cases h
          simp only [List.forall_mem_cons] at hrest
          have hjoined := hP.two (.leading hop hright) hts.1 hrest.1.1
          exact List.forall_mem_cons.mpr ⟨⟨hjoined, rfl⟩, hrest.2⟩
        · cases h
      · cases h

/-- A pass that chains to the right leaves no operator of its tier. -/
theorem clears_chainRight (tier : Tier) : Clears (Tree.isOfTier tier) (chainRight tier) := by
  intro P hP ts us h hts
  -- the tier groups to the right: what is behind an operator is done before it is joined
  fun_induction chainRight tier ts generalizing us with
  | case1 =>
    cases h
    simp
  | case2 t rest op loc hop ih =>
    obtain ⟨more, _, h⟩ := bind_eq_ok.mp h
    obtain ⟨right, _, h⟩ := bind_eq_ok.mp h
    cases h
  | case3 t hop =>
    cases h
    have hkind : t.isOfTier tier = false := by rw [Tree.isOfTier, hop]; rfl
    simpa using And.intro (hts t (by simp)) hkind
  | case4 t _ o rest op loc hop ih =>
    simp only [List.forall_mem_cons] at hts
    obtain ⟨more, hmore, h⟩ := bind_eq_ok.mp h
    obtain ⟨⟨right, more'⟩, htake, h⟩ := bind_eq_ok.mp h
    cases h
    obtain ⟨rfl, hright⟩ := takeRight_eq htake
    split at hop
    · next hleft =>
      have hrest := ih _ hmore hts.2.2
      simp only [List.forall_mem_cons] at hrest
      have hjoined := hP.three (.between hop hleft hright) hts.1 hts.2.1 hrest.1.1
      exact List.forall_mem_cons.mpr ⟨⟨hjoined, rfl⟩, hrest.2⟩
    · cases hop
  | case5 t hop o rest _ ih =>
    rw [List.forall_mem_cons] at hts
    obtain ⟨more, hmore, h⟩ := bind_eq_ok.mp h
    cases h
    have hkind : t.isOfTier tier = false := by rw [Tree.isOfTier, hop]; rfl
    exact List.forall_mem_cons.mpr ⟨⟨hts.1, hkind⟩, ih _ hmore hts.2⟩

/-! ## §4 All passes -/

/-- The kinds of leaves that the passes use up, in the order of the passes. -/
def clearedKinds : List (Tree → Bool) :=
  [ Tree.isOperator .dot, fun _ => false, fun _ => false, Tree.isKeyword, fun _ => false,
    Tree.hasFixity .trailing, Tree.hasFixity .leading ] ++ Tier.all.map Tree.isOfTier

/-- Every tier's pass leaves no operator of the tier. -/
theorem clears_tierPass (tier : Tier) : Clears (Tree.isOfTier tier) (tierPass tier) := by
  unfold tierPass
  split
  · exact clears_chainRight tier
  · exact clears_chainLeft tier

/-- Passes one after the other use up the leaves of all their kinds. -/
theorem clears_foldlM {kinds : List (Tree → Bool)} {ps : List Pass}
    (h : List.Forall₂ (fun kind pass => OnLeaves kind ∧ Clears kind pass) kinds ps)
    (hP : JoinStable P) (hrun : ps.foldlM (fun acc pass => pass acc) ts = .ok us)
    (hts : ∀ t ∈ ts, P t) : ∀ u ∈ us, P u ∧ ∀ kind ∈ kinds, kind u = false := by
  induction h generalizing P ts with
  | nil =>
    cases hrun
    simpa using hts
  | cons hfirst _ ih =>
    obtain ⟨hleaves, hclears⟩ := hfirst
    obtain ⟨mid, hmid, hrun⟩ := bind_eq_ok.mp hrun
    -- that the first kind is gone is itself kept by joining
    have hrest := ih (hP.and hleaves) hrun (hclears P hP ts mid hmid hts)
    intro u hu
    obtain ⟨⟨hPu, hkind⟩, hkinds⟩ := hrest u hu
    exact ⟨hPu, List.forall_mem_cons.mpr ⟨hkind, hkinds⟩⟩

/-- The passes, one by one, beside the kinds of leaf that they clear away. -/
theorem clears_passes :
    List.Forall₂ (fun kind pass => OnLeaves kind ∧ Clears kind pass) clearedKinds passes := by
  have htiers : ∀ tiers : List Tier,
      List.Forall₂ (fun kind pass => OnLeaves kind ∧ Clears kind pass)
        (tiers.map Tree.isOfTier) (tiers.map tierPass) := by
    intro tiers
    induction tiers with
    | nil => exact .nil
    | cons tier tiers ih => exact .cons ⟨onLeaves_isOfTier tier, clears_tierPass tier⟩ ih
  -- each pass uses up the kind that stands next to it in the list
  refine .cons ⟨onLeaves_isOperator .dot, clears_memberPass⟩ ?_
  refine .cons ⟨onLeaves_nothing, clears_joinPass (joins_of_joinAccessor fun _ _ => .index)⟩ ?_
  refine .cons ⟨onLeaves_nothing, clears_joinPass (joins_of_joinAccessor fun _ _ => .call)⟩ ?_
  refine .cons ⟨onLeaves_isKeyword, clears_keywordPass⟩ ?_
  refine .cons ⟨onLeaves_nothing, clears_joinPass joins_of_joinFunction⟩ ?_
  refine .cons ⟨onLeaves_hasFixity .trailing, clears_trailingPass⟩ ?_
  exact .cons ⟨onLeaves_hasFixity .leading, clears_leadingPass⟩ (htiers Tier.all)

/-- Behind all passes no leaf of any of the kinds is left, and what joining keeps is kept. -/
theorem clears_runPasses (hP : JoinStable P) (h : runPasses ts = .ok us) (hts : ∀ t ∈ ts, P t) :
    ∀ u ∈ us, P u ∧ ∀ kind ∈ clearedKinds, kind u = false :=
  clears_foldlM clears_passes hP h hts

/-! ## §5 Sound operands -/

/-- What stands without guarantees in a forest is told from the trees. -/
theorem isOperand_loose (t : Tree) : t.loose.isOperand = t.isOperand := by
  cases t with
  | leaf u =>
    obtain ⟨x, i, level, loc⟩ := u
    cases x <;> rfl
  | _ => rfl

theorem isGroup_loose (f : Family) (t : Tree) : t.loose.isGroup f = t.isGroup f := by
  cases t <;> rfl

theorem allSound_looseAll (ts : List Tree) :
    LooseTree.allSound (looseAll ts) = true ↔ ∀ t ∈ ts, t.loose.isSound = true := by
  induction ts with
  | nil => simp [looseAll, LooseTree.allSound]
  | cons t ts ih => simp [looseAll, LooseTree.allSound, ih]

/-- A unary node is sound when its operator admits the operand, and that is sound. -/
theorem isSound_unary (form : UnaryForm) (x : Tree) (loc : Location) :
    (Tree.unary form x loc).loose.isSound =
      (form.category.admits form.symbol [x.loose] && x.loose.isSound) := by
  simp [Tree.loose, LooseTree.isSound, LooseTree.allSound]

/-- A binary node is sound when its operator admits the operands, and those are sound. -/
theorem isSound_binary (form : BinaryForm) (x y : Tree) (loc : Location) :
    (Tree.binary form x y loc).loose.isSound =
      (form.category.admits form.symbol [x.loose, y.loose] && x.loose.isSound &&
        y.loose.isSound) := by
  simp [Tree.loose, LooseTree.isSound, LooseTree.allSound, Bool.and_assoc]

/-- The symbols of a tier are those of its operators. -/
theorem contains_symbols (tier : Tier) (op : Operator) :
    tier.symbols.contains op.spelling = (op.tier? == some tier) := by
  cases tier <;> cases op <;> rfl

theorem isOperand_of_isName (h : t.isName = true) : t.isOperand = true := by
  unfold Tree.isName name? at h
  split at h
  · rfl
  · cases h

theorem isOperand_of_isGroup {f : Family} (h : t.isGroup f = true) : t.isOperand = true := by
  cases t <;> first | rfl | cases h

theorem isOperand_of_isAccessor (h : t.isAccessor = true) : t.isOperand = true := by
  unfold isAccessor at h
  split at h
  · rfl
  · rfl
  · rfl
  · rfl
  · cases h

/-- The tree is sound if it is an operand. -/
def SoundOperand (t : Tree) : Prop := t.isOperand = true → t.loose.isSound = true

/-- A construct over sound operands is sound. -/
theorem joinStable_soundOperand : JoinStable SoundOperand := by
  -- a unary construct over an operand is admitted whatever its form
  have hunary : ∀ (form : UnaryForm) (x : Tree) (loc : Location), x.isOperand = true →
      SoundOperand x → SoundOperand (.unary form x loc) := by
    intro form x loc hx hsound _
    rw [isSound_unary, hsound hx, Bool.and_true]
    cases form <;> simp [Category.admits, UnaryForm.category, Category.arity?, isOperand_loose, hx]
  have hbinary : ∀ (form : BinaryForm) (x y : Tree) (loc : Location), x.isOperand = true →
      y.isOperand = true → form.category.admits form.symbol [x.loose, y.loose] = true →
      SoundOperand x → SoundOperand y → SoundOperand (.binary form x y loc) := by
    intro form x y loc hx hy hadmits hsoundx hsoundy _
    rw [isSound_binary, hadmits, hsoundx hx, hsoundy hy]
    rfl
  intro parts joined h hparts
  cases h with
  | member hdot hleft hname =>
    simp only [List.forall_mem_cons] at hparts
    have hproperty := isOperand_of_isName hname
    refine hbinary _ _ _ _ hleft hproperty ?_ hparts.1 hparts.2.2.1
    simp [Category.admits, BinaryForm.category, Category.arity?, isOperand_loose, hleft, hproperty]
  | index ht hleft =>
    simp only [List.forall_mem_cons] at hparts
    have hleft := isOperand_of_isAccessor hleft
    have ht := isOperand_of_isGroup ht
    refine hbinary _ _ _ _ hleft ht ?_ hparts.1 hparts.2.1
    simp [Category.admits, BinaryForm.category, Category.arity?, isOperand_loose, hleft, ht]
  | call ht hleft =>
    simp only [List.forall_mem_cons] at hparts
    have hleft := isOperand_of_isAccessor hleft
    have hoperand := isOperand_of_isGroup ht
    refine hbinary _ _ _ _ hleft hoperand ?_ hparts.1 hparts.2.1
    simp [Category.admits, BinaryForm.category, Category.arity?, isOperand_loose, isGroup_loose,
      hleft, hoperand, ht]
  | keyword k i level loc hx =>
    simp only [List.forall_mem_cons] at hparts
    exact hunary _ _ _ hx hparts.2.1
  | function ht hleft =>
    simp only [List.forall_mem_cons] at hparts
    have hleft := isOperand_of_isGroup hleft
    have ht := isOperand_of_isGroup ht
    refine hbinary _ _ _ _ hleft ht ?_ hparts.1 hparts.2.1
    simp [Category.admits, BinaryForm.category, Category.arity?, isOperand_loose, hleft, ht]
  | trailing ht hleft =>
    simp only [List.forall_mem_cons] at hparts
    exact hunary _ _ _ hleft hparts.1
  | leading ht hx =>
    simp only [List.forall_mem_cons] at hparts
    exact hunary _ _ _ hx hparts.2.1
  | @between tier left t right op loc ht hleft hright =>
    simp only [List.forall_mem_cons] at hparts
    have htier : op.tier? = some tier := by simpa using (Option.filter_eq_some_iff.mp ht).2
    refine hbinary _ _ _ _ hleft hright ?_ hparts.1 hparts.2.2.1
    simp only [Category.admits, BinaryForm.category, BinaryForm.symbol, Category.arity?,
      contains_symbols, htier, List.all_cons, List.all_nil, isOperand_loose, hleft, hright]
    simp

/-- A leaf of none of the kinds that the passes use up is left over. -/
theorem isLeftover_of_cleared {u : Token}
    (h : ∀ kind ∈ clearedKinds, kind (.leaf u) = false) : u.lexeme.isLeftover = true := by
  obtain ⟨x, i, level, loc⟩ := u
  simp only [clearedKinds, List.forall_mem_append, List.forall_mem_cons, List.forall_mem_map] at h
  obtain ⟨⟨hdot, -, -, hkeyword, -, htrailing, hleading, -⟩, htiers⟩ := h
  -- what is left are the kinds that no pass recognises, and the dual operators without a tier
  cases x with
  | keyword k => cases hkeyword
  | operator op fixity =>
    have hop : op ≠ .dot := by simpa [Tree.isOperator] using hdot
    cases fixity with
    | leading => simp [Tree.hasFixity, Tree.operator?] at hleading
    | trailing => simp [Tree.hasFixity, Tree.operator?] at htrailing
    | separator => cases op <;> first | rfl | exact absurd rfl hop
    | dual =>
      have hnone : ∀ tier ∈ Tier.all, tier.symbols.contains op.spelling = false := by
        intro tier htier
        have h := htiers tier htier
        rw [contains_symbols]
        simpa [Tree.isOfTier, Tree.tierOperator?, Tree.operator?, Option.filter] using h
      have hall : (Tier.all.all fun tier => !tier.symbols.contains op.spelling) = true := by
        simpa using hnone
      cases op <;> first | exact hall | exact absurd rfl hop
  | _ => rfl

/-- An operand is sound once every kind of operator is cleared away. -/
theorem isSound_of_cleared (hsound : SoundOperand t)
    (h : ∀ kind ∈ clearedKinds, kind t = false) : t.loose.isSound = true := by
  cases t with
  | leaf u => simpa [Tree.loose, LooseTree.isSound] using isLeftover_of_cleared h
  | _ => exact hsound rfl

/-! ## §6 The whole reduction -/

/-- Leaves and groups only, as delimiters make them. -/
inductive Tree.Bare : Tree → Prop where
  | leaf (t : Token) : Bare (.leaf t)
  | group (f : Family) (cs : List Tree) (loc : Location) (h : ∀ c ∈ cs, Bare c) :
      Bare (.group f cs loc)

/-- All that is complete is bare. -/
structure Nest.AllBare (n : Nest) : Prop where
  done : ∀ t ∈ n.done, t.Bare
  around : ∀ a ∈ n.around, ∀ t ∈ a.2, t.Bare

theorem Nest.AllBare.step {n : Nest} (h : n.AllBare) (t : Token) : (n.step t).AllBare := by
  -- a token opens a group, closes one around what it holds, or stands for itself
  unfold Nest.step
  split
  · exact ⟨by simp, List.forall_mem_cons.mpr ⟨h.done, h.around⟩⟩
  · split
    · next f loc before around heq =>
      have haround := h.around
      rw [heq, List.forall_mem_cons] at haround
      have hgroup : (Tree.group f n.done.reverse loc).Bare :=
        .group f _ loc fun c hc => h.done c (List.mem_reverse.mp hc)
      exact ⟨List.forall_mem_cons.mpr ⟨hgroup, haround.1⟩, haround.2⟩
    · exact h
  · exact ⟨List.forall_mem_cons.mpr ⟨.leaf t, h.done⟩, h.around⟩

/-- The groups that folding makes hold leaves and groups only. -/
theorem bare_of_foldGroups {tokens : List Token} (h : foldGroups tokens = .ok ts) :
    ∀ t ∈ ts, t.Bare := by
  obtain ⟨levelled, _, h⟩ := bind_eq_ok.mp h
  cases h
  have hall : ∀ (us : List Token) (n : Nest), n.AllBare → (us.foldl Nest.step n).AllBare := by
    intro us
    induction us with
    | nil => exact fun n hn => hn
    | cons u us ih => exact fun n hn => ih (n.step u) (hn.step u)
  have hdone := (hall levelled .empty ⟨by simp [Nest.empty], by simp [Nest.empty]⟩).done
  exact fun t ht => hdone t (List.mem_reverse.mp ht)

/-- Sound operands are reduced to sound nodes. -/
theorem isSound_runPasses (h : runPasses ts = .ok us) (hts : ∀ t ∈ ts, SoundOperand t) :
    ∀ u ∈ us, u.loose.isSound = true := by
  intro u hu
  obtain ⟨hsound, hkinds⟩ := clears_runPasses joinStable_soundOperand h hts u hu
  exact isSound_of_cleared hsound hkinds

/-- What holds of each reduced group holds of all of them. -/
theorem forall_mem_reduceGroups (h : reduceGroups ts = .ok us)
    (hts : ∀ t ∈ ts, ∀ u, reduceGroup t = .ok u → P u) : ∀ u ∈ us, P u := by
  induction ts generalizing us with
  | nil =>
    rw [reduceGroups] at h
    cases h
    simp
  | cons t ts ih =>
    rw [reduceGroups] at h
    obtain ⟨u, hu, h⟩ := bind_eq_ok.mp h
    obtain ⟨more, hmore, h⟩ := bind_eq_ok.mp h
    cases h
    rw [List.forall_mem_cons] at hts ⊢
    exact ⟨hts.1 u hu, ih hmore hts.2⟩

/-- A group that is reduced is a sound operand. -/
theorem soundOperand_reduceGroup {u : Tree} (ht : t.Bare) (h : reduceGroup t = .ok u) :
    SoundOperand u := by
  induction ht generalizing u with
  -- a leaf has no operands, and a group is sound where all it holds is
  | leaf t =>
    rw [reduceGroup] at h
    · cases h
      obtain ⟨x, i, level, loc⟩ := t
      intro hoperand
      cases x <;> first | rfl | cases hoperand
    · simp
  | group f cs loc _ ih =>
    rw [reduceGroup] at h
    obtain ⟨inner, hinner, h⟩ := bind_eq_ok.mp h
    obtain ⟨ds, hds, h⟩ := bind_eq_ok.mp h
    cases h
    intro _
    rw [Tree.loose, LooseTree.isSound, allSound_looseAll]
    exact isSound_runPasses hds (forall_mem_reduceGroups hinner fun c hc u hu => ih c hc hu)

/-- The reduced forest of tokens is sound. -/
theorem isSound_reduce {tokens : List Token} (hgroups : foldGroups tokens = .ok ts)
    (h : reduce ts = .ok us) : ∀ u ∈ us, u.loose.isSound = true := by
  obtain ⟨inner, hinner, h⟩ := bind_eq_ok.mp h
  have hbare := bare_of_foldGroups hgroups
  exact isSound_runPasses h
    (forall_mem_reduceGroups hinner fun t ht u hu => soundOperand_reduceGroup (hbare t ht) hu)

end Scriptlet
