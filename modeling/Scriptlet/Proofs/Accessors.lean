import Scriptlet.Proofs.Precedence

/-!
# Which chains of accessors become one tree

Behind a name may stand properties, indices and arguments in any order. Each kind has a pass of its
own, and the passes come one after the other over the whole row. The pass of properties joins every
property to the tree in front of it, a name or a group. A group with a property is no group to the
later passes, and nothing joins it to what it follows. The pass of indices stops at the first
arguments, since these are not joined yet. So the chain is folded to one tree, nested to the left in
the order of the row, where properties come before indices and these before arguments. Any other
chain is left in two pieces or more; reduction does not fail.

The way from a row that is not in order to two trees is one position: a tree that is not the first
and that no later pass joins to the one before it (`Parted`).

## Contents

- §1 accessors and chains
- §2 the pass of properties
- §3 the passes of groups
- §4 operands by themselves
- §5 chains in order
- §6 chains that are parted
- §7 the main result
-/

namespace Scriptlet

open Scriptlet.Tree

/-! ## §1 Accessors and chains -/

/-- What may stand behind a name. -/
inductive Accessor where
  /-- A point and the name of a property. -/
  | property (point name : Token) (hpoint : ∃ f, point.lexeme = .operator .dot f)
      (hname : ∃ x, name.lexeme = .name x)
  /-- What stands in brackets. -/
  | index (contents : List Tree) (loc : Location)
  /-- What stands in parentheses. -/
  | arguments (contents : List Tree) (loc : Location)

namespace Accessor

/-- The trees of an accessor in a forest that is not reduced. -/
def trees : Accessor → List Tree
  | .property point name _ _ => [.leaf point, .leaf name]
  | .index cs loc => [.group .bracket cs loc]
  | .arguments cs loc => [.group .parenthesis cs loc]

/-- The accessor applied to what stands before it. -/
def applyTo (left : Tree) : Accessor → Tree
  | .property point name _ _ => .binary .member left (.leaf name) point.loc
  | .index cs loc => .binary .index left (.group .bracket cs loc) left.loc
  | .arguments cs loc => .binary .call left (.group .parenthesis cs loc) left.loc

/-- The accessor with its contents reduced. -/
def reduced : Accessor → Except ConstructError Accessor
  | .property point name hpoint hname => .ok (.property point name hpoint hname)
  | .index cs loc => (reduce cs).map (.index · loc)
  | .arguments cs loc => (reduce cs).map (.arguments · loc)

/-- The place of the pass of an accessor among the three. -/
def rank : Accessor → Nat
  | .property _ _ _ _ => 0
  | .index _ _ => 1
  | .arguments _ _ => 2

/-- Properties come before indices, and these before arguments. -/
def InOrder (as : List Accessor) : Prop := (as.map rank).Pairwise (· ≤ ·)

/-- The tree nested to the left that applies the accessors in their order. -/
def chained (left : Tree) (as : List Accessor) : Tree := as.foldl applyTo left

end Accessor

open Accessor

variable {left t u : Tree} {done ts us vs : List Tree} {a b : Accessor} {as bs : List Accessor}

/-! ## §2 The pass of properties -/

/-- What the pass of properties leaves of a chain: properties are joined to the name or to the group
in front of them. -/
def pointedAll (left : Tree) : List Accessor → List Tree
  | [] => [left]
  | .property point name _ _ :: as =>
    pointedAll (.binary .member left (.leaf name) point.loc) as
  | .index cs loc :: as => left :: pointedAll (.group .bracket cs loc) as
  | .arguments cs loc :: as => left :: pointedAll (.group .parenthesis cs loc) as

theorem isName_leaf {name : Token} (h : ∃ x, name.lexeme = .name x) :
    (Tree.leaf name).isName = true := by
  obtain ⟨x, i, level, loc⟩ := name
  obtain ⟨y, rfl⟩ : ∃ y, x = .name y := h
  rfl

theorem memberPass_group {f : Family} {cs : List Tree} {loc : Location} {rest : List Tree} :
    memberPass done (.group f cs loc :: rest) = memberPass (.group f cs loc :: done) rest := by
  rw [memberPass]
  rfl

/-- The pass of properties joins each to the operand before it. -/
theorem memberPass_trees (h : left.isOperand = true) (done : List Tree) (as : List Accessor) :
    memberPass (left :: done) (as.flatMap trees) = .ok (done.reverse ++ pointedAll left as) := by
  induction as generalizing left done with
  | nil =>
    rw [List.flatMap_nil, memberPass, List.reverse_cons]
    rfl
  | cons a as ih =>
    rw [List.flatMap_cons]
    -- a property takes two trees of the row, the others one, which is left for the later passes
    cases a with
    | property point name hpoint hname =>
      obtain ⟨f, hdot⟩ := hpoint
      have hlexeme : (Tree.leaf point).lexeme? = some (.operator .dot f) := congrArg some hdot
      show memberPass (left :: done) (.leaf point :: .leaf name :: as.flatMap trees) = _
      rw [memberPass, hlexeme]
      simp only [h, isName_leaf hname, if_true]
      exact ih rfl done
    | index cs loc | arguments cs loc =>
      show memberPass (left :: done) (.group _ cs loc :: as.flatMap trees) = _
      rw [memberPass_group, ih rfl (left :: done), List.reverse_cons, List.append_assoc]
      rfl

/-- An operand with accessors behind it is not nothing. -/
theorem pointedAll_ne_nil (left : Tree) (as : List Accessor) : pointedAll left as ≠ [] := by
  fun_induction pointedAll left as with
  | case1 | case3 | case4 => exact List.cons_ne_nil _ _
  | case2 left point name _ _ as ih => exact ih

/-- In front of a group the pass of properties is done with what came before. -/
theorem pointedAll_append (left : Tree) (as : List Accessor) (a : Accessor) (bs : List Accessor)
    (ha : a.trees = [t]) :
    pointedAll left (as ++ a :: bs) = pointedAll left as ++ pointedAll t bs := by
  fun_induction pointedAll left as with
  | case1 left =>
    cases a with
    | property => cases ha
    | index | arguments =>
      cases ha
      rfl
  | case2 left point name _ _ as ih => exact ih
  | case3 left cs loc as ih => exact congrArg (left :: ·) ih
  | case4 left cs loc as ih => exact congrArg (left :: ·) ih

/-- The first tree is what the chain starts with, or a property. -/
theorem pointedAll_head (left : Tree) (as : List Accessor) :
    ∃ x rest, pointedAll left as = x :: rest ∧
      (x = left ∨ ∃ object name loc, x = .binary .member object name loc) := by
  fun_induction pointedAll left as with
  | case1 left => exact ⟨left, [], rfl, .inl rfl⟩
  | case2 left point name _ _ as ih =>
    obtain ⟨x, rest, heq, rfl | hmember⟩ := ih
    · exact ⟨_, rest, heq, .inr ⟨left, .leaf name, point.loc, rfl⟩⟩
    · exact ⟨x, rest, heq, .inr hmember⟩
  | case3 left cs loc as | case4 left cs loc as => exact ⟨left, _, rfl, .inl rfl⟩

/-! ## §3 The passes of groups -/

section Join

variable {family : Family} {form : BinaryForm}

/-- The pass that joins groups of the family to accessors. -/
abbrev accessorPass (family : Family) (form : BinaryForm) (done ts : List Tree) : List Tree :=
  joinPass (joinAccessor family form) done ts

/-- Only groups of the family are joined as accessors. -/
theorem joinAccessor_of_not_group (h : t.isGroup family = false) (x : Tree) :
    joinAccessor family form x t = none := by
  simp [joinAccessor, h]

/-- Accessors are only joined to what they can stand behind. -/
theorem joinAccessor_of_not_accessor (h : t.isAccessor = false) (x : Tree) :
    joinAccessor family form t x = none := by
  simp [joinAccessor, h]

/-- The newest tree stays or is joined with what stands behind it. -/
theorem accessorPass_head (family : Family) (form : BinaryForm) (x : Tree) (ts : List Tree) :
    ∃ y rest, accessorPass family form [x] ts = y :: rest ∧
      (y = x ∨ ∃ left right loc, y = .binary form left right loc) := by
  induction ts generalizing x with
  | nil => exact ⟨x, [], rfl, .inl rfl⟩
  | cons t ts ih =>
    rw [accessorPass, joinPass]
    -- a joined tree may be joined again by what follows, but it stays one of the form
    cases hjoin : joinAccessor family form x t with
    | none => exact ⟨x, _, joinPass_newest t [] [x] ts, .inl rfl⟩
    | some joined =>
      obtain ⟨y, rest, heq, rfl | hbinary⟩ := ih joined
      · refine ⟨_, rest, heq, .inr ?_⟩
        obtain ⟨-, rfl⟩ : _ ∧ Tree.binary form x t x.loc = y := by simpa [joinAccessor] using hjoin
        exact ⟨x, t, x.loc, rfl⟩
      · exact ⟨y, rest, heq, .inr hbinary⟩

end Join

/-! ## §4 Operands by themselves -/

/-- An operand that is no body of a function: the passes behind those of accessors leave it. -/
def Tree.isSettled (t : Tree) : Bool := t.isOperand && !t.isGroup .brace

theorem isOperand_of_isSettled (h : t.isSettled = true) : t.isOperand = true :=
  (Bool.and_eq_true _ _ ▸ h).1

/-- The keyword pass leaves operands alone. -/
theorem keywordPass_of_operands (h : ∀ t ∈ ts, t.isOperand = true) : keywordPass ts = .ok ts := by
  induction ts with
  | nil => rfl
  | cons t ts ih =>
    obtain ⟨ht, hts⟩ := List.forall_mem_cons.mp h
    rw [keywordPass, ih hts]
    refine bind_eq_ok.mpr ⟨ts, rfl, ?_⟩
    split
    · cases ht
    · rfl

/-- The trailing pass leaves operands alone. -/
theorem trailingPass_of_operands (done : List Tree) (h : ∀ t ∈ ts, t.isOperand = true) :
    trailingPass done ts = .ok (done.reverse ++ ts) := by
  induction ts generalizing done with
  | nil => rw [trailingPass, List.append_nil]
  | cons t ts ih =>
    obtain ⟨ht, hts⟩ := List.forall_mem_cons.mp h
    rw [trailingPass, operator?_of_isOperand ht]
    simpa using ih (t :: done) hts

/-- Behind the passes of accessors nothing happens to operands. -/
theorem runPasses_of_settled {mid : List Tree} (hmember : memberPass [] ts = .ok mid)
    (hus : us = accessorPass .parenthesis .call [] (accessorPass .bracket .index [] mid))
    (hsettled : ∀ t ∈ us, t.isSettled = true) : runPasses ts = .ok us := by
  have hoperand : ∀ t ∈ us, t.isOperand = true := fun t ht => isOperand_of_isSettled (hsettled t ht)
  -- a settled tree is no brace group, and so no body of a function
  have hfunction : joinPass joinFunction [] us = us := by
    apply joinPass_of_none
    intro t ht left
    have hbrace : t.isGroup .brace = false := by
      simpa [isSettled, hoperand t ht] using hsettled t ht
    simp [joinFunction, hbrace]
  refine foldlM_passes hmember (foldlM_passes rfl (foldlM_passes (congrArg Except.ok hus.symm) ?_))
  refine foldlM_passes (keywordPass_of_operands hoperand) ?_
  refine foldlM_passes (congrArg Except.ok hfunction) ?_
  refine foldlM_passes (trailingPass_of_operands [] hoperand) ?_
  refine foldlM_passes (leadingPass_of_none fun t ht => operator?_of_isOperand (hoperand t ht)) ?_
  exact runTiers_of_operands Tier.all hoperand

theorem settled_pointedAll (h : left.isSettled = true) (as : List Accessor) :
    ∀ t ∈ pointedAll left as, t.isSettled = true := by
  fun_induction pointedAll left as with
  | case1 left => exact List.forall_mem_singleton.mpr h
  | case2 left point name _ _ as ih => exact ih rfl
  | case3 left cs loc as ih | case4 left cs loc as ih => exact List.forall_mem_cons.mpr ⟨h, ih rfl⟩

/-- What is settled stays settled when accessors are joined. -/
theorem settled_accessorPass {family : Family} {form : BinaryForm}
    (hdone : ∀ t ∈ done, t.isSettled = true) (hts : ∀ t ∈ ts, t.isSettled = true) :
    ∀ t ∈ accessorPass family form done ts, t.isSettled = true := by
  induction ts generalizing done with
  | nil => simpa [accessorPass, joinPass] using hdone
  | cons t ts ih =>
    obtain ⟨ht, hts⟩ := List.forall_mem_cons.mp hts
    rw [accessorPass, joinPass.eq_def]
    cases done with
    | nil => exact ih (List.forall_mem_singleton.mpr ht) hts
    | cons x done =>
      simp only
      cases hjoin : joinAccessor family form x t with
      | none => exact ih (List.forall_mem_cons.mpr ⟨ht, hdone⟩) hts
      | some joined =>
        -- joining needs an accessor before and gives a tree that is settled as well
        obtain ⟨-, rfl⟩ : _ ∧ Tree.binary form x t x.loc = joined := by
          simpa [joinAccessor] using hjoin
        exact ih (List.forall_mem_cons.mpr ⟨rfl, (List.forall_mem_cons.mp hdone).2⟩) hts

/-- What the passes leave of a chain. -/
theorem runPasses_trees (h : left.isSettled = true)
    (hdot : ∀ f, left.lexeme? ≠ some (.operator .dot f)) (as : List Accessor) :
    runPasses (left :: as.flatMap trees) = .ok (accessorPass .parenthesis .call []
      (accessorPass .bracket .index [] (pointedAll left as))) := by
  have hmember : memberPass [] (left :: as.flatMap trees) = .ok (pointedAll left as) := by
    rw [memberPass_push hdot]
    exact memberPass_trees (isOperand_of_isSettled h) [] as
  apply runPasses_of_settled hmember rfl
  exact settled_accessorPass nofun (settled_accessorPass nofun (settled_pointedAll h as))

/-! ## §5 Chains in order -/

theorem inOrder_cons :
    InOrder (a :: as) ↔ (∀ b ∈ as, a.rank ≤ b.rank) ∧ InOrder as := by
  simp [InOrder]

/-- An operand with accessors joined to it can take more of them. -/
theorem isAccessor_chained (h : left.isAccessor = true) (as : List Accessor) :
    (chained left as).isAccessor = true := by
  induction as generalizing left with
  | nil => exact h
  | cons a as ih =>
    apply ih
    cases a <;> rfl

/-- A chain in order is properties, then indices, then arguments. -/
theorem exists_split_of_inOrder (h : InOrder as) :
    ∃ ps is cs, as = ps ++ (is ++ cs) ∧ (∀ a ∈ ps, a.rank = 0) ∧ (∀ a ∈ is, a.rank = 1) ∧
      ∀ a ∈ cs, a.rank = 2 := by
  have hnil {r : Nat} : ∀ a ∈ ([] : List Accessor), a.rank = r := List.forall_mem_nil _
  induction as with
  | nil => exact ⟨[], [], [], rfl, hnil, hnil, hnil⟩
  | cons a as ih =>
    obtain ⟨hle, htail⟩ := inOrder_cons.mp h
    obtain ⟨ps, is, cs, rfl, hps, his, hcs⟩ := ih htail
    -- the parts of a lower rank are empty
    have hempty : ∀ bs : List Accessor, ∀ r < a.rank, (∀ b ∈ bs, b ∈ ps ++ (is ++ cs)) →
        (∀ b ∈ bs, b.rank = r) → bs = [] := by
      intro bs r hr hmem hrank
      apply List.eq_nil_iff_forall_not_mem.mpr
      intro b hb
      have hb' := hle b (hmem b hb)
      rw [hrank b hb] at hb'
      exact absurd hr (Nat.not_lt.mpr hb')
    cases a with
    | property point name hpoint hname =>
      exact ⟨_ :: ps, is, cs, rfl, List.forall_mem_cons.mpr ⟨rfl, hps⟩, his, hcs⟩
    | index contents loc =>
      obtain rfl := hempty ps 0 Nat.zero_lt_one (by simp +contextual) hps
      exact ⟨[], _ :: is, cs, rfl, hnil, List.forall_mem_cons.mpr ⟨rfl, his⟩, hcs⟩
    | arguments contents loc =>
      obtain rfl := hempty ps 0 Nat.zero_lt_two (by simp +contextual) hps
      obtain rfl := hempty is 1 Nat.one_lt_two (by simp +contextual) his
      exact ⟨[], [], _ :: cs, rfl, hnil, hnil, List.forall_mem_cons.mpr ⟨rfl, hcs⟩⟩

/-- The members come first, for their pass does. -/
theorem pointedAll_of_properties (left : Tree) {ps : List Accessor} (hps : ∀ a ∈ ps, a.rank = 0)
    {gs : List Accessor} (hgs : ∀ a ∈ gs, a.rank ≠ 0) :
    pointedAll left (ps ++ gs) = chained left ps :: gs.flatMap trees := by
  -- the properties are used up first, then the groups are passed over in turn
  induction ps generalizing left with
  | nil =>
    induction gs generalizing left with
    | nil => rfl
    | cons a gs ih =>
      obtain ⟨ha, hrest⟩ := List.forall_mem_cons.mp hgs
      cases a with
      | property => exact absurd rfl ha
      | index | arguments => exact congrArg (left :: ·) (ih hrest _)
  | cons a ps ih =>
    obtain ⟨ha, hrest⟩ := List.forall_mem_cons.mp hps
    cases a with
    | property point name => exact ih _ hrest
    | index | arguments => cases ha

/-- Indices in front are joined by the index pass. -/
theorem indexPass_of_indices (h : left.isAccessor = true) {is : List Accessor}
    (his : ∀ a ∈ is, a.rank = 1) (rest : List Tree) :
    accessorPass .bracket .index [left] (is.flatMap trees ++ rest)
      = accessorPass .bracket .index [chained left is] rest := by
  induction is generalizing left with
  | nil => rfl
  | cons a is ih =>
    obtain ⟨ha, hmore⟩ := List.forall_mem_cons.mp his
    cases a with
    | index cs loc =>
      have hjoin : joinAccessor .bracket .index left (.group .bracket cs loc)
          = some (applyTo left (.index cs loc)) := by simp [joinAccessor, isGroup, h, applyTo]
      exact (joinPass_joins hjoin).trans (ih rfl hmore)
    | property | arguments => cases ha

/-- Arguments are joined by the call pass, when nothing else stands there. -/
theorem callPass_of_arguments (h : left.isAccessor = true) {cs : List Accessor}
    (hcs : ∀ a ∈ cs, a.rank = 2) :
    accessorPass .parenthesis .call [left] (cs.flatMap trees) = [chained left cs] := by
  induction cs generalizing left with
  | nil => rfl
  | cons a cs ih =>
    obtain ⟨ha, hmore⟩ := List.forall_mem_cons.mp hcs
    cases a with
    | arguments contents loc =>
      have hjoin : joinAccessor .parenthesis .call left (.group .parenthesis contents loc)
          = some (applyTo left (.arguments contents loc)) := by
        simp [joinAccessor, isGroup, h, applyTo]
      exact (joinPass_joins hjoin).trans (ih rfl hmore)
    | property | index => cases ha

/-- In order, each pass finds its accessors right behind what the passes before have made. -/
theorem accessorPasses_of_inOrder (h : left.isAccessor = true) (has : InOrder as) :
    accessorPass .parenthesis .call [] (accessorPass .bracket .index [] (pointedAll left as))
      = [chained left as] := by
  obtain ⟨ps, is, cs, rfl, hps, his, hcs⟩ := exists_split_of_inOrder has
  have hgroups : ∀ a ∈ is ++ cs, a.rank ≠ 0 := by
    intro a ha
    rcases List.mem_append.mp ha with ha | ha
    · simp [his a ha]
    · simp [hcs a ha]
  have hps := pointedAll_of_properties left hps hgroups
  have hindices := indexPass_of_indices (isAccessor_chained h ps) his (cs.flatMap trees)
  have harguments := callPass_of_arguments
    (isAccessor_chained (isAccessor_chained h ps) is) hcs
  -- arguments are not joined by the pass of indices
  have hlater : accessorPass .bracket .index [chained (chained left ps) is] (cs.flatMap trees)
      = chained (chained left ps) is :: cs.flatMap trees := by
    apply joinPass_of_none
    intro t ht x
    obtain ⟨a, ha, ht⟩ := List.mem_flatMap.mp ht
    cases a with
    | arguments contents loc =>
      obtain rfl := List.mem_singleton.mp ht
      rfl
    | property | index => cases hcs _ ha
  rw [hps, List.flatMap_append]
  show accessorPass .parenthesis .call []
    (accessorPass .bracket .index [chained left ps] (is.flatMap trees ++ cs.flatMap trees)) = _
  rw [hindices, hlater]
  refine harguments.trans ?_
  simp only [chained, List.foldl_append]

/-! ## §6 Chains that are parted -/

/-- A tree that is not the first of the row and that the pass of calls joins to nothing before
it. -/
def Parted (ts : List Tree) : Prop :=
  ∃ before t after, ts = before ++ t :: after ∧ before ≠ [] ∧ t.isGroup .parenthesis = false

/-- Accessors out of order have two neighbours out of order. -/
theorem exists_inversion (h : ¬ InOrder as) :
    ∃ before a b after, as = before ++ a :: b :: after ∧ b.rank < a.rank := by
  induction as with
  | nil => exact absurd List.Pairwise.nil h
  | cons a as ih =>
    by_cases has : InOrder as
    · -- then the first accessor is out of order, and so it is before the second
      cases as with
      | nil => exact absurd (List.pairwise_singleton _ _) h
      | cons b as =>
        refine ⟨[], a, b, as, rfl, Nat.lt_of_not_le fun hle => h ?_⟩
        obtain ⟨hb, -⟩ := inOrder_cons.mp has
        refine inOrder_cons.mpr ⟨fun c hc => ?_, has⟩
        rcases List.mem_cons.mp hc with rfl | hc
        · exact hle
        · exact Nat.le_trans hle (hb c hc)
    · obtain ⟨before, x, b, after, rfl, hlt⟩ := ih has
      exact ⟨a :: before, x, b, after, rfl, hlt⟩

theorem accessorPass_ne_nil (family : Family) (form : BinaryForm) (h : ts ≠ []) :
    accessorPass family form [] ts ≠ [] := by
  obtain ⟨x, rest, rfl⟩ := List.exists_cons_of_ne_nil h
  obtain ⟨y, rest', heq, -⟩ := accessorPass_head family form x rest
  show accessorPass family form [x] rest ≠ []
  rw [heq]
  exact List.cons_ne_nil _ _

/-- The pass of indices makes no parentheses of a tree that is none. -/
theorem exists_indexPass_head (hu : u.isGroup .parenthesis = false) (ts : List Tree) :
    ∃ y rest, accessorPass .bracket .index [u] ts = y :: rest ∧
      y.isGroup .parenthesis = false := by
  obtain ⟨y, rest, heq, hy⟩ := accessorPass_head .bracket .index u ts
  refine ⟨y, rest, heq, ?_⟩
  rcases hy with rfl | ⟨_, _, _, rfl⟩
  · exact hu
  · rfl

/-- A tree that is no group is joined to nothing before it. -/
theorem parted_of_not_group (hts : ts ≠ []) (hu : ∀ f, u.isGroup f = false) (us : List Tree) :
    Parted (accessorPass .bracket .index [] (ts ++ u :: us)) := by
  obtain ⟨y, rest, heq, hy⟩ := exists_indexPass_head (hu .parenthesis) us
  refine ⟨_, y, rest, ?_, accessorPass_ne_nil .bracket .index hts, hy⟩
  rw [accessorPass, joinPass_parted (joinAccessor_of_not_group (hu .bracket))]
  exact congrArg _ heq

/-- When it is the turn of indices, arguments are not joined to what they follow, and so nothing is
joined to them. -/
theorem parted_behind_arguments (hu : u.isGroup .parenthesis = false) (ts us cs : List Tree)
    (loc : Location) :
    Parted (accessorPass .bracket .index [] (ts ++ .group .parenthesis cs loc :: u :: us)) := by
  obtain ⟨y, rest, heq, hy⟩ := exists_indexPass_head hu us
  refine ⟨accessorPass .bracket .index [] ts ++ [.group .parenthesis cs loc], y, rest, ?_,
    by simp, hy⟩
  rw [accessorPass, joinPass_parted (joinAccessor_of_not_group rfl),
    joinPass_alone (joinAccessor_of_not_accessor rfl), List.append_assoc]
  exact congrArg (_ ++ _ :: ·) heq

/-- Out of order, some accessor is parted from the name when it is the turn of calls. -/
theorem parted_indexPass (left : Tree) (h : ¬ InOrder as) :
    Parted (accessorPass .bracket .index [] (pointedAll left as)) := by
  obtain ⟨before, a, b, after, rfl, hlt⟩ := exists_inversion h
  -- a group with a property is no group any more
  have hproperty : ∀ g point name hpoint hname, a.trees = [g] →
      b = .property point name hpoint hname →
      Parted (accessorPass .bracket .index [] (pointedAll left (before ++ a :: b :: after))) := by
    rintro g point name hpoint hname hg rfl
    obtain ⟨x, rest, heq, hx⟩ :=
      pointedAll_head (.binary .member g (.leaf name) point.loc) after
    rw [pointedAll_append left before a _ hg, pointedAll, heq]
    refine parted_of_not_group (pointedAll_ne_nil left before) ?_ rest
    rcases hx with rfl | ⟨_, _, _, rfl⟩ <;> exact fun f => rfl
  cases a with
  | property => exact absurd hlt (Nat.not_lt_zero _)
  | index cs loc =>
    cases b with
    | property point name hpoint hname => exact hproperty _ _ _ _ _ rfl rfl
    | index | arguments => exact absurd hlt (by simp [rank])
  | arguments cs loc =>
    cases b with
    | property point name hpoint hname => exact hproperty _ _ _ _ _ rfl rfl
    | arguments => exact absurd hlt (Nat.lt_irrefl _)
    | index ds loc' =>
      obtain ⟨x, rest, heq, hx⟩ := pointedAll_head (.group .bracket ds loc') after
      rw [pointedAll_append left before _ _ rfl, pointedAll, heq]
      refine parted_behind_arguments ?_ (pointedAll left before) rest cs loc
      rcases hx with rfl | ⟨_, _, _, rfl⟩ <;> rfl

/-- A row in two parts stays in two parts behind the call pass. -/
theorem two_le_callPass (h : Parted ts) :
    2 ≤ (accessorPass .parenthesis .call [] ts).length := by
  obtain ⟨before, t, after, rfl, hne, ht⟩ := h
  rw [accessorPass, joinPass_parted (joinAccessor_of_not_group ht), List.length_append]
  have hbefore := List.length_pos_iff.mpr (accessorPass_ne_nil .parenthesis .call hne)
  have hafter := List.length_pos_iff.mpr
    (accessorPass_ne_nil .parenthesis .call (List.cons_ne_nil t after))
  exact Nat.add_le_add hbefore hafter

/-! ## §7 The main result -/

theorem reduceGroup_of_leaf (t : Token) : reduceGroup (.leaf t) = .ok (.leaf t) := by
  rw [reduceGroup]
  intro f cs loc h
  cases h

theorem reduceGroup_eq {f : Family} {cs : List Tree} {loc : Location} :
    reduceGroup (.group f cs loc) = (reduce cs).map (.group f · loc) := by
  rw [reduceGroup, reduce]
  cases reduceGroups cs with
  | error e => rfl
  | ok inner => cases runPasses inner <;> rfl

/-- Groups are reduced where the contents of the accessors are. -/
theorem reduceGroups_trees (h : as.mapM reduced = .ok bs) :
    reduceGroups (as.flatMap trees) = .ok (bs.flatMap trees) ∧ bs.map rank = as.map rank := by
  induction as generalizing bs with
  | nil =>
    cases h
    exact ⟨reduceGroups.eq_1, rfl⟩
  | cons a as ih =>
    -- accessors are reduced one by one, and only those with contents change
    rw [List.mapM_cons] at h
    obtain ⟨b, hb, h⟩ := bind_eq_ok.mp h
    obtain ⟨bs, hbs, h⟩ := bind_eq_ok.mp h
    cases h
    obtain ⟨hgroups, hranks⟩ := ih hbs
    cases a with
    | property point name hpoint hname =>
      cases hb
      refine ⟨?_, congrArg (0 :: ·) hranks⟩
      show reduceGroups (.leaf point :: .leaf name :: as.flatMap trees) = _
      rw [reduceGroups, reduceGroup_of_leaf, reduceGroups, reduceGroup_of_leaf, hgroups]
      rfl
    | index cs loc | arguments cs loc =>
      obtain ⟨ds, hds, rfl⟩ := exists_of_map_eq_ok hb
      refine ⟨?_, congrArg (_ :: ·) hranks⟩
      show reduceGroups (.group _ cs loc :: as.flatMap trees) = _
      rw [reduceGroups, reduceGroup_eq, hds, hgroups]
      rfl

/-- **Accessors are folded in the order of their passes.** A name with accessors behind it, whose
contents can be reduced, always has a reduced forest. It is one tree, the accessors applied in their
order, where properties come before indices and indices before arguments, and two trees or more
otherwise. -/
theorem forestOf_accessors (source : Text) (name : Token) (as as' : List Accessor)
    (hname : ∃ x, name.lexeme = .name x)
    (hgroups : groupsOf source = .ok (.leaf name :: as.flatMap trees))
    (hcontents : as.mapM reduced = .ok as') :
    ∃ forest, forestOf source = .ok forest ∧
      (InOrder as → forest = [chained (.leaf name) as']) ∧ (¬ InOrder as → 2 ≤ forest.length) := by
  obtain ⟨hreduced, hranks⟩ := reduceGroups_trees hcontents
  obtain ⟨x, hx⟩ := hname
  obtain ⟨y, i, level, loc⟩ := name
  obtain rfl : y = .name x := hx
  -- a name is settled and no point, so that it is what the accessors are joined to
  have hdot : ∀ f, (Tree.leaf ⟨.name x, i, level, loc⟩).lexeme? ≠ some (.operator .dot f) := by
    simp [lexeme?]
  have hpasses := runPasses_trees rfl hdot as'
  have hforest : forestOf source = .ok (accessorPass .parenthesis .call []
      (accessorPass .bracket .index [] (pointedAll (.leaf ⟨.name x, i, level, loc⟩) as'))) := by
    refine bind_eq_ok.mpr ⟨_, hgroups, mapError_eq_ok.mpr ?_⟩
    refine bind_eq_ok.mpr ⟨_, ?_, hpasses⟩
    rw [reduceGroups, reduceGroup_of_leaf, hreduced]
    rfl
  refine ⟨_, hforest, fun horder => ?_, fun horder => ?_⟩
  · have horder' : InOrder as' := by rwa [InOrder, hranks]
    exact accessorPasses_of_inOrder rfl horder'
  · have horder' : ¬ InOrder as' := by rwa [InOrder, hranks]
    exact two_le_callPass (parted_indexPass _ horder')

/-- A name in the first line, as a token of a forest at a depth. -/
def nameAt (column index level : Nat) (x : Text) : Token :=
  ⟨.name x, index, level, ⟨column, 1, column + 1⟩⟩

/-- What stands behind the name of `f.g[i](x)`. -/
def orderedAccessors : List Accessor :=
  [ .property ⟨.operator .dot .dual, 1, 0, ⟨1, 1, 2⟩⟩ (nameAt 2 2 0 "g") ⟨_, rfl⟩ ⟨_, rfl⟩,
    .index [.leaf (nameAt 4 4 1 "i")] ⟨3, 1, 4⟩, .arguments [.leaf (nameAt 7 7 1 "x")] ⟨6, 1, 7⟩ ]

theorem forestOf_accessors_ordered :
    groupsOf "f.g[i](x)" = .ok (.leaf (nameAt 0 0 0 "f") :: orderedAccessors.flatMap trees) ∧
      orderedAccessors.mapM reduced = .ok orderedAccessors ∧
      forestOf "f.g[i](x)" = .ok [chained (.leaf (nameAt 0 0 0 "f")) orderedAccessors] := by
  have hgroups : groupsOf "f.g[i](x)"
      = .ok (.leaf (nameAt 0 0 0 "f") :: orderedAccessors.flatMap trees) := by rfl
  have hcontents : orderedAccessors.mapM reduced = .ok orderedAccessors := by rfl
  obtain ⟨forest, hforest, horder, -⟩ := forestOf_accessors _ _ _ _ ⟨_, rfl⟩ hgroups hcontents
  have hsorted : InOrder orderedAccessors := by
    simp [InOrder, orderedAccessors, rank]
  exact ⟨hgroups, hcontents, horder hsorted ▸ hforest⟩

/-- What stands behind the name of `f(x)[i]`. -/
def crossedAccessors : List Accessor :=
  [ .arguments [.leaf (nameAt 2 2 1 "x")] ⟨1, 1, 2⟩, .index [.leaf (nameAt 5 5 1 "i")] ⟨4, 1, 5⟩ ]

/-- What a call gives can be indexed, but the pass of indices comes first. -/
theorem forestOf_crossed_ne_chained :
    groupsOf "f(x)[i]" = .ok (.leaf (nameAt 0 0 0 "f") :: crossedAccessors.flatMap trees) ∧
      crossedAccessors.mapM reduced = .ok crossedAccessors ∧
      forestOf "f(x)[i]" ≠ .ok [chained (.leaf (nameAt 0 0 0 "f")) crossedAccessors] := by
  refine ⟨rfl, rfl, fun h => ?_⟩
  have hlength : (forestOf "f(x)[i]").map List.length = .ok 2 := by decide +kernel
  rw [h] at hlength
  cases hlength

end Scriptlet
