import Scriptlet.Proofs.Soundness
import Scriptlet.Proofs.Spelling

/-!
# Lowering by counting never crashes

On a sound forest every operand that lowering asks for is there, every call has its group, and every
compound assignment has a sign to take off. So lowering by counting goes through, and its result is
the program or the refusal that lowering has.

## Contents

- §1 settled results
- §2 expressions
- §3 statements
- §4 from source to program
-/

namespace Scriptlet

open Scriptlet.Tree
open LooseTree (settled allSound)

/-! ## §1 Settled results -/

theorem settled_bind {α β : Type} (x : Except ConstructError α) (f : α → Except ConstructError β) :
    settled (x >>= f) = settled x >>= fun a => settled (f a) := by
  cases x <;> rfl

theorem loc_loose (t : Tree) : t.loose.loc = pure t.loc := by
  cases t <;> rfl

/-- Refusing a tree by a fault is refusing it in the words of the fault. -/
theorem refuse_loose {α : Type} (t : Tree) (fault : ConstructFault) :
    t.loose.refuse fault.message = settled (t.refuse fault : Except ConstructError α) := by
  rw [LooseTree.refuse, loc_loose]
  rfl

mutual

/-- Without its guarantees a tree is shown as it is. -/
theorem shown_loose : ∀ t : Tree, t.loose.shown = t.shown
  | .leaf t => by rw [Tree.loose, LooseTree.shown, Tree.shown]
  | .group f cs loc => by rw [Tree.loose, LooseTree.shown, Tree.shown, shownAll_looseAll cs]
  | .unary form x loc => by
    have hx := shown_loose x
    cases form <;>
      simp [Tree.loose, LooseTree.shown, Tree.shown, LooseTree.shownAll, hx, UnaryForm.category,
        UnaryForm.symbol, Text.words, Text.join]
  | .binary form x y loc => by
    have hx := shown_loose x
    have hy := shown_loose y
    cases form <;>
      simp [Tree.loose, LooseTree.shown, Tree.shown, LooseTree.shownAll, hx, hy,
        BinaryForm.category, BinaryForm.symbol, Text.words, Text.join]

theorem shownAll_looseAll : ∀ ts : List Tree, LooseTree.shownAll (looseAll ts) = Tree.shownAll ts
  | [] => by rw [looseAll, LooseTree.shownAll, Tree.shownAll]
  | t :: ts => by
    rw [looseAll, LooseTree.shownAll, Tree.shownAll, shown_loose t, shownAll_looseAll ts]

end

theorem isOperator_loose (op : Operator) (t : Tree) :
    t.loose.isOperator op = t.isOperator op := by
  cases t with
  | leaf u =>
    obtain ⟨x, i, level, loc⟩ := u
    cases x <;> rfl
  | _ => rfl

/-! ## §2 Expressions -/

/-- The operator of a program tree is found by its sign. -/
theorem ofSymbol?_spelling (op : Operator) : BinaryOp.ofSymbol? op.spelling = op.toBinary? := by
  cases op <;> rfl

theorem toBinary?_of_assignment {op : Operator} (h : op.tier? = some .assignment) :
    op.toBinary? = none := by
  cases op <;> first | rfl | cases h

theorem allSound_cons (t : Tree) (ts : List Tree) :
    allSound (looseAll (t :: ts)) = (t.loose.isSound && allSound (looseAll ts)) := by
  rw [looseAll, allSound]

/-- What soundness says of an operator between operands. -/
theorem isSound_between {tier : Tier} {op : Operator} {x y : Tree} {loc : Location}
    (h : (Tree.binary (.between tier op) x y loc).loose.isSound = true) :
    op.tier? = some tier ∧ x.loose.isSound = true ∧ y.loose.isSound = true := by
  rw [isSound_binary] at h
  simp only [Bool.and_eq_true, Category.admits, BinaryForm.category, BinaryForm.symbol,
    contains_symbols, beq_iff_eq] at h
  exact ⟨h.1.1.2, h.1.2, h.2⟩

/-- A construct that programs cannot contain is refused as it is. -/
theorem refuseConstruct_loose (t : Tree) (category : Category) :
    t.loose.refuse (ConstructFault.notSupported category t.loose.shown).message =
      settled (t.refuseConstruct category : Except ConstructError Node) := by
  rw [shown_loose, refuse_loose, Tree.refuseConstruct]

section Lowering

-- the equations of both ways of lowering, by which the forms without an operation are opened
attribute [local simp] lowerExpr LooseTree.lowerExpr

theorem lowerExpr_loose_leading {op : Operator} {x : Tree} (loc : Location)
    (hx : x.loose.lowerExpr = settled (lowerExpr x)) :
    (Tree.unary (.leading op) x loc).loose.lowerExpr =
      settled (lowerExpr (.unary (.leading op) x loc)) := by
  have hrefuse := refuseConstruct_loose (.unary (.leading op) x loc) .leading
  rw [lowerExpr, settled_bind, ← hx]
  rw [Tree.loose] at hrefuse ⊢
  rw [UnaryForm.category, UnaryForm.symbol, LooseTree.lowerExpr, LooseTree.lowerOperand]
  refine congrArg (x.loose.lowerExpr >>= ·) (funext fun operand => ?_)
  by_cases hminus : op = .minus
  · subst hminus
    rfl
  by_cases hbang : op = .bang
  · subst hbang
    rfl
  by_cases hplus : op = .plus
  · subst hplus
    rfl
  -- any other operator is refused
  have hminus' : op.spelling ≠ "-" := Operator.spelling_injective.ne hminus
  have hbang' : op.spelling ≠ "!" := Operator.spelling_injective.ne hbang
  have hplus' : op.spelling ≠ "+" := Operator.spelling_injective.ne hplus
  rw [if_neg hminus', if_neg hbang', if_neg hplus']
  refine hrefuse.trans (congrArg settled ?_)
  cases op <;> first | rfl | contradiction

theorem isSound_call {x y : Tree} {loc : Location}
    (h : (Tree.binary .call x y loc).loose.isSound = true) : y.isGroup .parenthesis = true := by
  rw [isSound_binary] at h
  simp only [Bool.and_eq_true, Category.admits, BinaryForm.category, isGroup_loose] at h
  exact h.1.1.2

/-- A group that is no parenthesised expression is refused. -/
theorem lowerExpr_loose_group {f : Family} {cs : List Tree} (loc : Location)
    (hother : ∀ inner, f = .parenthesis → cs = [inner] → False) :
    (Tree.group f cs loc).loose.lowerExpr = settled (lowerExpr (.group f cs loc)) := by
  have hrefuse := refuse_loose (α := Node) (.group f cs loc)
    (.unexpected (Tree.group f cs loc).shown)
  rw [← shown_loose, Tree.loose] at hrefuse
  rw [lowerExpr, Tree.loose, LooseTree.lowerExpr, hrefuse, ← Tree.loose, shown_loose]
  · intro inner hf hcs
    cases cs with
    | nil => cases hcs
    | cons c cs =>
      cases cs with
      | nil => exact hother c hf rfl
      | cons c' cs => cases hcs
  · exact hother

/-- A construct with one operand is refused, unless its operator leads. -/
theorem lowerExpr_loose_unary {form : UnaryForm} (x : Tree) (loc : Location)
    (hother : ∀ op, form = .leading op → False) :
    (Tree.unary form x loc).loose.lowerExpr = settled (lowerExpr (.unary form x loc)) := by
  have hrefuse := refuseConstruct_loose (.unary form x loc) form.category
  rw [lowerExpr]
  · rw [← hrefuse]
    cases form with
    | leading op => exact absurd rfl (hother op)
    | keyword k | trailing op => simp [Tree.loose, UnaryForm.category]
  · exact hother

/-- A call of anything but a name is refused. -/
theorem lowerExpr_loose_callee {callee : Tree} (f : Family) (cs : List Tree) (at_ loc : Location)
    (hother : ∀ name i level nameLoc, callee = .leaf ⟨.name name, i, level, nameLoc⟩ → False) :
    (Tree.binary .call callee (.group f cs at_) loc).loose.lowerExpr =
      settled (lowerExpr (.binary .call callee (.group f cs at_) loc)) := by
  have hname : callee.loose.name? = none := by
    cases callee with
    | leaf u =>
      obtain ⟨x, i, level, nameLoc⟩ := u
      cases x <;> first | rfl | exact absurd rfl (hother _ i level nameLoc)
    | _ => rfl
  have hrefuse := refuse_loose (α := Node) (.binary .call callee (.group f cs at_) loc)
    (.cannotCall callee.shown)
  rw [lowerExpr, ← hrefuse, Tree.loose, BinaryForm.category, LooseTree.lowerExpr,
    LooseTree.operand, pure_bind, hname, shown_loose]
  exact hother

theorem lowerExpr_loose_between {tier : Tier} {op : Operator} {bin : BinaryOp} {x y : Tree}
    (loc : Location) (hbin : op.toBinary? = some bin) (htier : op.tier? = some tier)
    (hx : x.loose.lowerExpr = settled (lowerExpr x))
    (hy : y.loose.lowerExpr = settled (lowerExpr y)) :
    (Tree.binary (.between tier op) x y loc).loose.lowerExpr =
      settled (lowerExpr (.binary (.between tier op) x y loc)) := by
  rw [lowerExpr, hbin]
  simp only [settled_bind, ← hx, ← hy]
  rw [Tree.loose, BinaryForm.category, BinaryForm.symbol]
  cases tier with
  | assignment =>
    rw [toBinary?_of_assignment htier] at hbin
    cases hbin
  | _ => rw [LooseTree.lowerExpr, ofSymbol?_spelling, hbin] <;> first | rfl | simp

/-- An operator between operands that is that of no operation is refused. -/
theorem lowerExpr_loose_betweenNone (tier : Tier) {op : Operator} (x y : Tree) (loc : Location)
    (hbin : op.toBinary? = none) :
    (Tree.binary (.between tier op) x y loc).loose.lowerExpr =
      settled (lowerExpr (.binary (.between tier op) x y loc)) := by
  have hrefuse := refuseConstruct_loose (.binary (.between tier op) x y loc) (.between tier)
  rw [lowerExpr, hbin, ← hrefuse, Tree.loose, BinaryForm.category, BinaryForm.symbol]
  cases tier with
  | assignment => rw [LooseTree.lowerExpr]
  | _ => rw [LooseTree.lowerExpr, ofSymbol?_spelling, hbin]; simp

/-- Any other construct with two operands is refused. -/
theorem lowerExpr_loose_binary {form : BinaryForm} {x y : Tree} (loc : Location)
    (hcall : ∀ f cs at_, form = .call → y = .group f cs at_ → False)
    (hbetween : ∀ tier op, form = .between tier op → False)
    (h : (Tree.binary form x y loc).loose.isSound = true) :
    (Tree.binary form x y loc).loose.lowerExpr = settled (lowerExpr (.binary form x y loc)) := by
  have hrefuse := refuseConstruct_loose (.binary form x y loc) form.category
  rw [lowerExpr]
  · rw [← hrefuse]
    cases form with
    | between tier op => exact absurd rfl (hbetween tier op)
    | call =>
      -- what is called is followed by a group
      have hgroup := isSound_call h
      cases y with
      | group f cs at_ => exact absurd rfl (hcall f cs at_ rfl)
      | _ => cases hgroup
    | member | index | function => simp [Tree.loose, BinaryForm.category]
  · exact hcall
  · exact hbetween

/-- Lowering by counting an expression or arguments has the result of lowering them. -/
theorem lowerExpr_loose_and :
    (∀ t : Tree, t.loose.isSound = true → t.loose.lowerExpr = settled (lowerExpr t)) ∧
      ∀ (callee : Text) (loc : Location) (ts : List Tree), allSound (looseAll ts) = true →
        LooseTree.lowerArgs callee loc (looseAll ts) = settled (lowerArgs callee loc ts) := by
  refine lowerExpr.mutual_induct _ _ ?leaf ?inner ?group ?leading ?unary ?callEmpty ?call ?callee
    ?between ?betweenNone ?binary ?noArgs ?comma ?lastArg ?commas ?args
  -- the cases are those of lowering a tree, and then those of the list of arguments
  case leaf =>
    intro u _
    simp [Tree.loose]
  case inner =>
    intro inner loc ih h
    rw [Tree.loose, LooseTree.isSound, allSound_cons, Bool.and_eq_true] at h
    rw [Tree.loose, looseAll, looseAll, LooseTree.lowerExpr, lowerExpr]
    exact ih h.1
  case group =>
    intro f cs loc hother _
    exact lowerExpr_loose_group loc hother
  case leading =>
    intro op x loc ih h
    rw [isSound_unary, Bool.and_eq_true] at h
    exact lowerExpr_loose_leading loc (ih h.2)
  case unary =>
    intro form x loc hother _
    exact lowerExpr_loose_unary x loc hother
  case callEmpty =>
    intro f at_ loc name i level nameLoc _
    rw [lowerExpr]
    rfl
  case call =>
    intro f at_ loc name i level nameLoc c more ih h
    rw [isSound_binary, Bool.and_eq_true, Bool.and_eq_true, Tree.loose, LooseTree.isSound] at h
    rw [lowerExpr, settled_bind, ← ih h.2]
    rfl
  case callee =>
    intro callee f cs at_ loc hother _
    exact lowerExpr_loose_callee f cs at_ loc hother
  case between =>
    intro tier op x y loc bin hbin ihx ihy h
    obtain ⟨htier, hx, hy⟩ := isSound_between h
    exact lowerExpr_loose_between loc hbin htier (ihx hx) (ihy hy)
  case betweenNone =>
    intro tier op x y loc hbin _
    exact lowerExpr_loose_betweenNone tier x y loc hbin
  case binary =>
    intro form x y loc hcall hbetween h
    exact lowerExpr_loose_binary loc hcall hbetween h
  case noArgs =>
    intro callee loc _
    rw [lowerArgs, looseAll, LooseTree.lowerArgs]
    rfl
  case comma =>
    intro callee loc t hcomma _
    rw [lowerArgs, looseAll, looseAll, LooseTree.lowerArgs, isOperator_loose, if_pos hcomma,
      if_pos hcomma]
    rfl
  case lastArg =>
    intro callee loc t hcomma ih h
    rw [allSound_cons, Bool.and_eq_true] at h
    rw [lowerArgs, looseAll, looseAll, LooseTree.lowerArgs, isOperator_loose, if_neg hcomma,
      if_neg hcomma, settled_bind, ← ih h.1]
    rfl
  case commas =>
    intro callee loc t sep rest hcommas _
    rw [lowerArgs, looseAll, looseAll, LooseTree.lowerArgs, isOperator_loose, isOperator_loose,
      if_pos hcommas, if_pos hcommas]
    rfl
  case args =>
    intro callee loc t sep rest hcommas iht ihrest h
    rw [allSound_cons, allSound_cons, Bool.and_eq_true, Bool.and_eq_true] at h
    rw [lowerArgs, looseAll, looseAll, LooseTree.lowerArgs, isOperator_loose, isOperator_loose,
      if_neg hcommas, if_neg hcommas, settled_bind, ← iht h.1]
    refine congrArg (t.loose.lowerExpr >>= ·) (funext fun x => ?_)
    rw [settled_bind, ← ihrest h.2.2]
    rfl

end Lowering

theorem lowerExpr_loose {t : Tree} (h : t.loose.isSound = true) :
    t.loose.lowerExpr = settled (lowerExpr t) :=
  lowerExpr_loose_and.1 t h

/-! ## §3 Statements -/

theorem isSound_keyword {k : Keyword} {x : Tree} {loc : Location}
    (h : (Tree.unary (.keyword k) x loc).loose.isSound = true) :
    x.isOperand = true ∧ x.loose.isSound = true := by
  rw [isSound_unary] at h
  simp only [Bool.and_eq_true, Category.admits, List.all_cons, isOperand_loose] at h
  exact ⟨h.1.1.2.1, h.2⟩

/-- What a reserved word is lifted from is sound behind it. -/
theorem isSound_liftKeyword {k : Keyword} {at_ : Location} : ∀ {t rest : Tree},
    t.loose.isSound = true → liftKeyword t = some (k, at_, rest) →
      rest.isOperand = true ∧ rest.loose.isSound = true
  | .unary (.keyword _) x loc, _, h, hlift => by
    cases hlift
    exact isSound_keyword h
  | .binary (.between tier op) x y loc, _, h, hlift => by
    obtain ⟨⟨word, wordLoc, inner⟩, hinner, heq⟩ := Option.map_eq_some_iff.mp hlift
    cases heq
    obtain ⟨htier, hx, hy⟩ := isSound_between h
    obtain ⟨hoperand, hsound⟩ := isSound_liftKeyword hx hinner
    -- the chain differs in its first operand only
    rw [isSound_binary] at h ⊢
    simp only [Bool.and_eq_true, Category.admits, List.all_cons, isOperand_loose] at h ⊢
    exact ⟨rfl, ⟨⟨⟨h.1.1.1.1, hoperand, h.1.1.1.2.2⟩, h.1.1.2⟩, hsound⟩, hy⟩
  | .leaf _, _, _, hlift | .group _ _ _, _, _, hlift | .unary (.trailing _) _ _, _, _, hlift
  | .unary (.leading _) _ _, _, _, hlift | .binary .member _ _ _, _, _, hlift
  | .binary .index _ _ _, _, _, hlift | .binary .call _ _ _, _, _, hlift
  | .binary .function _ _ _, _, _, hlift => by cases hlift

/-- The reserved word of a chain is found by counting. -/
theorem liftKeyword_loose : ∀ t : Tree,
    t.loose.liftKeyword = pure ((liftKeyword t).map fun (k, at_, rest) =>
      (k.spelling, at_, rest.loose))
  | .binary (.between tier op) x y loc => by
    rw [Tree.loose, BinaryForm.category, LooseTree.liftKeyword, liftKeyword_loose x, liftKeyword]
    cases liftKeyword x <;> rfl
  | .unary (.keyword _) _ _ | .leaf _ | .group _ _ _ | .unary (.trailing _) _ _
  | .unary (.leading _) _ _ | .binary .member _ _ _ | .binary .index _ _ _
  | .binary .call _ _ _ | .binary .function _ _ _ => rfl

/-- A compound assignment has the sign of its operation in front of the assignment sign. -/
theorem ofSymbol?_dropLast {op : Operator} (h : op.tier? = some .assignment) :
    op = .assign ∨ op ≠ .assign ∧ op.spelling.isEmpty = false ∧
      ∃ bin, op.compound? = some bin ∧ BinaryOp.ofSymbol? op.spelling.dropLast = some bin := by
  cases op <;> first
    | exact .inl rfl
    | exact .inr ⟨by decide, rfl, _, rfl, rfl⟩
    | cases h

/-- A tree is a name, or it has none for counting either. -/
theorem name_or_name?_eq_none (t : Tree) :
    (∃ name i level loc, t = .leaf ⟨.name name, i, level, loc⟩) ∨
      t.name? = none ∧ t.loose.name? = none := by
  cases t with
  | leaf u =>
    obtain ⟨x, i, level, loc⟩ := u
    cases x with
    | name name => exact .inl ⟨name, i, level, loc, rfl⟩
    | _ => exact .inr ⟨rfl, rfl⟩
  | _ => exact .inr ⟨rfl, rfl⟩

theorem lowerAssignment_loose {op : Operator} {target value : Tree} {loc : Location}
    (h : (Tree.binary (.between .assignment op) target value loc).loose.isSound = true) :
    LooseTree.lowerAssignment op.spelling [target.loose, value.loose] loc =
      settled (lowerAssignment op target value loc) := by
  obtain ⟨htier, _, hvalue⟩ := isSound_between h
  -- a target is a name, or it has none for either way of lowering
  obtain ⟨name, i, level, nameLoc, rfl⟩ | ⟨hname, hcounted⟩ := name_or_name?_eq_none target
  · rw [lowerAssignment, settled_bind, ← lowerExpr_loose hvalue]
    simp only [LooseTree.lowerAssignment, LooseTree.operand, LooseTree.lowerOperand, Tree.loose,
      LooseTree.name?, pure_bind]
    refine congrArg (value.loose.lowerExpr >>= ·) (funext fun x => ?_)
    obtain rfl | ⟨hassign, hempty, bin, hcompound, hsymbol⟩ := ofSymbol?_dropLast htier
    · rfl
    · have hassign' : op.spelling ≠ "=" := Operator.spelling_injective.ne hassign
      simp only [hassign', hempty, hcompound, hsymbol, if_false, Bool.false_eq_true]
      rfl
  · have hrefuse := refuse_loose (α := Node) (.binary (.between .assignment op) target value loc)
      (.cannotAssign target.shown)
    have hlower : lowerAssignment op target value loc =
        (Tree.binary (.between .assignment op) target value loc).refuse
          (.cannotAssign target.shown) := by
      unfold lowerAssignment
      split
      · cases hname
      · rfl
    rw [hlower, ← hrefuse, LooseTree.lowerAssignment, LooseTree.operand, pure_bind, hcounted,
      shown_loose]
    rfl

theorem lowerDeclaration_loose (whole : Tree) (k : Keyword) (at_ : Location) {rest : Tree}
    (h : rest.loose.isSound = true) :
    LooseTree.lowerDeclaration whole.loose k at_ rest.loose =
      settled (lowerDeclaration whole k at_ rest) := by
  have hrefuse := refuse_loose (α := Node) whole (.declarationForm k)
  unfold lowerDeclaration
  split
  -- a declaration has a form only where a name is assigned to, and that is decided alike
  · next name i level nameLoc value loc =>
    obtain ⟨_, _, hvalue⟩ := isSound_between h
    rw [settled_bind, ← lowerExpr_loose hvalue]
    rfl
  · next hother =>
    rw [← hrefuse]
    cases rest with
    | leaf u => rfl
    | group f cs loc => rfl
    | unary form x loc => cases form <;> rfl
    | binary form target value loc =>
      cases form with
      | between tier op =>
        cases tier with
        | assignment =>
          rw [Tree.loose, BinaryForm.category, BinaryForm.symbol, LooseTree.lowerDeclaration]
          split
          · next heq =>
            obtain rfl : op = .assign := Operator.spelling_injective heq
            obtain ⟨name, i, level, nameLoc, rfl⟩ | ⟨_, hcounted⟩ := name_or_name?_eq_none target
            · exact absurd rfl (hother name i level nameLoc value loc)
            · rw [LooseTree.operand, pure_bind, hcounted]
          · rfl
        | _ => rfl
      | _ => rfl

theorem lowerSimple_loose {t : Tree} (h : t.loose.isSound = true) :
    t.loose.lowerSimple = settled (lowerSimple t) := by
  unfold LooseTree.lowerSimple lowerSimple
  rw [liftKeyword_loose, pure_bind]
  cases hlift : liftKeyword t with
  -- without a keyword only an assignment is lowered otherwise than an expression
  | none =>
    have hexpr := lowerExpr_loose h
    cases t with
    | leaf u => exact hexpr
    | group f cs loc => exact hexpr
    | unary form x loc => cases form <;> exact hexpr
    | binary form x y loc =>
      cases form with
      | between tier op =>
        cases tier with
        | assignment => exact lowerAssignment_loose h
        | _ => exact hexpr
      | _ => exact hexpr
  | some found =>
    obtain ⟨k, at_, rest⟩ := found
    obtain ⟨_, hrest⟩ := isSound_liftKeyword h hlift
    cases k with
    | returnWord =>
      dsimp only
      rw [settled_bind, ← lowerExpr_loose hrest]
      rfl
    | letWord => exact lowerDeclaration_loose t .letWord at_ hrest
    | varWord => exact lowerDeclaration_loose t .varWord at_ hrest
    | _ => exact refuse_loose t (.keywordHere _)

theorem lowerStatement_loose_and :
    (∀ t : Tree, t.loose.isSound = true → t.loose.lowerStatement = settled (lowerStatement t)) ∧
      ∀ ts : List Tree, allSound (looseAll ts) = true →
        LooseTree.lowerStatements (looseAll ts) = settled (lowerStatements ts) := by
  refine lowerStatement.mutual_induct _ _ ?braces ?simple ?none ?semicolon ?last ?skip ?next
    ?juxtaposed
  -- the cases are those of a statement, and then those of a row of statements
  case braces =>
    intro cs loc ih h
    rw [Tree.loose, LooseTree.isSound] at h
    rw [Tree.loose, LooseTree.lowerStatement, lowerStatement, settled_bind, ← ih h]
    rfl
  case simple =>
    intro t hother h
    rw [lowerStatement, LooseTree.lowerStatement, lowerSimple_loose h]
    · intro cs loc heq
      cases t with
      | group f ds at_ =>
        rw [Tree.loose] at heq
        cases heq
        exact hother ds _ rfl
      | _ => cases heq
    · exact hother
  case none =>
    intro _
    rfl
  case semicolon =>
    intro t hsemi _
    rw [lowerStatements, looseAll, looseAll, LooseTree.lowerStatements, isOperator_loose,
      if_pos hsemi, if_pos hsemi]
    rfl
  case last =>
    intro t hsemi ih h
    rw [allSound_cons, Bool.and_eq_true] at h
    rw [lowerStatements, looseAll, looseAll, LooseTree.lowerStatements, isOperator_loose,
      if_neg hsemi, if_neg hsemi, settled_bind, ← ih h.1]
    rfl
  case skip =>
    intro t next rest hsemi ih h
    rw [allSound_cons, Bool.and_eq_true] at h
    rw [lowerStatements, looseAll, looseAll, LooseTree.lowerStatements, isOperator_loose,
      if_pos hsemi, if_pos hsemi, ← ih h.2, looseAll]
  case next =>
    intro t next rest hsemi hnext iht ihrest h
    rw [allSound_cons, Bool.and_eq_true] at h
    rw [lowerStatements, looseAll, looseAll, LooseTree.lowerStatements, isOperator_loose,
      isOperator_loose, if_neg hsemi, if_neg hsemi, if_pos hnext, if_pos hnext, settled_bind,
      ← iht h.1]
    refine congrArg (t.loose.lowerStatement >>= ·) (funext fun x => ?_)
    rw [settled_bind, ← ihrest h.2]
    rfl
  case juxtaposed =>
    intro t next rest hsemi hnext _
    rw [lowerStatements, looseAll, looseAll, LooseTree.lowerStatements, isOperator_loose,
      isOperator_loose, if_neg hsemi, if_neg hsemi, if_neg hnext, if_neg hnext, shown_loose,
      shown_loose, refuse_loose]

/-- On a sound forest lowering by counting does not crash, and has the result of lowering. -/
theorem lower_loose {ts : List Tree} (h : ∀ t ∈ ts, t.loose.isSound = true) :
    LooseTree.lower (looseAll ts) = settled (lower ts) := by
  rw [LooseTree.lower, lower, settled_bind,
    ← lowerStatement_loose_and.2 ts ((allSound_looseAll ts).mpr h)]
  refine congrArg (_ >>= ·) (funext fun stmts => ?_)
  cases ts with
  | nil => rfl
  | cons t ts => rw [looseAll]; simp only [loc_loose]; rfl

/-! ## §4 From source to program -/

/-- **Reduced forests are sound and lowering them cannot crash.** Whenever a source has a reduced
forest, everywhere in it there are only leaves that may be left over and constructs with the
operands and symbols they should have. A program that lowers it by counting gets a program or a
refusal, the same as lowering does. -/
theorem forestOf_isSound_and_lower_loose (source : Text) (forest : List Tree)
    (h : forestOf source = .ok forest) :
    allSound (looseAll forest) = true ∧
      (LooseTree.lower (looseAll forest)).run =
        .ok ((lower forest).mapError ConstructError.inWords) := by
  obtain ⟨groups, hgroups, h⟩ := bind_eq_ok.mp h
  obtain ⟨tokens, _, hgroups⟩ := bind_eq_ok.mp hgroups
  have hsound := isSound_reduce (mapError_eq_ok.mp hgroups) (mapError_eq_ok.mp h)
  exact ⟨(allSound_looseAll forest).mpr hsound, lower_loose hsound⟩

/-- Statements with a declaration, a call, accessors and signs. -/
def crowdedSource : Text := "let x = f(1, -a.b[c]) ** 2; x += i++ * (3); return !x && y"

theorem forestOf_isSound_crowded :
    ∃ forest, forestOf crowdedSource = .ok forest ∧ allSound (looseAll forest) = true ∧
      (LooseTree.lower (looseAll forest)).run =
        .ok ((lower forest).mapError ConstructError.inWords) ∧
      shownForest forest =
        "(= (let x) (** (call f (1 , (- ([] (. a b) [c])))) 2)) ; (+= x (* (i ++) (3))) ; "
          ++ "(&& (return (! x)) y)" := by
  have hshown : (forestOf crowdedSource).map shownForest = .ok
      ("(= (let x) (** (call f (1 , (- ([] (. a b) [c])))) 2)) ; (+= x (* (i ++) (3))) ; "
        ++ "(&& (return (! x)) y)") := by decide +kernel
  -- the forest is computed once, and the claims about it are instances of the general ones
  cases hforest : forestOf crowdedSource with
  | error e =>
    rw [hforest] at hshown
    cases hshown
  | ok forest =>
    rw [hforest] at hshown
    obtain ⟨hsound, hlower⟩ := forestOf_isSound_and_lower_loose crowdedSource forest hforest
    exact ⟨forest, rfl, hsound, hlower, Except.ok.inj hshown⟩

/-- A call without operands would crash. -/
example : (LooseTree.lower [.construct .call "call" [] .nowhere]).run = .error .noOperand := by
  rfl

end Scriptlet
