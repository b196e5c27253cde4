import Scriptlet.Proofs.Lowered

/-!
# Rows of operands and operators are reduced

What stands between two delimiters of an expression is a row: operands, each with its signs before
it, and operators or commas between them. The passes succeed on every row. Each of them turns a row
into a row in which some constructs have become single operands, and behind the last one nothing but
commas is left between them. Which operators bind first makes no difference to that.

## Contents

- §1 trees that are expressions
- §2 rows
- §3 passes that leave rows alone
- §4 calls and signs
- §5 operators between operands
- §6 all passes
-/

namespace Scriptlet

open Scriptlet.Tree

variable {t o : Tree} {ts done : List Tree}

/-! ## §1 Trees that are expressions -/

/-- The tree stands for an expression. -/
def Lowers (t : Tree) : Prop := t.level ≤ 7 ∧ ∃ n, lowerExpr t = .ok n

/-- What is lowered to an expression is an operand. -/
theorem Lowers.isOperand (h : Lowers t) : t.isOperand = true := by
  obtain ⟨_, n, hn⟩ := h
  cases t with
  | leaf u =>
    obtain ⟨x, i, level, loc⟩ := u
    rw [lowerExpr] at hn
    cases x <;> first | rfl | cases hn
  | _ => rfl

/-- No reserved word is applied in an expression. -/
theorem liftKeyword_of_lowerExpr {n : Node} (h : lowerExpr t = .ok n) : liftKeyword t = none := by
  -- a reserved word is no expression, and a chain is lifted from its first operand
  fun_induction liftKeyword t generalizing n with
  | case1 k x loc => cases lowersTo_of_lowerExpr h
  | case2 tier op x y loc ih =>
    cases lowersTo_of_lowerExpr h with
    | between _ _ _ hleft _ => rw [ih hleft, Option.map_none]
  | case3 => rfl

/-- A statement may be an expression. -/
theorem lowerStatement_of_lowerExpr {n : Node} (hlevel : t.level ≤ 7) (h : lowerExpr t = .ok n) :
    lowerStatement t = .ok n := by
  -- no expression is an assignment, and none is in braces
  rw [lowerStatement]
  · unfold lowerSimple
    rw [liftKeyword_of_lowerExpr h]
    simp only
    split
    · exact absurd hlevel (by simp [Tree.level, Tier.level])
    · exact h
  · rintro cs loc rfl
    rw [lowerExpr] at h
    · cases h
    · simp

/-! ## §2 Rows -/

/-- Atoms with separators between neighbours. -/
inductive Row (Atom : List Tree → Prop) (Sep : Tree → Prop) : List Tree → Prop where
  | one (a : List Tree) (h : Atom a) : Row Atom Sep a
  | more (a : List Tree) (o : Tree) (ts : List Tree) (ha : Atom a) (ho : Sep o)
      (h : Row Atom Sep ts) : Row Atom Sep (a ++ o :: ts)

namespace Row

variable {Atom : List Tree → Prop} {Sep : Tree → Prop} {us : List Tree}

/-- Rows with a separator between them are a row. -/
theorem append (h : Row Atom Sep ts) (ho : Sep o) (h' : Row Atom Sep us) :
    Row Atom Sep (ts ++ o :: us) := by
  induction h with
  | one a ha => exact .more a o us ha ho h'
  | more a p ts ha hp _ ih =>
    rw [List.append_assoc, List.cons_append]
    exact .more a p _ ha hp ih

/-- What may stand before an atom may stand before a row. -/
theorem cons (hcons : ∀ a, Atom a → Atom (t :: a)) (h : Row Atom Sep ts) :
    Row Atom Sep (t :: ts) := by
  cases h with
  | one a ha => exact .one _ (hcons _ ha)
  | more a o ts ha ho h => exact .more _ o ts (hcons a ha) ho h

/-- A row of separators is one for any larger kind of them. -/
theorem imp {Sep' : Tree → Prop} (hsep : ∀ o, Sep o → Sep' o) (h : Row Atom Sep ts) :
    Row Atom Sep' ts := by
  induction h with
  | one a ha => exact .one a ha
  | more a o ts ha ho _ ih => exact .more a o ts ha (hsep o ho) ih

/-- What holds of all atoms and separators holds of all trees of the row. -/
theorem all {P : Tree → Prop} (hatom : ∀ a, Atom a → ∀ t ∈ a, P t) (hsep : ∀ o, Sep o → P o)
    (h : Row Atom Sep ts) : ∀ t ∈ ts, P t := by
  induction h with
  | one a ha => exact hatom a ha
  | more a o ts ha ho _ ih =>
    exact List.forall_mem_append.mpr ⟨hatom a ha, List.forall_mem_cons.mpr ⟨hsep o ho, ih⟩⟩

end Row

/-- One tree that stands for an expression. -/
def Single (a : List Tree) : Prop := ∃ t, a = [t] ∧ Lowers t

/-- An expression before the pass of calls: a tree, or a name and its arguments. -/
inductive Kernel : List Tree → Prop where
  | tree (t : Tree) (h : Lowers t) : Kernel [t]
  | call (name : Text) (i level : Nat) (loc : Location) (cs : List Tree) (at_ : Location)
      (h : Lowers (.binary .call (.leaf ⟨.name name, i, level, loc⟩) (.group .parenthesis cs at_)
        loc)) :
      Kernel [.leaf ⟨.name name, i, level, loc⟩, .group .parenthesis cs at_]

/-- Signs before a kernel. -/
inductive Signed (Kernel : List Tree → Prop) : List Tree → Prop where
  | bare (a : List Tree) (h : Kernel a) : Signed Kernel a
  | sign (op : Operator) (hop : op = .minus ∨ op = .plus ∨ op = .bang) (i level : Nat)
      (loc : Location) (a : List Tree) (h : Signed Kernel a) :
      Signed Kernel (.leaf ⟨.operator op .leading, i, level, loc⟩ :: a)

/-- What stands between operands where operators of the levels up to `k` have been applied: an
operator of a looser level, or a comma if there may be commas. -/
inductive Separates (commas : Bool) (k : Nat) : Tree → Prop where
  | between (op : Operator) (tier : Tier) (htier : op.tier? = some tier) (hk : k < tier.level)
      (hbinary : op.toBinary?.isSome = true) (i level : Nat) (loc : Location) :
      Separates commas k (.leaf ⟨.operator op .dual, i, level, loc⟩)
  | comma (h : commas = true) (i level : Nat) (loc : Location) :
      Separates commas k (.leaf ⟨.operator .comma .separator, i, level, loc⟩)

/-! ## §3 Passes that leave rows alone -/

/-- The tree takes no part in the constructs that expressions do not have. -/
def Tree.inert : Tree → Bool
  | .leaf ⟨.keyword _, _, _, _⟩ => false
  | .leaf ⟨.operator op f, _, _, _⟩ => op != .dot && f != .trailing
  | .group f _ _ => f == .parenthesis
  | _ => true

/-- What is lowered to an expression is left alone by the early passes. -/
theorem Lowers.inert (h : Lowers t) : t.inert = true := by
  obtain ⟨_, n, hn⟩ := h
  -- neither keywords nor signs are expressions, and only parentheses are groups that are
  cases t with
  | leaf u =>
    obtain ⟨x, i, level, loc⟩ := u
    rw [lowerExpr] at hn
    cases x <;> first | rfl | cases hn
  | group f cs loc =>
    cases lowersTo_of_lowerExpr hn with
    | group => rfl
  | _ => rfl

theorem Kernel.inert {a : List Tree} (h : Kernel a) : ∀ t ∈ a, t.inert = true := by
  cases h with
  | tree t h => exact List.forall_mem_singleton.mpr h.inert
  | call => exact List.forall_mem_cons.mpr ⟨rfl, List.forall_mem_singleton.mpr rfl⟩

/-- A single operand is left alone by the early passes. -/
theorem Single.inert {a : List Tree} (h : Single a) : ∀ t ∈ a, t.inert = true := by
  obtain ⟨t, rfl, ht⟩ := h
  exact List.forall_mem_singleton.mpr ht.inert

theorem Signed.inert {K : List Tree → Prop} {a : List Tree} (h : Signed K a)
    (hK : ∀ a, K a → ∀ t ∈ a, t.inert = true) : ∀ t ∈ a, t.inert = true := by
  induction h with
  | bare a h => exact hK a h
  | sign op hop i level loc a _ ih =>
    refine List.forall_mem_cons.mpr ⟨?_, ih⟩
    rcases hop with rfl | rfl | rfl <;> rfl

theorem Separates.inert {commas : Bool} {k : Nat} (h : Separates commas k o) :
    o.inert = true := by
  cases h with
  | between op tier htier => cases op <;> first | rfl | cases htier
  | comma => rfl

/-- The member pass leaves inert trees alone. -/
theorem memberPass_of_inert (h : ∀ t ∈ ts, t.inert = true) :
    memberPass done ts = .ok (done.reverse ++ ts) := by
  induction ts generalizing done with
  | nil => rw [memberPass, List.append_nil]
  | cons t ts ih =>
    obtain ⟨ht, hts⟩ := List.forall_mem_cons.mp h
    rw [memberPass]
    split
    -- what is inert is no point
    · next f heq =>
      unfold lexeme? at heq
      split at heq
      · next u =>
        obtain ⟨x, i, level, loc⟩ := u
        obtain rfl : x = .operator .dot f := Option.some.inj heq
        cases ht
      · cases heq
    · rw [ih hts, List.reverse_cons, List.append_assoc]
      rfl

/-- A pass that joins neighbours leaves those alone that do not join. -/
theorem joinPass_of_none {join : Tree → Tree → Option Tree}
    (h : ∀ t ∈ ts, ∀ left, join left t = none) : joinPass join done ts = done.reverse ++ ts := by
  induction ts generalizing done with
  | nil => rw [joinPass, List.append_nil]
  | cons t ts ih =>
    obtain ⟨ht, hts⟩ := List.forall_mem_cons.mp h
    rw [joinPass.eq_def]
    cases done with
    | nil => simp [ih hts]
    | cons left done => simp [ht left, ih hts]

/-- Only groups in parentheses are inert. -/
theorem isGroup_of_inert {f : Family} (h : t.inert = true) (hf : f ≠ .parenthesis) :
    t.isGroup f = false := by
  cases t with
  | group g cs loc =>
    obtain rfl : g = .parenthesis := by simpa [inert] using h
    simpa [isGroup] using hf
  | _ => rfl

/-- Without groups of the family nothing is joined to what is indexed or called. -/
theorem joinPass_of_not_group {f : Family} {form : BinaryForm}
    (h : ∀ t ∈ ts, t.isGroup f = false) :
    joinPass (joinAccessor f form) done ts = done.reverse ++ ts :=
  joinPass_of_none fun t ht left => by simp [joinAccessor, h t ht]

theorem joinFunction_of_inert (h : ∀ t ∈ ts, t.inert = true) :
    joinPass joinFunction [] ts = ts :=
  joinPass_of_none fun t ht left => by
    simp [joinFunction, isGroup_of_inert (f := .brace) (h t ht) (by decide)]

/-- The keyword pass leaves inert trees alone. -/
theorem keywordPass_of_inert (h : ∀ t ∈ ts, t.inert = true) : keywordPass ts = .ok ts := by
  induction ts with
  | nil => rfl
  | cons t ts ih =>
    obtain ⟨ht, hts⟩ := List.forall_mem_cons.mp h
    rw [keywordPass, ih hts]
    refine bind_eq_ok.mpr ⟨ts, rfl, ?_⟩
    split
    · cases ht
    · rfl

/-- The trailing pass leaves inert trees alone. -/
theorem trailingPass_of_inert (h : ∀ t ∈ ts, t.inert = true) :
    trailingPass done ts = .ok (done.reverse ++ ts) := by
  induction ts generalizing done with
  | nil => rw [trailingPass, List.append_nil]
  | cons t ts ih =>
    obtain ⟨ht, hts⟩ := List.forall_mem_cons.mp h
    -- what is inert is no sign behind an operand
    have hop : t.operator? .trailing = none := by
      unfold operator?
      split
      · next op f i level loc =>
        simp only [inert, Bool.and_eq_true, bne_iff_ne] at ht
        simp [ht.2]
      · rfl
    rw [trailingPass, hop]
    simp only
    rw [ih hts, List.reverse_cons, List.append_assoc]
    rfl

/-! ## §4 Calls and signs -/

section Joins

variable {join : Tree → Tree → Option Tree} {left joined : Tree} {rest : List Tree}

/-- A pass that joins neighbours goes on over a tree that does not join. -/
theorem joinPass_push (h : ∀ left, done.head? = some left → join left t = none) :
    joinPass join done (t :: rest) = joinPass join (t :: done) rest := by
  rw [joinPass.eq_def]
  cases done with
  | nil => rfl
  | cons left done => simp [h left rfl]

/-- A pass that joins neighbours goes on with the two that it joined. -/
theorem joinPass_joins (h : join left t = some joined) :
    joinPass join (left :: done) (t :: rest) = joinPass join (joined :: done) rest := by
  rw [joinPass.eq_def]
  simp [h]

end Joins

/-- The pass that joins names and their arguments. -/
abbrev callPass : List Tree → List Tree → List Tree := joinPass (joinAccessor .parenthesis .call)

/-- Nothing is joined to a tree that cannot be called. -/
theorem joinAccessor_eq_none {left : Tree} (h : left.isAccessor = false ∨
    t.isGroup .parenthesis = false) : joinAccessor .parenthesis .call left t = none := by
  rcases h with h | h <;> simp [joinAccessor, h]

/-- Behind something that cannot be called, the kernel of an operand becomes a tree of its own. -/
theorem callPass_signed {a rest : List Tree} (h : Signed Kernel a)
    (hdone : ∀ left, done.head? = some left → left.isAccessor = false) :
    ∃ b, callPass done (a ++ rest) = callPass (b.reverse ++ done) rest ∧ Signed Single b := by
  induction h generalizing done with
  | bare a h =>
    cases h with
    | tree t h =>
      refine ⟨[t], joinPass_push fun left hleft => ?_, .bare _ ⟨t, rfl, h⟩⟩
      exact joinAccessor_eq_none (.inl (hdone left hleft))
    | call name i level loc cs at_ h =>
      refine ⟨[_], ?_, .bare _ ⟨_, rfl, h⟩⟩
      -- the name is pushed, since it is no group, and the arguments behind it are joined to it
      rw [List.cons_append, callPass, joinPass_push fun left _ => joinAccessor_eq_none (.inr rfl)]
      exact joinPass_joins rfl
  | sign op hop i level loc a _ ih =>
    rw [List.cons_append, callPass, joinPass_push fun left _ => joinAccessor_eq_none (.inr rfl)]
    have hsign : ∀ left,
        (Tree.leaf ⟨.operator op .leading, i, level, loc⟩ :: done).head? = some left →
          left.isAccessor = false := by
      rintro _ ⟨⟩
      rfl
    obtain ⟨b, hb, hsigned⟩ := ih hsign
    refine ⟨_, ?_, .sign op hop i level loc b hsigned⟩
    rw [List.reverse_cons, List.append_assoc]
    exact hb

/-- Behind the call pass the atoms are single, with their signs. -/
theorem callPass_row {commas : Bool} {k : Nat} (h : Row (Signed Kernel) (Separates commas k) ts)
    (hdone : ∀ left, done.head? = some left → left.isAccessor = false) :
    ∃ us, callPass done ts = done.reverse ++ us ∧
      Row (Signed Single) (Separates commas k) us := by
  induction h generalizing done with
  | one a ha =>
    obtain ⟨b, hb, hsigned⟩ := callPass_signed ha hdone
    refine ⟨b, ?_, .one b hsigned⟩
    rw [← List.append_nil a, hb, callPass, joinPass, List.reverse_append, List.reverse_reverse]
  | more a o ts ha ho _ ih =>
    obtain ⟨b, hb, hsigned⟩ := callPass_signed ha hdone
    -- what separates operands is neither called nor an argument list
    have hleaf : o.isGroup .parenthesis = false ∧ o.isAccessor = false := by
      cases ho <;> exact ⟨rfl, rfl⟩
    have hnext : ∀ left, (o :: (b.reverse ++ done)).head? = some left →
        left.isAccessor = false := by
      rintro _ ⟨⟩
      exact hleaf.2
    obtain ⟨us, hus, hrow⟩ := ih hnext
    refine ⟨b ++ o :: us, ?_, .more b o us hsigned ho hrow⟩
    rw [hb, callPass, joinPass_push fun left _ => joinAccessor_eq_none (.inr hleaf.1)]
    rw [callPass] at hus
    rw [hus]
    simp

/-- A signed operand is lowered, like its operand. -/
theorem Lowers.sign {op : Operator} {loc : Location} (h : Lowers t)
    (hop : op = .minus ∨ op = .plus ∨ op = .bang) : Lowers (.unary (.leading op) t loc) := by
  obtain ⟨_, n, hn⟩ := h
  refine ⟨by simp [Tree.level], ?_⟩
  rw [lowerExpr, hn]
  rcases hop with rfl | rfl | rfl <;> exact ⟨_, rfl⟩

theorem operator?_of_lowers {f : Fixity} (h : Lowers t) : t.operator? f = none := by
  have hoperand := h.isOperand
  unfold operator?
  split
  · cases hoperand
  · rfl

/-- What is lowered is no operator by itself. -/
theorem isOperator_of_lowers {op : Operator} (h : Lowers t) : t.isOperator op = false := by
  have hoperand := h.isOperand
  unfold isOperator
  split
  · cases hoperand
  · rfl

/-- Signs are applied to what stands behind them. -/
theorem leadingPass_signed {a rest more : List Tree} (h : Signed Single a)
    (hrest : leadingPass rest = .ok more) :
    ∃ t, leadingPass (a ++ rest) = .ok (t :: more) ∧ Lowers t := by
  -- signs are applied from the inside, so that the innermost operand comes first
  induction h with
  | bare a h =>
    obtain ⟨t, rfl, ht⟩ := h
    refine ⟨t, ?_, ht⟩
    rw [List.singleton_append, leadingPass, hrest, operator?_of_lowers ht]
    rfl
  | sign op hop i level loc a _ ih =>
    obtain ⟨t, ht, hlowers⟩ := ih
    refine ⟨.unary (.leading op) t loc, ?_, hlowers.sign hop⟩
    rw [List.cons_append, leadingPass, ht]
    refine bind_eq_ok.mpr ⟨t :: more, rfl, ?_⟩
    simp only [operator?, beq_self_eq_true, if_true, hlowers.isOperand]
    rfl

/-- Behind the leading pass the atoms are single. -/
theorem leadingPass_row {commas : Bool} {k : Nat}
    (h : Row (Signed Single) (Separates commas k) ts) :
    ∃ us, leadingPass ts = .ok us ∧ Row Single (Separates commas k) us := by
  -- the row is worked through from behind, where the pass has already been
  induction h with
  | one a ha =>
    have hnil : leadingPass [] = .ok [] := rfl
    obtain ⟨t, ht, hlowers⟩ := leadingPass_signed ha hnil
    rw [List.append_nil] at ht
    exact ⟨[t], ht, .one [t] ⟨t, rfl, hlowers⟩⟩
  | more a o ts ha ho _ ih =>
    obtain ⟨us, hus, hrow⟩ := ih
    have hsep : leadingPass (o :: ts) = .ok (o :: us) := by
      rw [leadingPass, hus]
      cases ho <;> rfl
    obtain ⟨t, ht, hlowers⟩ := leadingPass_signed ha hsep
    exact ⟨t :: o :: us, ht, .more [t] o us ⟨t, rfl, hlowers⟩ ho hrow⟩

/-! ## §5 Operators between operands -/

/-- Operators of expressions are not those of assignment. -/
theorem Operator.level_of_toBinary? {op : Operator} {tier : Tier} (htier : op.tier? = some tier)
    (hbinary : op.toBinary?.isSome = true) : tier.level ≤ 7 := by
  cases op <;> cases hbinary <;> cases htier <;> decide

/-- An operator between lowered operands is lowered. -/
theorem Lowers.between {op : Operator} {tier : Tier} {x y : Tree} (loc : Location)
    (hx : Lowers x) (hy : Lowers y) (htier : op.tier? = some tier)
    (hbinary : op.toBinary?.isSome = true) : Lowers (.binary (.between tier op) x y loc) := by
  obtain ⟨_, m, hm⟩ := hx
  obtain ⟨_, n, hn⟩ := hy
  obtain ⟨bin, hbin⟩ := Option.isSome_iff_exists.mp hbinary
  refine ⟨Operator.level_of_toBinary? htier hbinary, .binary bin m n loc, ?_⟩
  rw [lowerExpr, hbin, hm, hn]
  rfl

/-- What is lowered is no operator of any tier. -/
theorem tierOperator?_of_lowers {tier : Tier} (h : Lowers t) : t.tierOperator? tier = none := by
  rw [tierOperator?, operator?_of_lowers h]
  rfl

/-- At its turn an operator is either one of the tier or stays between operands. -/
theorem Separates.at_tier {commas : Bool} {k : Nat} {tier : Tier} (htier : tier.level = k + 1)
    (h : Separates commas k o) :
    (∃ op loc, o.tierOperator? tier = some (op, loc) ∧ op.tier? = some tier ∧
      op.toBinary?.isSome = true) ∨
    (o.tierOperator? tier = none ∧ Separates commas (k + 1) o) := by
  cases h with
  | between op tier' htier' hk hbinary i level loc =>
    -- tiers are told apart by their levels, so one of another tier is looser
    by_cases heq : tier' = tier
    · subst heq
      exact .inl ⟨op, loc, by simp [tierOperator?, operator?, htier'], htier', hbinary⟩
    · refine .inr ⟨by simp [tierOperator?, operator?, htier', heq], ?_⟩
      have hlevel : tier'.level ≠ tier.level := fun h => heq (by
        revert h
        cases tier' <;> cases tier <;> decide)
      exact .between op tier' htier' (by omega) hbinary i level loc
  | comma h i level loc => exact .inr ⟨rfl, .comma h i level loc⟩

/-- A separator is no operand. -/
theorem Separates.isOperand {commas : Bool} {k : Nat} (h : Separates commas k o) :
    o.isOperand = false := by
  cases h <;> rfl

/-- A tree may take the place of the first one of a row. -/
theorem Row.replaceHead {Sep : Tree → Prop} {x y : Tree} (h : Row Single Sep (x :: ts))
    (hy : Lowers y) : Row Single Sep (y :: ts) := by
  -- the equation keeps the first tree while the row is taken apart
  generalize hxs : x :: ts = xs at h
  cases h with
  | one a ha =>
    obtain ⟨t, rfl, _⟩ := ha
    cases hxs
    exact .one [y] ⟨y, rfl, hy⟩
  | more a o us ha ho h =>
    obtain ⟨t, rfl, _⟩ := ha
    cases hxs
    exact .more [y] o us ⟨y, rfl, hy⟩ ho h

theorem Row.exists_head {Sep : Tree → Prop} (h : Row Single Sep ts) :
    ∃ t more, ts = t :: more ∧ Lowers t := by
  cases h with
  | one a ha =>
    obtain ⟨t, rfl, ht⟩ := ha
    exact ⟨t, [], rfl, ht⟩
  | more a o us ha ho h =>
    obtain ⟨t, rfl, ht⟩ := ha
    exact ⟨t, o :: us, rfl, ht⟩

section Tiers

variable {tier : Tier} {commas : Bool} {k : Nat}

/-- A tier to the left goes on over a tree that is none of its operators. -/
theorem chainLeft_push {rest : List Tree} (h : t.tierOperator? tier = none) :
    chainLeft tier done (t :: rest) = chainLeft tier (t :: done) rest := by
  rw [chainLeft, h]

/-- A tier to the left applies its operator to the operands on both sides. -/
theorem chainLeft_apply {op : Operator} {loc : Location} {x y : Tree} {rest : List Tree}
    (hop : o.tierOperator? tier = some (op, loc)) (hx : Lowers x) (hy : Lowers y) :
    chainLeft tier (x :: done) (o :: y :: rest)
      = chainLeft tier (.binary (.between tier op) x y loc :: done) rest := by
  rw [chainLeft, hop]
  simp only [hx.isOperand, hy.isOperand, if_true]

/-- From the left, an operand is followed by an operator of the tier, which is applied, or by
another, which stays. -/
theorem chainLeft_from (x : Tree) (done : List Tree) (htier : tier.level = k + 1) (hx : Lowers x)
    (ho : Separates commas k o) (h : Row Single (Separates commas k) ts) :
    ∃ us, chainLeft tier (x :: done) (o :: ts) = .ok (done.reverse ++ us) ∧
      Row Single (Separates commas (k + 1)) us := by
  -- the operand before the operator changes as operators of the tier are applied to it
  induction h generalizing done x o with
  | one a ha =>
    obtain ⟨t, rfl, ht⟩ := ha
    rcases ho.at_tier htier with ⟨op, loc, hop, hoptier, hbinary⟩ | ⟨hop, hstays⟩
    · have hbuilt := hx.between loc ht hoptier hbinary
      refine ⟨[_], ?_, .one _ ⟨_, rfl, hbuilt⟩⟩
      rw [chainLeft_apply hop hx ht, chainLeft, List.reverse_cons]
    · refine ⟨[x, o, t], ?_, .more [x] o [t] ⟨x, rfl, hx⟩ hstays (.one _ ⟨t, rfl, ht⟩)⟩
      rw [chainLeft_push hop, chainLeft_push (tierOperator?_of_lowers ht), chainLeft]
      simp
  | more a p ts ha hp _ ih =>
    obtain ⟨t, rfl, ht⟩ := ha
    rw [List.singleton_append]
    rcases ho.at_tier htier with ⟨op, loc, hop, hoptier, hbinary⟩ | ⟨hop, hstays⟩
    · rw [chainLeft_apply hop hx ht]
      exact ih _ done (hx.between loc ht hoptier hbinary) hp
    · obtain ⟨us, hus, hrow⟩ := ih t (o :: x :: done) ht hp
      refine ⟨x :: o :: us, ?_, .more [x] o us ⟨x, rfl, hx⟩ hstays hrow⟩
      rw [chainLeft_push hop, chainLeft_push (tierOperator?_of_lowers ht), hus]
      simp

/-- Behind its tier to the left, a row has the looser separators only. -/
theorem chainLeft_row (htier : tier.level = k + 1) (h : Row Single (Separates commas k) ts) :
    ∃ us, chainLeft tier [] ts = .ok us ∧ Row Single (Separates commas (k + 1)) us := by
  cases h with
  | one a ha =>
    obtain ⟨t, rfl, ht⟩ := ha
    refine ⟨[t], ?_, .one _ ⟨t, rfl, ht⟩⟩
    rw [chainLeft_push (tierOperator?_of_lowers ht), chainLeft, List.reverse_singleton]
  | more a o ts ha ho h =>
    obtain ⟨t, rfl, ht⟩ := ha
    rw [List.singleton_append, chainLeft_push (tierOperator?_of_lowers ht)]
    exact chainLeft_from t [] htier ht ho h

/-- From the right, the operand behind an operator of the tier is the first of what is reduced
already. -/
theorem chainRight_row (htier : tier.level = k + 1) (h : Row Single (Separates commas k) ts) :
    ∃ us, chainRight tier ts = .ok us ∧ Row Single (Separates commas (k + 1)) us := by
  induction h with
  | one a ha =>
    obtain ⟨t, rfl, ht⟩ := ha
    refine ⟨[t], ?_, .one _ ⟨t, rfl, ht⟩⟩
    rw [chainRight, tierOperator?_of_lowers ht]
  | more a o ts ha ho hts ih =>
    obtain ⟨t, rfl, ht⟩ := ha
    obtain ⟨us, hus, hrow⟩ := ih
    rw [List.singleton_append, chainRight, tierOperator?_of_lowers ht]
    simp only [ht.isOperand, if_true]
    rcases ho.at_tier htier with ⟨op, loc, hop, hoptier, hbinary⟩ | ⟨hop, hstays⟩
    -- the right operand has taken in all operators of the tier behind it
    · obtain ⟨right, more, rfl, hright⟩ := hrow.exists_head
      refine ⟨.binary (.between tier op) t right loc :: more, ?_,
        hrow.replaceHead (ht.between loc hright hoptier hbinary)⟩
      rw [hop]
      refine bind_eq_ok.mpr ⟨right :: more, hus, bind_eq_ok.mpr ⟨(right, more), ?_, rfl⟩⟩
      rw [takeRight, if_pos hright.isOperand]
    · refine ⟨t :: o :: us, ?_, .more [t] o us ⟨t, rfl, ht⟩ hstays hrow⟩
      have hrest : chainRight tier (o :: ts) = .ok (o :: us) := by
        obtain ⟨y, more, rfl, hy⟩ := hts.exists_head
        rw [chainRight, hop]
        simp only [ho.isOperand, Bool.false_eq_true, if_false, hus]
        rfl
      rw [hop]
      simp only [hrest]
      rfl

/-- Behind its tier, in whichever direction, a row has the looser separators only. -/
theorem tierPass_row (htier : tier.level = k + 1) (h : Row Single (Separates commas k) ts) :
    ∃ us, tierPass tier ts = .ok us ∧ Row Single (Separates commas (k + 1)) us := by
  unfold tierPass
  split
  · exact chainRight_row htier h
  · exact chainLeft_row htier h

end Tiers

/-! ## §6 All passes -/

/-- Passes follow one another. -/
theorem foldlM_passes {first : Pass} {more : List Pass} {mid us : List Tree}
    (hfirst : first ts = .ok mid) (hmore : more.foldlM (fun acc pass => pass acc) mid = .ok us) :
    (first :: more).foldlM (fun acc pass => pass acc) ts = .ok us :=
  bind_eq_ok.mpr ⟨mid, hfirst, hmore⟩

/-- The tiers from a level on are applied one after the other. -/
theorem foldlM_tiers {tiers : List Tier} {commas : Bool} {k : Nat}
    (htiers : tiers.map Tier.level = List.range' (k + 1) tiers.length)
    (h : Row Single (Separates commas k) ts) :
    ∃ us, (tiers.map tierPass).foldlM (fun acc pass => pass acc) ts = .ok us ∧
      Row Single (Separates commas (k + tiers.length)) us := by
  -- each tier takes the row one level further
  induction tiers generalizing k ts with
  | nil => exact ⟨ts, rfl, h⟩
  | cons tier tiers ih =>
    rw [List.map_cons, List.length_cons, List.range'_succ] at htiers
    obtain ⟨htier, hmore⟩ := List.cons.inj htiers
    obtain ⟨mid, hmid, hrow⟩ := tierPass_row htier h
    obtain ⟨us, hus, hrow'⟩ := ih hmore hrow
    refine ⟨us, foldlM_passes hmid hus, ?_⟩
    rw [List.length_cons, Nat.add_comm tiers.length, ← Nat.add_assoc]
    exact hrow'

/-- Of the passes before those of the tiers only two find something to do in a row. -/
theorem untiered_of_inert {called led : List Tree} (h : ∀ t ∈ ts, t.inert = true)
    (hcalled : callPass [] ts = called) (h' : ∀ t ∈ called, t.inert = true)
    (hled : leadingPass called = .ok led) :
    (passes.take 7).foldlM (fun acc pass => pass acc) ts = .ok led := by
  have hindex : joinPass (joinAccessor .bracket .index) [] ts = ts :=
    joinPass_of_not_group fun t ht => isGroup_of_inert (h t ht) (by decide)
  refine foldlM_passes (memberPass_of_inert h) ?_
  refine foldlM_passes (congrArg Except.ok hindex) (foldlM_passes (congrArg Except.ok hcalled) ?_)
  refine foldlM_passes (keywordPass_of_inert h') ?_
  refine foldlM_passes (congrArg Except.ok (joinFunction_of_inert h')) ?_
  exact foldlM_passes (trailingPass_of_inert h') (foldlM_passes hled rfl)

theorem Row.inert {Atom : List Tree → Prop} {commas : Bool} {k : Nat}
    (h : Row (Signed Atom) (Separates commas k) ts)
    (hatom : ∀ a, Atom a → ∀ t ∈ a, t.inert = true) : ∀ t ∈ ts, t.inert = true :=
  h.all (fun _ ha => ha.inert hatom) fun _ => Separates.inert

/-- The passes before those of the tiers leave operators between single trees. -/
theorem untiered_row {commas : Bool} (h : Row (Signed Kernel) (Separates commas 1) ts) :
    ∃ us, (passes.take 7).foldlM (fun acc pass => pass acc) ts = .ok us ∧
      Row Single (Separates commas 1) us := by
  have hstart : ∀ left, ([] : List Tree).head? = some left → left.isAccessor = false := by simp
  obtain ⟨called, hcalled, hcalls⟩ := callPass_row h hstart
  obtain ⟨led, hled, hsigns⟩ := leadingPass_row hcalls
  have hinert' := hcalls.inert fun _ => Single.inert
  exact ⟨led, untiered_of_inert (h.inert fun _ => Kernel.inert) hcalled hinert' hled, hsigns⟩

/-- All passes together leave nothing but commas between expressions. -/
theorem runPasses_row {commas : Bool} (h : Row (Signed Kernel) (Separates commas 1) ts) :
    ∃ us, runPasses ts = .ok us ∧ Row Single (Separates commas 8) us := by
  obtain ⟨led, hled, hsigns⟩ := untiered_row h
  have htiers : Tier.all.map Tier.level = List.range' (1 + 1) Tier.all.length := by decide
  obtain ⟨us, hus, hrow⟩ := foldlM_tiers htiers hsigns
  refine ⟨us, ?_, hrow⟩
  rw [runPasses, ← List.take_append_drop 7 passes, List.foldlM_append, hled]
  exact hus

/-- Without commas a single expression is left. -/
theorem Row.single (h : Row Single (Separates false 8) ts) : ∃ t, ts = [t] ∧ Lowers t := by
  cases h with
  | one a ha => exact ha
  | more a o ts ha ho h =>
    cases ho with
    | between op tier _ hk => exact absurd tier.level_le (by omega)
    | comma h => cases h

/-- With commas the expressions are arguments. -/
theorem Row.lowerArgs (callee : Text) (loc : Location) (h : Row Single (Separates true 8) ts) :
    ∃ ns, lowerArgs callee loc ts = .ok ns := by
  -- the trees of the row are arguments with a comma behind each but the last
  induction h with
  | one a ha =>
    obtain ⟨t, rfl, ht⟩ := ha
    obtain ⟨n, hn⟩ := ht.2
    refine ⟨[n], ?_⟩
    rw [Scriptlet.lowerArgs, isOperator_of_lowers ht, hn]
    rfl
  | more a o ts ha ho _ ih =>
    obtain ⟨t, rfl, ht⟩ := ha
    obtain ⟨n, hn⟩ := ht.2
    obtain ⟨ns, hns⟩ := ih
    have hsep : o.isOperator .comma = true := by
      cases ho with
      | between op tier _ hk => exact absurd tier.level_le (by omega)
      | comma => rfl
    refine ⟨n :: ns, ?_⟩
    rw [List.singleton_append, Scriptlet.lowerArgs, isOperator_of_lowers ht, hsep, hn, hns]
    rfl

end Scriptlet
