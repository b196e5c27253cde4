import Scriptlet.Proofs.Lowered
import Scriptlet.Proofs.Passes
import Scriptlet.Proofs.Segment

/-!
# What is lowered is derivable

Lowering a ranked tree to an expression succeeds only for trees whose symbols are an expression of
the level of the tree, and the node is the derived one. Statements are read off the same way: a
reserved word at the first operand of a chain is moved in front of the whole chain, which leaves the
symbols as they are, and the trees of a forest with semicolons between them are segments.

## Contents

- §1 operators
- §2 expressions
- §3 reserved words in front of chains
- §4 statements
- §5 programs of forests
-/

namespace Scriptlet

open Scriptlet.Tree

/-! ## §1 Operators -/

namespace Operator

/-- An operator between operands has the sign of the operation and its tier the level of it. -/
theorem symbol_of_toBinary? {op : Operator} {bin : BinaryOp} (h : op.toBinary? = some bin) :
    bin.symbol = op.spelling ∧ op.tier?.map Tier.level = some bin.level := by
  revert bin
  cases op <;> intro bin h <;> cases h <;> decide

/-- Assignment without an operation is the plain one. -/
theorem eq_assign_of_compound? {op : Operator} (htier : op.tier? = some .assignment)
    (h : op.compound? = none) : op = .assign := by
  revert htier h
  cases op <;> decide

end Operator

/-! ## §2 Expressions -/

variable {t : Tree} {n : Node}

/-- An expression of any level is one of the loosest. -/
theorem Derives.loosest {xs : List Symbol} (h : Derives t.level xs n) : Derives 7 xs n :=
  (h.mono t.level_le).tighten

theorem yield_of_isOperator {op : Operator} (h : t.isOperator op = true) :
    t.yield = [.mark op.spelling] := by
  unfold isOperator at h
  split at h
  · next o _ _ _ _ =>
    obtain rfl : o = op := by simpa using h
    rfl
  · cases h

/-- Arguments are expressions with commas between them. -/
theorem lowerArgs_derives {callee : Text} {loc : Location} {cs : List Tree} {ns : List Node}
    (h : lowerArgs callee loc cs = .ok ns)
    (hcs : ∀ c ∈ cs, ∀ m, lowerExpr c = .ok m → Derives c.level c.yield m.cleared) :
    ∃ args : List (List Symbol × Node), args ≠ [] ∧ yieldAll cs = commas (args.map Prod.fst) ∧
      ns.map Node.cleared = args.map Prod.snd ∧ ∀ a ∈ args, Derives 7 a.1 a.2 := by
  cases lowersArgs_of_lowerArgs h with
  | @one c m hm =>
    refine ⟨[(c.yield, m.cleared)], by simp, by simp [yieldAll, commas], rfl, fun a ha => ?_⟩
    rw [List.mem_singleton.mp ha]
    exact (hcs c (by simp) m hm).loosest
  | @more c sep rest m ms hcomma hm hms =>
    obtain ⟨args, hne, hyield, hns, hargs⟩ := lowerArgs_derives hms fun d hd =>
      hcs d (List.mem_cons_of_mem _ (List.mem_cons_of_mem _ hd))
    -- the tree between two arguments is a comma
    have hsep : sep.yield = [.mark ","] := yield_of_isOperator hcomma
    refine ⟨(c.yield, m.cleared) :: args, by simp, ?_, ?_, fun a ha => ?_⟩
    · obtain ⟨b, more, rfl⟩ := List.exists_cons_of_ne_nil hne
      rw [yieldAll, yieldAll, hsep, hyield]
      rfl
    · rw [List.map_cons, hns, List.map_cons]
    · rcases List.mem_cons.mp ha with rfl | ha
      · exact (hcs c (by simp) m hm).loosest
      · exact hargs a ha

theorem lowerToken_derives {u : Token} (hu : u.lexeme.Proper) (h : lowerToken u = .ok n) :
    Derives 0 [u.lexeme.symbol] n.cleared := by
  unfold lowerToken at h
  split at h
  -- the number that was read is the value of the numeral, since nearest reading gives the same
  · next text hx =>
    split at h
    · next v hv =>
      cases h
      rw [hx] at hu ⊢
      have hvalue : numeralValue text = v := by simp [numeralValue, Decimal.readNearest?, hv]
      rw [Node.cleared, ← hvalue]
      exact .number text hu
    · cases h
  · next v _ hx =>
    cases h
    rw [hx]
    exact .string v
  · next name hx =>
    cases h
    rw [hx] at hu ⊢
    exact .name name hu
  · cases h

/-- An operator of a tier between expressions that bind tightly enough. -/
theorem lowerBetween_derives {tier : Tier} {op : Operator} {x y : Tree} {loc : Location}
    (htier : op.tier? = some tier) (h : lowerExpr (.binary (.between tier op) x y loc) = .ok n)
    (hx : ∀ m, lowerExpr x = .ok m → Derives x.level x.yield m.cleared)
    (hy : ∀ m, lowerExpr y = .ok m → Derives y.level y.yield m.cleared)
    (hlevel : tier.groupsRight = false ∧ x.level ≤ tier.level ∧ y.level < tier.level ∨
      tier.groupsRight = true ∧ x.level < tier.level ∧ y.level ≤ tier.level) :
    Derives tier.level (x.yield ++ .mark op.spelling :: y.yield) n.cleared := by
  cases lowersTo_of_lowerExpr h with
  | @between _ bin _ _ left right _ _ hbin hleft hright =>
    obtain ⟨hsign, hsame⟩ := Operator.symbol_of_toBinary? hbin
    rw [htier, Option.map_some, Option.some.injEq] at hsame
    rw [← hsign, Node.cleared]
    rcases hlevel with ⟨hside, hlx, hly⟩ | ⟨hside, hlx, hly⟩
    -- every other tier has one of the levels that form chains
    · obtain ⟨k, hk⟩ : ∃ k, tier.level = k + 3 := by
        cases tier <;> first | exact ⟨_, rfl⟩ | (simp [Tier.groupsRight] at hside)
      rw [hk] at hlx hly hsame ⊢
      exact Derives.extend ((hx left hleft).mono hlx) hsame.symm ((hy right hright).mono (by omega))
    · -- only powers are expressions that group to the right
      obtain rfl : tier = .exponent := by
        cases tier with
        | exponent => rfl
        | assignment => cases bin <;> cases hsame
        | _ => cases hside
      obtain rfl : bin = .power := by
        cases bin <;> first | rfl | cases hsame
      have hleft := (hx left hleft).mono (Nat.le_of_lt_succ hlx)
      exact .raised _ _ _ _ hleft ((hy right hright).mono hly)

/-- Lowering a ranked tree derives its symbols. -/
theorem lowerExpr_derives (ht : t.Ranked) (h : lowerExpr t = .ok n) :
    Derives t.level t.yield n.cleared := by
  induction ht generalizing n with
  | leaf u hproper =>
    cases lowersTo_of_lowerExpr h with
    | token h => exact lowerToken_derives hproper h
  | group f cs loc _ ih =>
    -- only parentheses around one tree are an expression
    cases lowersTo_of_lowerExpr h with
    | @group c _ _ h =>
      have hc := (ih c (by simp) h).loosest
      rw [yield, yieldAll, yieldAll, List.append_nil]
      exact .group c.yield n.cleared hc
  | leading op x loc _ hlevel ih =>
    rw [yield]
    cases lowersTo_of_lowerExpr h with
    | negate _ hm => exact .leading .negate (.inr rfl) _ _ ((ih hm).mono hlevel)
    | not _ hm => exact .leading .not (.inl rfl) _ _ ((ih hm).mono hlevel)
    | plus _ hm => exact .plus _ _ ((ih hm).mono hlevel)
  | keyword | trailing | member | index | function => cases lowersTo_of_lowerExpr h
  | call x cs at_ loc hx _ _ ih =>
    cases lowersTo_of_lowerExpr h with
    | callNone name =>
      cases hx with
      | leaf _ hproper =>
        rw [Node.cleared_ofCall]
        exact .call name [] hproper (by simp)
    | @call name _ _ _ _ _ _ _ _ _ hns =>
      cases hx with
      | leaf _ hproper =>
        obtain ⟨args, _, hyield, hargs, hderives⟩ := lowerArgs_derives hns fun c hc _ => ih c hc
        rw [Node.cleared_ofCall, hargs, yield, yield, yield, hyield]
        exact .call name args hproper hderives
  | chainLeft tier op x y loc htier hside _ _ hleft hright ihx ihy =>
    rw [yield]
    exact lowerBetween_derives htier h (fun _ => ihx) (fun _ => ihy) (.inl ⟨hside, hleft, hright⟩)
  | chainRight tier op x y loc htier hside _ _ hleft hright ihx ihy =>
    rw [yield]
    exact lowerBetween_derives htier h (fun _ => ihx) (fun _ => ihy) (.inr ⟨hside, hleft, hright⟩)

/-! ## §3 Reserved words in front of chains -/

/-- A reserved word that is moved in front of a chain is the first symbol of the chain, and what is
left is ranked. -/
theorem liftKeyword_yield {k : Keyword} {loc : Location} {rest : Tree} (ht : t.Ranked)
    (h : liftKeyword t = some (k, loc, rest)) :
    t.yield = .word k.spelling :: rest.yield ∧ rest.Ranked ∧ rest.level ≤ max 1 t.level := by
  induction ht generalizing k loc rest with
  | keyword word x at_ hx hlevel _ =>
    rw [liftKeyword] at h
    cases h
    exact ⟨by rw [yield], hx, by omega⟩
  | chainLeft tier op x y at_ htier hside _ hy hleft hright ihx _ =>
    rw [liftKeyword] at h
    -- without its first word the left operand binds at least as tightly as before
    obtain ⟨⟨k', loc', x'⟩, hx', heq⟩ := Option.map_eq_some_iff.mp h
    cases heq
    obtain ⟨hyield, hranked, hlevel⟩ := ihx hx'
    have htwo := tier.two_le_level
    refine ⟨by rw [yield, yield, hyield, List.cons_append], ?_, by simp only [level]; omega⟩
    exact .chainLeft tier op x' y at_ htier hside hranked hy (by omega) hright
  | chainRight tier op x y at_ htier hside _ hy hleft hright ihx _ =>
    rw [liftKeyword] at h
    obtain ⟨⟨k', loc', x'⟩, hx', heq⟩ := Option.map_eq_some_iff.mp h
    cases heq
    obtain ⟨hyield, hranked, hlevel⟩ := ihx hx'
    have htwo := tier.two_le_level
    refine ⟨by rw [yield, yield, hyield, List.cons_append], ?_, by simp only [level]; omega⟩
    exact .chainRight tier op x' y at_ htier hside hranked hy (by omega) hright
  | _ => cases h

/-! ## §4 Statements -/

theorem Tree.Ranked.value_of_assignment {op : Operator} {x y : Tree} {loc : Location}
    (h : (Tree.binary (.between .assignment op) x y loc).Ranked) :
    x.Ranked ∧ y.Ranked ∧ op.tier? = some .assignment := by
  cases h with
  | chainLeft _ _ _ _ _ _ hside => cases hside
  | chainRight _ _ _ _ _ htier _ hx hy => exact ⟨hx, hy, htier⟩

theorem lowerDeclaration_simple {whole rest : Tree} {k : Keyword} {at_ : Location}
    (hk : k = .letWord ∨ k = .varWord) (hrest : rest.Ranked)
    (h : lowerDeclaration whole k at_ rest = .ok n) :
    Simple (.word k.spelling :: rest.yield) n.cleared := by
  obtain ⟨name, i, level, nameLoc, value, loc, m, rfl, hm, rfl⟩ := exists_of_lowerDeclaration h
  obtain ⟨hname, hvalue, _⟩ := hrest.value_of_assignment
  cases hname with
  | leaf _ hproper => exact .declare k hk name hproper _ _ (lowerExpr_derives hvalue hm).loosest

theorem lowerAssignment_simple {op : Operator} {target value : Tree} {loc : Location}
    (ht : (Tree.binary (.between .assignment op) target value loc).Ranked)
    (h : lowerAssignment op target value loc = .ok n) :
    Simple (target.yield ++ .mark op.spelling :: value.yield) n.cleared := by
  obtain ⟨htarget, hvalue, htier⟩ := ht.value_of_assignment
  cases lowersAssignment_of_lowerAssignment h with
  | update name i level nameLoc hbin hm =>
    cases htarget with
    | leaf _ hproper =>
      exact .update name hproper op _ hbin _ _ (lowerExpr_derives hvalue hm).loosest
  | assign name i level nameLoc hnone hm =>
    cases htarget with
    | leaf _ hproper =>
      -- a sign of assignment that stands for no operation is the plain one
      obtain rfl := Operator.eq_assign_of_compound? htier hnone
      exact .assign name hproper _ _ (lowerExpr_derives hvalue hm).loosest

/-- What is lowered as a statement other than braces is a simple statement. -/
theorem lowerSimple_simple (ht : t.Ranked) (h : lowerSimple t = .ok n) :
    Simple t.yield n.cleared := by
  cases lowersSimple_of_lowerSimple h with
  -- what the word was lifted from has the symbols of the rest behind it
  | giveBack hlift hm =>
    obtain ⟨hyield, hranked, _⟩ := liftKeyword_yield ht hlift
    rw [hyield, Node.cleared]
    exact .giveBack _ _ (lowerExpr_derives hranked hm).loosest
  | declare hk hlift h =>
    obtain ⟨hyield, hranked, _⟩ := liftKeyword_yield ht hlift
    rw [hyield]
    exact lowerDeclaration_simple hk hranked h
  | assignment heq hassign =>
    subst heq
    rw [yield]
    exact lowerAssignment_simple ht hassign
  | expression h => exact .expression _ _ (lowerExpr_derives ht h).loosest

/-- A single statement between semicolons: a simple one or a block. -/
def Segment (xs : List Symbol) (n : Node) : Prop :=
  Simple xs n ∨ ∃ ys ms, Segmented ys ms ∧ xs = .mark "\x7b" :: (ys ++ [.mark "\x7d"]) ∧
    n = .block ms .nowhere

theorem Segment.last {xs : List Symbol} (h : Segment xs n) : Segmented xs [n] := by
  rcases h with h | ⟨ys, ms, h, rfl, rfl⟩
  · exact .last xs n h
  · exact .blockLast ys ms h

theorem Segment.next {xs ys : List Symbol} {ns : List Node} (h : Segment xs n)
    (hmore : Segmented ys ns) : Segmented (xs ++ .mark ";" :: ys) (n :: ns) := by
  rcases h with h | ⟨zs, ms, h, rfl, rfl⟩
  · exact .next xs ys n ns h hmore
  · exact .blockNext zs ys ms ns h hmore

/-- Behind a semicolon the statements go on, or there are none. -/
theorem lowerStatements_of_semicolon {rest : List Tree} (ht : t.isOperator .semicolon = true) :
    lowerStatements (t :: rest) = lowerStatements rest := by
  cases rest with
  | nil => simp only [lowerStatements, ht, if_true]; rfl
  | cons u rest => rw [lowerStatements, if_pos ht]

theorem lowerStatements_segmented {ts : List Tree} {ns : List Node}
    (h : lowerStatements ts = .ok ns)
    (hts : ∀ t ∈ ts, ∀ m, lowerStatement t = .ok m → Segment t.yield m.cleared) :
    Segmented (yieldAll ts) (ns.map Node.cleared) := by
  match ts, h with
  | [], h =>
    rw [lowerStatements] at h
    cases h
    exact .nil
  | [u], h =>
    by_cases hsemi : u.isOperator .semicolon = true
    · rw [lowerStatements_of_semicolon hsemi, lowerStatements] at h
      cases h
      rw [yieldAll, yield_of_isOperator hsemi]
      exact .skip [] [] .nil
    · rw [lowerStatements, if_neg hsemi] at h
      obtain ⟨m, hm, h⟩ := bind_eq_ok.mp h
      cases h
      rw [yieldAll, yieldAll, List.append_nil]
      exact (hts u (by simp) m hm).last
  | u :: v :: rest, h =>
    by_cases hsemi : u.isOperator .semicolon = true
    · rw [lowerStatements_of_semicolon hsemi] at h
      rw [yieldAll, yield_of_isOperator hsemi]
      exact .skip _ _ (lowerStatements_segmented h fun w hw => hts w (List.mem_cons_of_mem _ hw))
    · rw [lowerStatements, if_neg hsemi] at h
      -- a statement is followed by a semicolon
      split at h
      · next hnext =>
        obtain ⟨m, hm, h⟩ := bind_eq_ok.mp h
        obtain ⟨ms, hms, h⟩ := bind_eq_ok.mp h
        cases h
        rw [lowerStatements_of_semicolon hnext] at hms
        have hmore := lowerStatements_segmented hms fun w hw =>
          hts w (List.mem_cons_of_mem _ (List.mem_cons_of_mem _ hw))
        rw [yieldAll, yieldAll, yield_of_isOperator hnext]
        exact (hts u (by simp) m hm).next hmore
      · cases h

theorem lowerStatement_segment {t : Tree} {n : Node} (ht : t.Ranked)
    (h : lowerStatement t = .ok n) :
    Segment t.yield n.cleared := by
  -- only braces are taken apart further; all else is a simple statement
  by_cases hbrace : ∃ cs loc, t = .group .brace cs loc
  · obtain ⟨cs, loc, rfl⟩ := hbrace
    rw [lowerStatement] at h
    obtain ⟨ms, hms, h⟩ := bind_eq_ok.mp h
    cases h
    cases ht with
    | group _ _ _ hcs =>
      rw [Node.cleared, Node.clearedAll_eq_map, yield]
      refine .inr ⟨_, _, lowerStatements_segmented hms fun c hc m hm => ?_, rfl, rfl⟩
      exact lowerStatement_segment (hcs c hc) hm
  · rw [lowerStatement] at h
    · exact .inl (lowerSimple_simple ht h)
    · intro cs loc heq
      exact hbrace ⟨cs, loc, heq⟩

/-! ## §5 Programs of forests -/

/-- A program that is lowered from the forest of some tokens has the statements of their
symbols. -/
theorem segmented_of_lower {tokens : List Token} {groups forest : List Tree} {p : Program}
    (hproper : ∀ t ∈ tokens, t.lexeme.Proper) (hgroups : foldGroups tokens = .ok groups)
    (hforest : reduce groups = .ok forest) (hp : lower forest = .ok p) :
    Segmented (tokens.map (·.lexeme.symbol)) (p.stmts.map Node.cleared) := by
  obtain ⟨hraw, hsymbols⟩ := yieldAll_of_foldGroups hgroups hproper
  obtain ⟨hyield, hranked⟩ := reduce_keeps hforest hraw
  obtain ⟨stmts, hstmts, heq⟩ := bind_eq_ok.mp hp
  cases heq
  rw [← hsymbols, ← hyield]
  exact lowerStatements_segmented hstmts fun t ht m hm => lowerStatement_segment (hranked t ht) hm

end Scriptlet
