import Mathlib
import Scriptlet.Forest.Levelwise
import Scriptlet.Proofs.Phrases

/-!
# Folding is exact and loses nothing

A row of tokens has a forest exactly when its delimiters form a balanced word. `Nests` relates a
levelled row to its forest by the shape of the word: a token that is no delimiter is a leaf, and a
pair of delimiters around a row is a group. Everything else follows from that relation by induction:
both ways of finding groups end with the forest, no delimiter is left as a leaf, and the forest
written out with its delimiters is the row.

The search for a closing delimiter goes by level alone. It stops at the partner, because the row in
between is deeper: once the deeper levels are folded, it holds no delimiter at all (`Unfolds`).

## Contents

- §1 balanced words
- §2 rows and their forests
- §3 groups found with a stack
- §4 groups found level by level
- §5 forests written out
- §6 the main result
-/

namespace Scriptlet

/-! ## §1 Balanced words -/

/-- The delimiters among the lexemes form a balanced word over the three families. -/
inductive Balanced : List Lexeme → Prop where
  | nil : Balanced []
  | plain {x : Lexeme} {xs : List Lexeme} (hx : x.family? = none) (h : Balanced xs) :
      Balanced (x :: xs)
  | pair (f : Family) {inner rest : List Lexeme} (hinner : Balanced inner)
      (hrest : Balanced rest) :
      Balanced (.delimiter f .left :: (inner ++ .delimiter f .right :: rest))

/-- A balanced word may stand in front of whatever pairs up. -/
theorem Balanced.paired_append {xs : List Lexeme} (h : Balanced xs) {stack : List Family}
    {rest : List Lexeme} (hrest : Paired stack rest) : Paired stack (xs ++ rest) := by
  induction h generalizing stack rest with
  | nil => exact hrest
  | plain hx _ ih => exact .plain _ _ _ hx (ih hrest)
  | pair f _ _ ihinner ihrest =>
    rw [List.cons_append, List.append_assoc, List.cons_append]
    apply Paired.left
    apply ihinner
    exact .right f _ _ (ihrest hrest)

theorem Balanced.paired {xs : List Lexeme} (h : Balanced xs) : Paired [] xs := by
  have hall := h.paired_append .nil
  rwa [List.append_nil] at hall

/-! ## §2 Rows and their forests -/

/-- The row of tokens at a depth has the forest. -/
inductive Nests : Nat → List Token → List Tree → Prop where
  | nil {depth : Nat} : Nests depth [] []
  | plain {depth : Nat} {t : Token} {ts : List Token} {forest : List Tree}
      (ht : t.lexeme.family? = none) (hlevel : t.level = depth) (h : Nests depth ts forest) :
      Nests depth (t :: ts) (.leaf t :: forest)
  | pair {depth : Nat} {f : Family} {o c : Token} {inner rest : List Token}
      {cs forest : List Tree} (ho : o.lexeme = .delimiter f .left) (holevel : o.level = depth + 1)
      (hc : c.lexeme = .delimiter f .right) (hclevel : c.level = depth + 1)
      (hinner : Nests (depth + 1) inner cs) (hrest : Nests depth rest forest) :
      Nests depth (o :: (inner ++ c :: rest)) (.group f cs o.loc :: forest)

theorem Nests.balanced {depth : Nat} {ts : List Token} {forest : List Tree}
    (h : Nests depth ts forest) : Balanced (ts.map Token.lexeme) := by
  induction h with
  | nil => exact .nil
  | plain ht _ _ ih => exact .plain ht ih
  | @pair _ f _ _ _ _ _ _ ho _ hc _ _ _ ihinner ihrest =>
    rw [List.map_cons, List.map_append, List.map_cons, ho, hc]
    exact .pair f ihinner ihrest

/-- What a levelled row looks like where delimiters are open: rows of the depths from inside out,
with a closing delimiter between each two. -/
inductive Closes : List Family → List Token → Prop where
  | done {ts : List Token} {forest : List Tree} (h : Nests 0 ts forest) : Closes [] ts
  | step {f : Family} {stack : List Family} {inner : List Token} {c : Token} {rest : List Token}
      {cs : List Tree} (hinner : Nests (stack.length + 1) inner cs)
      (hc : c.lexeme = .delimiter f .right) (hclevel : c.level = stack.length + 1)
      (hrest : Closes stack rest) : Closes (f :: stack) (inner ++ c :: rest)

namespace Closes

variable {stack : List Family} {ts : List Token} {t : Token} {f : Family}

/-- A token that is no delimiter joins the row it stands in. -/
theorem plain (ht : t.lexeme.family? = none) (hlevel : t.level = stack.length)
    (h : Closes stack ts) : Closes stack (t :: ts) := by
  cases h with
  | done h => exact .done (.plain ht hlevel h)
  | step hinner hc hclevel hrest => exact .step (.plain ht hlevel hinner) hc hclevel hrest

/-- The innermost row and its closing delimiter become a pair of the row around. -/
theorem opened (ht : t.lexeme = .delimiter f .left) (hlevel : t.level = stack.length + 1)
    (h : Closes (f :: stack) ts) : Closes stack (t :: ts) := by
  cases h with
  | step hinner hc hclevel hrest =>
    cases hrest with
    | done hrest => exact .done (.pair ht hlevel hc hclevel hinner hrest)
    | @step _ _ _ _ _ _ hinner' hc' hclevel' hrest' =>
      rw [← List.cons_append, ← List.cons_append, ← List.append_assoc]
      have hpair := Nests.pair ht hlevel hc hclevel hinner hinner'
      exact .step (by simpa using hpair) hc' hclevel' hrest'

end Closes

theorem closes_of_levelsFrom {stack : List Opened} {opens closes : Nat}
    {tokens levelled : List Token} (h : levelsFrom stack opens closes tokens = .ok levelled) :
    Closes (stack.map Prod.fst) levelled := by
  induction tokens generalizing stack opens closes levelled with
  | nil =>
    cases stack with
    | nil =>
      cases h
      exact .done .nil
    | cons => cases h
  | cons t tokens ih =>
    obtain ⟨stack', opens', closes', more, hpasses, hmore, rfl⟩ := exists_of_levelsFrom_cons h
    have hmore := ih hmore
    cases hpasses with
    | plain hx => exact hmore.plain hx (by simp)
    | left hx => exact hmore.opened hx (by simp)
    | right hx => exact .step .nil hx (by simp) hmore

theorem nests_of_assignLevels {tokens levelled : List Token}
    (h : assignLevels tokens = .ok levelled) : ∃ forest, Nests 0 levelled forest := by
  cases closes_of_levelsFrom h with
  | done h => exact ⟨_, h⟩

/-! ## §3 Groups found with a stack -/

/-- Reading a row puts its forest in front of what is complete, and opens nothing. -/
theorem Nests.foldl_step {depth : Nat} {ts : List Token} {forest : List Tree}
    (h : Nests depth ts forest) (n : Nest) :
    ts.foldl Nest.step n = ⟨forest.reverse ++ n.done, n.around⟩ := by
  induction h generalizing n with
  | nil => rfl
  | plain ht _ _ ih =>
    rw [List.foldl_cons, Nest.step_of_plain ht, ih]
    simp
  | pair ho _ hc _ _ _ ihinner ihrest =>
    rw [List.foldl_cons, Nest.step_of_left ho, List.foldl_append, ihinner, List.foldl_cons,
      Nest.step_of_right hc rfl, ihrest]
    simp

theorem Nests.group_eq {depth : Nat} {ts : List Token} {forest : List Tree}
    (h : Nests depth ts forest) : group ts = forest := by
  rw [group, h.foldl_step, Nest.empty]
  simp

/-! ## §4 Groups found level by level -/

/-- The row of items at a depth has the forest, where pairs down to a level are still spelled out
and deeper ones are groups already. -/
inductive Unfolds (level : Nat) : Nat → List Item → List Tree → Prop where
  | nil {depth : Nat} : Unfolds level depth [] []
  | tree {depth : Nat} {i : Item} {is : List Item} {forest : List Tree}
      (hi : i.delimiter = none) (h : Unfolds level depth is forest) :
      Unfolds level depth (i :: is) (i.tree :: forest)
  | pair {depth : Nat} {f : Family} {o c : Item} {inner rest : List Item} {cs forest : List Tree}
      (hdepth : depth < level) (ho : o.delimiter = some (f, .left)) (holevel : o.level = depth + 1)
      (hc : c.delimiter = some (f, .right)) (hclevel : c.level = depth + 1)
      (hinner : Unfolds level (depth + 1) inner cs) (hrest : Unfolds level depth rest forest) :
      Unfolds level depth (o :: (inner ++ c :: rest)) (.group f cs o.tree.loc :: forest)

theorem opens?_of_none {i : Item} (h : i.delimiter = none) (level : Nat) :
    i.opens? level = none := by
  simp [Item.opens?, h]

theorem closes_of_none {i : Item} (h : i.delimiter = none) (level : Nat) :
    i.closes level = false := by
  simp [Item.closes, h]

theorem foldLevel_of_not_opens {level : Nat} {i : Item} (h : i.opens? level = none)
    (rest : List Item) :
    foldLevel level none (i :: rest) = (foldLevel level none rest).map (i :: ·) := by
  rw [foldLevel, h]

namespace Unfolds

variable {level depth : Nat} {is : List Item} {forest : List Tree}

/-- At the deepest level there are no delimiters left, so a search passes over the whole row. -/
theorem foldLevel_searching (h : Unfolds level depth is forest) (hdepth : level ≤ depth)
    (p : OpenGroup) (rest : List Item) :
    foldLevel level (some p) (is ++ rest)
      = foldLevel level (some { p with found := forest.reverse ++ p.found }) rest := by
  induction h generalizing p with
  | nil => rfl
  | tree hi _ ih =>
    rw [List.cons_append, foldLevel, closes_of_none hi, if_neg (by simp), ih hdepth]
    simp
  | pair hlt => exact absurd hlt (Nat.not_lt.mpr hdepth)

/-- Folding the deepest level that is spelled out: its pairs become groups, and the levels around it
stay as they are. -/
theorem foldLevel_row (h : Unfolds (level + 1) depth is forest) (hdepth : depth ≤ level) :
    ∃ js, Unfolds level depth js forest ∧ ∀ rest out, foldLevel (level + 1) none rest = some out →
      foldLevel (level + 1) none (is ++ rest) = some (js ++ out) := by
  induction h with
  | nil => exact ⟨[], .nil, fun _ _ hrest => hrest⟩
  | @tree depth i is forest hi _ ih =>
    obtain ⟨js, hjs, hfold⟩ := ih hdepth
    refine ⟨i :: js, .tree hi hjs, fun rest out hrest => ?_⟩
    rw [List.cons_append, foldLevel_of_not_opens (opens?_of_none hi _), hfold rest out hrest]
    rfl
  | @pair depth f o c inner rest' cs forest _ ho holevel hc hclevel hinner _ ihinner ihrest =>
    obtain ⟨js, hjs, hfold⟩ := ihrest hdepth
    by_cases heq : depth = level
    · -- this is the level being folded: the search ends at the partner
      subst heq
      refine ⟨⟨.group f cs o.tree.loc, depth, none⟩ :: js, .tree rfl hjs, fun rest out hrest => ?_⟩
      have hopen : o.opens? (depth + 1) = some f := by simp [Item.opens?, ho, holevel]
      have hclose : c.closes (depth + 1) = true := by simp [Item.closes, hc, hclevel]
      rw [List.cons_append, List.append_assoc, List.cons_append, foldLevel, hopen]
      show foldLevel (depth + 1) (some ⟨f, o.tree.loc, []⟩) (inner ++ c :: (rest' ++ rest)) = _
      rw [hinner.foldLevel_searching le_rfl, foldLevel, if_pos hclose, hfold rest out hrest]
      simp
    · -- a level further out: its delimiters are passed over
      have houter : depth + 1 ≤ level := by omega
      obtain ⟨ks, hks, hfold'⟩ := ihinner houter
      refine ⟨o :: (ks ++ c :: js), .pair houter ho holevel hc hclevel hks hjs,
        fun rest out hrest => ?_⟩
      have hopen : o.opens? (level + 1) = none := by simp [Item.opens?, ho, holevel, heq]
      have hnot : c.opens? (level + 1) = none := by simp [Item.opens?, hc]
      have htail : foldLevel (level + 1) none (c :: (rest' ++ rest)) = some (c :: (js ++ out)) := by
        rw [foldLevel_of_not_opens hnot, hfold rest out hrest]
        rfl
      rw [List.cons_append, List.append_assoc, List.cons_append, foldLevel_of_not_opens hopen,
        hfold' _ _ htail]
      simp

/-- Folding all levels leaves a row of trees. -/
theorem foldLevels_row (h : Unfolds level 0 is forest) :
    ∃ js, foldLevels level is = some js ∧ Unfolds 0 0 js forest := by
  induction level generalizing is with
  | zero => exact ⟨is, rfl, h⟩
  | succ level ih =>
    obtain ⟨js, hjs, hfold⟩ := h.foldLevel_row (Nat.zero_le level)
    have hrow := hfold [] [] rfl
    rw [List.append_nil, List.append_nil] at hrow
    rw [foldLevels, hrow]
    exact ih hjs

/-- A row with no pair spelled out is the forest itself. -/
theorem map_tree_eq (h : Unfolds 0 depth is forest) : is.map Item.tree = forest := by
  induction h with
  | nil => rfl
  | tree _ _ ih => rw [List.map_cons, ih]
  | pair hdepth => exact absurd hdepth (Nat.not_lt_zero _)

end Unfolds

/-- A row of tokens spells out all its pairs, if the levels go that deep. -/
theorem Nests.unfolds {level depth : Nat} {ts : List Token} {forest : List Tree}
    (h : Nests depth ts forest) (hlevel : ∀ t ∈ ts, t.level ≤ level) :
    Unfolds level depth (ts.map Item.ofToken) forest := by
  induction h with
  | nil => exact .nil
  -- one case for a token that stands for itself, one for a pair around its contents
  | @plain _ t _ _ ht _ _ ih =>
    have hnone : (Item.ofToken t).delimiter = none := by
      rw [Item.ofToken]
      cases hx : t.lexeme with
      | delimiter => rw [hx] at ht; cases ht
      | _ => rfl
    exact .tree hnone (ih fun u hu => hlevel u (List.mem_cons_of_mem _ hu))
  | @pair depth f o c inner rest _ _ ho holevel hc hclevel _ _ ihinner ihrest =>
    have hdepth : depth < level := by
      have hopen := hlevel o (by simp)
      omega
    rw [List.map_cons, List.map_append, List.map_cons]
    refine .pair hdepth ?_ holevel ?_ hclevel (ihinner fun t ht => hlevel t (by simp [ht]))
      (ihrest fun t ht => hlevel t (by simp [ht]))
    · rw [Item.ofToken, ho]
    · rw [Item.ofToken, hc]

theorem le_deepestLevel {ts : List Token} {t : Token} (ht : t ∈ ts) :
    t.level ≤ deepestLevel ts := by
  -- the running maximum covers where it started and every level it has met
  have hall : ∀ (us : List Token) (d : Nat), d ≤ us.foldl (fun d t => max d t.level) d ∧
      ∀ u ∈ us, u.level ≤ us.foldl (fun d t => max d t.level) d := by
    intro us
    induction us with
    | nil => simp
    | cons v us ih =>
      intro d
      obtain ⟨hmax, hrest⟩ := ih (max d v.level)
      rw [List.foldl_cons]
      refine ⟨by omega, fun u hu => ?_⟩
      rcases List.mem_cons.mp hu with rfl | hu
      · omega
      · exact hrest u hu
  exact (hall ts 0).2 t ht

/-- Level by level, a levelled row ends with its forest. -/
theorem Nests.foldLevels_eq {ts : List Token} {forest : List Tree} (h : Nests 0 ts forest) :
    (foldLevels (deepestLevel ts) (ts.map Item.ofToken)).map (·.map Item.tree) = some forest := by
  obtain ⟨js, hfold, hjs⟩ := (h.unfolds fun _ ht => le_deepestLevel ht).foldLevels_row
  rw [hfold, Option.map_some, hjs.map_tree_eq]

/-- Both ways of finding groups agree, and no search runs past the end. -/
theorem foldLevelwise_eq (tokens : List Token) :
    foldLevelwise tokens = (foldGroups tokens).map some := by
  rw [foldLevelwise, foldGroups]
  cases hlevels : assignLevels tokens with
  | error e => rfl
  | ok levelled =>
    obtain ⟨forest, h⟩ := nests_of_assignLevels hlevels
    show Except.ok _ = Except.ok (some (group levelled))
    rw [h.foldLevels_eq, h.group_eq]

/-! ## §5 Forests written out -/

/-- A token with its place, or only the lexeme where a forest does not keep the place. -/
def Token.written (t : Token) : Lexeme × Option Location :=
  (t.lexeme, match t.lexeme with | .delimiter _ .right => none | _ => some t.loc)

namespace Tree

/-- Leaves and groups only, and no delimiter among the leaves. -/
inductive Grouped : Tree → Prop where
  | leaf (t : Token) (h : t.lexeme.family? = none) : Grouped (.leaf t)
  | group (f : Family) (cs : List Tree) (loc : Location) (h : ∀ c ∈ cs, Grouped c) :
      Grouped (.group f cs loc)

mutual

/-- The lexemes of a tree with its delimiters put back, each with its place. A group keeps the place
of its opening delimiter only. -/
def written : Tree → List (Lexeme × Option Location)
  | .leaf t => [(t.lexeme, some t.loc)]
  | .group f cs loc =>
    (.delimiter f .left, some loc) :: (writtenAll cs ++ [(.delimiter f .right, none)])
  | .unary _ x _ => x.written
  | .binary _ x y _ => x.written ++ y.written

/-- The lexemes of trees with their delimiters put back. -/
def writtenAll : List Tree → List (Lexeme × Option Location)
  | [] => []
  | t :: ts => t.written ++ writtenAll ts

end

end Tree

namespace Nests

variable {depth : Nat} {ts : List Token} {forest : List Tree}

theorem grouped (h : Nests depth ts forest) : ∀ t ∈ forest, t.Grouped := by
  induction h with
  | nil => simp
  | plain ht _ _ ih => exact List.forall_mem_cons.mpr ⟨.leaf _ ht, ih⟩
  | pair _ _ _ _ _ _ ihinner ihrest =>
    exact List.forall_mem_cons.mpr ⟨.group _ _ _ ihinner, ihrest⟩

theorem writtenAll_eq (h : Nests depth ts forest) :
    Tree.writtenAll forest = ts.map Token.written := by
  induction h with
  | nil => rfl
  -- a token that is no delimiter is written as itself, the two of a pair as the group's brackets
  | @plain _ t _ _ ht _ _ ih =>
    have hplace : t.written = (t.lexeme, some t.loc) := by
      rw [Token.written]
      cases hx : t.lexeme with
      | delimiter => rw [hx] at ht; cases ht
      | _ => rfl
    rw [Tree.writtenAll, Tree.written, List.map_cons, ih, hplace]
    rfl
  | @pair _ f o c _ _ _ _ ho _ hc _ _ _ ihinner ihrest =>
    have hopen : o.written = (.delimiter f .left, some o.loc) := by rw [Token.written, ho]
    have hclose : c.written = (.delimiter f .right, none) := by rw [Token.written, hc]
    rw [Tree.writtenAll, Tree.written, ihinner, ihrest]
    simp [hopen, hclose]

end Nests

/-- Finding levels changes neither a lexeme nor a place. -/
theorem map_written_of_levelsFrom {stack : List Opened} {opens closes : Nat}
    {tokens levelled : List Token} (h : levelsFrom stack opens closes tokens = .ok levelled) :
    levelled.map Token.written = tokens.map Token.written := by
  induction tokens generalizing stack opens closes levelled with
  | nil =>
    cases stack with
    | nil =>
      cases h
      rfl
    | cons => cases h
  | cons t tokens ih =>
    obtain ⟨stack', opens', closes', more, -, hmore, rfl⟩ := exists_of_levelsFrom_cons h
    rw [List.map_cons, List.map_cons, ih hmore]
    rfl

/-- The groups of tokens written out are the tokens. -/
theorem writtenAll_of_foldGroups {tokens : List Token} {forest : List Tree}
    (h : foldGroups tokens = .ok forest) :
    Tree.writtenAll forest = tokens.map Token.written := by
  obtain ⟨levelled, hlevels, heq⟩ := bind_eq_ok.mp h
  obtain ⟨_, hnests⟩ := nests_of_assignLevels hlevels
  cases heq
  rw [hnests.group_eq, hnests.writtenAll_eq]
  exact map_written_of_levelsFrom hlevels

/-! ## §6 The main result -/

/-- What it takes for the levels to be found. -/
theorem exists_foldGroups_iff (tokens : List Token) :
    (∃ ts, foldGroups tokens = .ok ts) ↔ Balanced (tokens.map Token.lexeme) := by
  -- levels exist where the delimiters pair up, and pairing up is what makes a word balanced
  constructor
  · rintro ⟨ts, h⟩
    obtain ⟨levelled, hlevels, -⟩ := bind_eq_ok.mp h
    obtain ⟨forest, hnests⟩ := nests_of_assignLevels hlevels
    rw [← (paired_of_levelsFrom hlevels).2]
    exact hnests.balanced
  · intro h
    obtain ⟨levelled, hlevels⟩ := levelsFrom_of_paired [] 0 0 h.paired
    refine ⟨group levelled, ?_⟩
    rw [foldGroups, assignLevels, hlevels]
    rfl

/-- **Folding is exact and loses nothing.** Tokens have a forest exactly when their delimiters form a
balanced word. The forest is the one found level by level, where no search runs past the end. It
holds no delimiter as a leaf, and written out with the delimiters of its groups it is the row of
tokens, in order and with their places. -/
theorem foldGroups_exact (tokens : List Token) :
    ((∃ ts, foldGroups tokens = .ok ts) ↔ Balanced (tokens.map Token.lexeme)) ∧
      foldLevelwise tokens = (foldGroups tokens).map some ∧
      ∀ ts, foldGroups tokens = .ok ts →
        (∀ t ∈ ts, t.Grouped) ∧ Tree.writtenAll ts = tokens.map Token.written := by
  refine ⟨exists_foldGroups_iff tokens, foldLevelwise_eq tokens, fun ts h => ?_⟩
  obtain ⟨levelled, hlevels, heq⟩ := bind_eq_ok.mp h
  obtain ⟨forest, hnests⟩ := nests_of_assignLevels hlevels
  cases heq
  rw [hnests.group_eq]
  refine ⟨hnests.grouped, ?_⟩
  rw [hnests.writtenAll_eq]
  exact map_written_of_levelsFrom hlevels

end Scriptlet
