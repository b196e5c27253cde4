import Scriptlet.Forest.Reduce
import Scriptlet.Proofs.Symbol

/-!
# The symbols and the levels of trees

Whatever the passes do to a forest, its symbols stay in order. `Tree.yield` reads them off, and
`Tree.level` says how loosely the outermost construct of a tree binds. In a *ranked* tree the
operands of every construct bind as tightly as its level asks for, so that the tree needs no
parentheses beyond the ones that are groups in it.

Tokens are grouped with a stack of the delimiters that are open. What one token does to the stack is
said once (`PassesTo`): a row that pairs up passes token by token, and so does one that is given
levels.

## Contents

- §1 symbols
- §2 levels and ranked trees
- §3 delimiters pair up
- §4 grouping keeps the symbols
-/

namespace Scriptlet

/-! ## §1 Symbols -/

namespace Tree

mutual

/-- The symbols of a tree from left to right. -/
def yield : Tree → List Symbol
  | .leaf t => [t.lexeme.symbol]
  | .group f cs _ => .mark f.opening :: (yieldAll cs ++ [.mark f.closing])
  | .unary (.trailing op) x _ => x.yield ++ [.mark op.spelling]
  | .unary (.leading op) x _ => .mark op.spelling :: x.yield
  | .unary (.keyword k) x _ => .word k.spelling :: x.yield
  | .binary .member x y _ => x.yield ++ .mark Operator.dot.spelling :: y.yield
  | .binary (.between _ op) x y _ => x.yield ++ .mark op.spelling :: y.yield
  | .binary .index x y _ | .binary .call x y _ | .binary .function x y _ => x.yield ++ y.yield

/-- The symbols of trees from left to right. -/
def yieldAll : List Tree → List Symbol
  | [] => []
  | t :: ts => t.yield ++ yieldAll ts

end

theorem yieldAll_append (ts us : List Tree) : yieldAll (ts ++ us) = yieldAll ts ++ yieldAll us := by
  induction ts with
  | nil => rfl
  | cons t ts ih => rw [List.cons_append, yieldAll, yieldAll, ih, List.append_assoc]

/-- The newest tree of a list kept in reverse comes last. -/
theorem yieldAll_reverse_cons (t : Tree) (ts : List Tree) :
    yieldAll (t :: ts).reverse = yieldAll ts.reverse ++ t.yield := by
  rw [List.reverse_cons, yieldAll_append, yieldAll, yieldAll, List.append_nil]

/-- A tree may be counted among those done or those to come. -/
theorem yieldAll_shift (t : Tree) (done ts : List Tree) :
    yieldAll (t :: done).reverse ++ yieldAll ts = yieldAll done.reverse ++ yieldAll (t :: ts) := by
  rw [yieldAll_reverse_cons, yieldAll, List.append_assoc]

end Tree

/-! ## §2 Levels and ranked trees -/

/-- How loosely the operators of a tier bind. -/
def Tier.level : Tier → Nat
  | .exponent => 2
  | .multiplicative => 3
  | .additive => 4
  | .comparison => 5
  | .logicalAnd => 6
  | .logicalOr => 7
  | .assignment => 8

theorem Tier.two_le_level (tier : Tier) : 2 ≤ tier.level := by cases tier <;> decide

theorem Tier.level_le (tier : Tier) : tier.level ≤ 8 := by cases tier <;> decide

/-- What the scanner says of the lexemes it makes: names are not reserved and numbers are written
like numbers. -/
def Lexeme.Proper : Lexeme → Prop
  | .name t => isReserved t = false
  | .number t => IsNumeral t
  | _ => True

namespace Tree

/-- How loosely the outermost construct of a tree binds. -/
def level : Tree → Nat
  | .unary _ _ _ => 1
  | .binary (.between tier _) _ _ _ => tier.level
  | .leaf _ | .group _ _ _ | .binary .member _ _ _ | .binary .index _ _ _ | .binary .call _ _ _
  | .binary .function _ _ _ => 0

theorem level_le (t : Tree) : t.level ≤ 8 := by
  cases t with
  | binary form x y loc => cases form <;> simp [level, Tier.level_le]
  | _ => simp [level]

/-- The operands of every construct bind tightly enough. Nothing is said about constructs that no
program contains. -/
inductive Ranked : Tree → Prop where
  | leaf (t : Token) (h : t.lexeme.Proper) : Ranked (.leaf t)
  | group (f : Family) (cs : List Tree) (loc : Location) (h : ∀ c ∈ cs, Ranked c) :
      Ranked (.group f cs loc)
  | keyword (k : Keyword) (x : Tree) (loc : Location) (h : Ranked x) (hlevel : x.level ≤ 1) :
      Ranked (.unary (.keyword k) x loc)
  | leading (op : Operator) (x : Tree) (loc : Location) (h : Ranked x) (hlevel : x.level ≤ 1) :
      Ranked (.unary (.leading op) x loc)
  | trailing (op : Operator) (x : Tree) (loc : Location) : Ranked (.unary (.trailing op) x loc)
  | member (x y : Tree) (loc : Location) : Ranked (.binary .member x y loc)
  | index (x y : Tree) (loc : Location) : Ranked (.binary .index x y loc)
  | function (x y : Tree) (loc : Location) : Ranked (.binary .function x y loc)
  /-- The arguments of a call are in parentheses. -/
  | call (x : Tree) (cs : List Tree) (at_ loc : Location) (hx : Ranked x)
      (h : ∀ c ∈ cs, Ranked c) : Ranked (.binary .call x (.group .parenthesis cs at_) loc)
  | chainLeft (tier : Tier) (op : Operator) (x y : Tree) (loc : Location)
      (htier : op.tier? = some tier) (hside : tier.groupsRight = false) (hx : Ranked x)
      (hy : Ranked y) (hleft : x.level ≤ tier.level) (hright : y.level < tier.level) :
      Ranked (.binary (.between tier op) x y loc)
  | chainRight (tier : Tier) (op : Operator) (x y : Tree) (loc : Location)
      (htier : op.tier? = some tier) (hside : tier.groupsRight = true) (hx : Ranked x)
      (hy : Ranked y) (hleft : x.level < tier.level) (hright : y.level ≤ tier.level) :
      Ranked (.binary (.between tier op) x y loc)

/-- Leaves and groups only. -/
inductive Raw : Tree → Prop where
  | leaf (t : Token) (h : t.lexeme.Proper) : Raw (.leaf t)
  | group (f : Family) (cs : List Tree) (loc : Location) (h : ∀ c ∈ cs, Raw c) :
      Raw (.group f cs loc)

end Tree

/-! ## §3 Delimiters pair up -/

theorem exists_eq_ok {ε α : Type} {x : Except ε α} (h : x.isOk = true) : ∃ a, x = .ok a := by
  cases x with
  | ok a => exact ⟨a, rfl⟩
  | error e => cases h

theorem exists_eq_error {ε α : Type} {x : Except ε α} (h : x.isOk = false) :
    ∃ e, x = .error e := by
  cases x with
  | error e => exact ⟨e, rfl⟩
  | ok a => cases h

/-- A sequence of two steps succeeds only if both do. -/
theorem bind_eq_ok {ε α β : Type} {x : Except ε α} {f : α → Except ε β} {b : β} :
    (x >>= f) = .ok b ↔ ∃ a, x = .ok a ∧ f a = .ok b := by
  cases x with
  | ok a => exact ⟨fun h => ⟨a, rfl, h⟩, fun ⟨_, ha, h⟩ => by cases ha; exact h⟩
  | error e => exact ⟨fun h => (nomatch h), fun ⟨_, ha, _⟩ => (nomatch ha)⟩

theorem exists_of_map_eq_ok {α β ε : Type} {f : α → β} {x : Except ε α} {b : β}
    (h : x.map f = .ok b) : ∃ a, x = .ok a ∧ f a = b := by
  cases x with
  | ok a => exact ⟨a, rfl, Except.ok.inj h⟩
  | error e => cases h

theorem map_eq_error {α β ε : Type} {f : α → β} {x : Except ε α} {e : ε} :
    x.map f = .error e ↔ x = .error e := by
  cases x with
  | ok a => exact ⟨nofun, nofun⟩
  | error e' => simp [Except.map]

theorem mapError_eq_ok {ε ε' α : Type} {f : ε → ε'} {x : Except ε α} {a : α} :
    x.mapError f = .ok a ↔ x = .ok a := by
  cases x <;> simp [Except.mapError]

/-- The delimiters among the lexemes pair up, where those of the families are open, the innermost
first. -/
inductive Paired : List Family → List Lexeme → Prop where
  | nil : Paired [] []
  | left (f : Family) (stack : List Family) (xs : List Lexeme) (h : Paired (f :: stack) xs) :
      Paired stack (.delimiter f .left :: xs)
  | right (f : Family) (stack : List Family) (xs : List Lexeme) (h : Paired stack xs) :
      Paired (f :: stack) (.delimiter f .right :: xs)
  | plain (x : Lexeme) (stack : List Family) (xs : List Lexeme) (hx : x.family? = none)
      (h : Paired stack xs) : Paired stack (x :: xs)

section

variable {stack stack' : List Opened} {opens closes : Nat} {t : Token}

/-- The token can be read where the delimiters of the first stack are open, and those of the second
are open behind it. -/
inductive PassesTo : List Opened → Token → List Opened → Prop where
  | plain {stack : List Opened} {t : Token} (h : t.lexeme.family? = none) : PassesTo stack t stack
  | left {stack : List Opened} {t : Token} {f : Family} (h : t.lexeme = .delimiter f .left) :
      PassesTo stack t ((f, t.loc) :: stack)
  | right {stack : List Opened} {t : Token} {f : Family} {loc : Location}
      (h : t.lexeme = .delimiter f .right) : PassesTo ((f, loc) :: stack) t stack

/-- What pairs up behind a token pairs up with it. -/
theorem PassesTo.paired {xs : List Lexeme} (h : PassesTo stack t stack')
    (hxs : Paired (stack'.map Prod.fst) xs) : Paired (stack.map Prod.fst) (t.lexeme :: xs) := by
  cases h with
  | plain h => exact .plain _ _ _ h hxs
  | left h =>
    rw [h]
    exact .left _ _ _ hxs
  | right h =>
    rw [h]
    exact .right _ _ _ hxs

/-- What may stand at the front of a row that pairs up passes, and the rest pairs up behind it. -/
theorem exists_passesTo {xs : List Lexeme}
    (h : Paired (stack.map Prod.fst) (t.lexeme :: xs)) :
    ∃ stack', PassesTo stack t stack' ∧ Paired (stack'.map Prod.fst) xs := by
  -- the stack holds places beside families, and only the families count
  generalize hx : t.lexeme = x at h
  generalize hfamilies : stack.map Prod.fst = families at h
  cases h with
  | left f _ _ h =>
    subst hfamilies
    exact ⟨(f, t.loc) :: stack, .left hx, h⟩
  | right f families _ h =>
    obtain ⟨⟨g, opened⟩, stack, rfl, hg, rfl⟩ := List.map_eq_cons_iff.mp hfamilies
    obtain rfl : g = f := hg
    exact ⟨stack, .right hx, h⟩
  | plain _ _ _ hplain h =>
    subst hfamilies
    exact ⟨stack, .plain (hx ▸ hplain), h⟩

/-- A token that passes is given a level, at which both delimiters of a pair count as inside it, and
the rest is read with the new stack. -/
theorem levelsFrom_of_passesTo (h : PassesTo stack t stack') (opens closes : Nat) :
    ∃ opens' closes', ∀ rest, levelsFrom stack opens closes (t :: rest) =
      (levelsFrom stack' opens' closes' rest).map
        ({ t with level := max stack.length stack'.length } :: ·) := by
  obtain ⟨x, i, level, loc⟩ := t
  cases h with
  | plain h =>
    refine ⟨opens, closes, fun rest => ?_⟩
    rw [max_self]
    cases x with
    | delimiter => cases h
    | _ => rfl
  | left h =>
    cases h
    refine ⟨opens + 1, closes, fun rest => ?_⟩
    rw [List.length_cons, max_eq_right (Nat.le_succ _)]
    rfl
  | right h =>
    cases h
    refine ⟨opens, closes + 1, fun rest => ?_⟩
    rw [List.length_cons, max_eq_left (Nat.le_succ _), levelsFrom]
    simp only [if_true]
    rfl

/-- Either a token passes, or the row fails at it and no closing delimiter can help. -/
theorem levelsFrom_cons (stack : List Opened) (opens closes : Nat) (t : Token) :
    (∃ stack', PassesTo stack t stack') ∨ ∃ e : UnbalancedError, e.cause.isIncomplete = false ∧
      ∀ rest, levelsFrom stack opens closes (t :: rest) = .error e := by
  obtain ⟨x, i, level, loc⟩ := t
  by_cases hplain : x.family? = none
  · exact .inl ⟨stack, .plain hplain⟩
  obtain ⟨f, side, rfl⟩ : ∃ f side, x = .delimiter f side := by
    cases x with
    | delimiter f side => exact ⟨f, side, rfl⟩
    | _ => exact absurd rfl hplain
  cases side with
  | left => exact .inl ⟨_, .left rfl⟩
  | right =>
    -- only a partner of the family that was opened last is let through
    cases stack with
    | nil => exact .inr ⟨_, rfl, fun rest => rfl⟩
    | cons top stack =>
      obtain ⟨g, opened⟩ := top
      by_cases hfamily : g = f
      · subst hfamily
        exact .inl ⟨stack, .right rfl⟩
      · refine .inr ⟨⟨.mismatched g opened f, loc, opens, closes + 1⟩, rfl, fun rest => ?_⟩
        rw [levelsFrom]
        simp only [if_neg hfamily]

/-- Where a row has levels its first token passes, and the rest has levels behind it. -/
theorem exists_of_levelsFrom_cons {rest levelled : List Token}
    (h : levelsFrom stack opens closes (t :: rest) = .ok levelled) :
    ∃ stack' opens' closes' more, PassesTo stack t stack' ∧
      levelsFrom stack' opens' closes' rest = .ok more ∧
      levelled = { t with level := max stack.length stack'.length } :: more := by
  rcases levelsFrom_cons stack opens closes t with ⟨stack', hpasses⟩ | ⟨e, -, hstep⟩
  · obtain ⟨opens', closes', hstep⟩ := levelsFrom_of_passesTo hpasses opens closes
    rw [hstep] at h
    obtain ⟨more, hmore, rfl⟩ := exists_of_map_eq_ok h
    exact ⟨stack', opens', closes', more, hpasses, hmore, rfl⟩
  · rw [hstep] at h
    cases h

end

/-- Levels are found only where delimiters pair up, and finding them changes nothing else. -/
theorem paired_of_levelsFrom {stack : List Opened} {opens closes : Nat}
    {tokens levelled : List Token} (h : levelsFrom stack opens closes tokens = .ok levelled) :
    Paired (stack.map Prod.fst) (tokens.map Token.lexeme) ∧
      levelled.map Token.lexeme = tokens.map Token.lexeme := by
  -- by induction on the tokens, for every stack of open delimiters
  induction tokens generalizing stack opens closes levelled with
  | nil =>
    match stack, h with
    | [], h =>
      cases h
      exact ⟨.nil, rfl⟩
  | cons t tokens ih =>
    obtain ⟨stack', opens', closes', more, hpasses, hmore, rfl⟩ := exists_of_levelsFrom_cons h
    obtain ⟨hpaired, hsame⟩ := ih hmore
    exact ⟨hpasses.paired hpaired, by rw [List.map_cons, List.map_cons, hsame]⟩

/-! ## §4 Grouping keeps the symbols -/

namespace Nest

/-- The symbols of groups under construction. -/
def symbols (n : Nest) : List Symbol :=
  (n.around.reverse.flatMap fun a => Tree.yieldAll a.2.reverse ++ [.mark a.1.1.opening])
    ++ Tree.yieldAll n.done.reverse

/-- All trees under construction are leaves and groups. -/
structure AllRaw (n : Nest) : Prop where
  done : ∀ t ∈ n.done, t.Raw
  around : ∀ a ∈ n.around, ∀ t ∈ a.2, t.Raw

variable {n : Nest} {t : Token} {f : Family} {loc : Location} {before : List Tree}
  {around : List (Opened × List Tree)}

/-- A token that is no delimiter is a leaf of the innermost group. -/
theorem step_of_plain (h : t.lexeme.family? = none) :
    n.step t = ⟨.leaf t :: n.done, n.around⟩ := by
  obtain ⟨x, i, level, loc⟩ := t
  cases x with
  | delimiter => cases h
  | _ => rfl

/-- An opening delimiter begins a group. -/
theorem step_of_left (h : t.lexeme = .delimiter f .left) :
    n.step t = ⟨[], ((f, t.loc), n.done) :: n.around⟩ := by
  rw [step, h]

/-- A closing delimiter ends the innermost group. -/
theorem step_of_right {g : Family} (h : t.lexeme = .delimiter g .right)
    (haround : n.around = ((f, loc), before) :: around) :
    n.step t = ⟨.group f n.done.reverse loc :: before, around⟩ := by
  rw [step, h, haround]

/-- A leaf adds its symbol. -/
theorem symbols_plain : (⟨.leaf t :: n.done, n.around⟩ : Nest).symbols
    = n.symbols ++ [t.lexeme.symbol] := by
  simp only [symbols, Tree.yieldAll_reverse_cons, Tree.yield, List.append_assoc]

/-- An opening delimiter adds its symbol. -/
theorem symbols_open : (⟨[], ((f, loc), n.done) :: n.around⟩ : Nest).symbols
    = n.symbols ++ [(Lexeme.delimiter f .left).symbol] := by
  simp [symbols, Tree.yieldAll, Lexeme.symbol, Family.opening]

/-- A closing delimiter adds its symbol, for the group writes both of its own. -/
theorem symbols_close (haround : n.around = ((f, loc), before) :: around) :
    (⟨.group f n.done.reverse loc :: before, around⟩ : Nest).symbols
      = n.symbols ++ [(Lexeme.delimiter f .right).symbol] := by
  rw [symbols, symbols, Tree.yieldAll_reverse_cons, haround, Tree.yield]
  simp [Lexeme.symbol, Family.closing]

theorem AllRaw.plain (h : n.AllRaw) (ht : t.lexeme.Proper) :
    (⟨.leaf t :: n.done, n.around⟩ : Nest).AllRaw := by
  refine ⟨fun u hu => ?_, h.around⟩
  rcases List.mem_cons.mp hu with rfl | hu
  · exact .leaf t ht
  · exact h.done u hu

theorem AllRaw.opened (h : n.AllRaw) :
    (⟨[], ((f, loc), n.done) :: n.around⟩ : Nest).AllRaw := by
  refine ⟨by simp, fun a ha => ?_⟩
  rcases List.mem_cons.mp ha with rfl | ha
  · exact h.done
  · exact h.around a ha

theorem AllRaw.close (h : n.AllRaw) (haround : n.around = ((f, loc), before) :: around) :
    (⟨.group f n.done.reverse loc :: before, around⟩ : Nest).AllRaw := by
  have hall := h.around
  rw [haround] at hall
  refine ⟨fun u hu => ?_, fun a ha => hall a (List.mem_cons_of_mem _ ha)⟩
  rcases List.mem_cons.mp hu with rfl | hu
  · exact .group f _ loc fun c hc => h.done c (List.mem_reverse.mp hc)
  · exact hall ((f, loc), before) (by simp) u hu

end Nest

/-- Where delimiters pair up, grouping ends with nothing open and keeps all symbols. -/
theorem foldl_step_of_paired {stack : List Family} {tokens : List Token} {n : Nest}
    (h : Paired stack (tokens.map Token.lexeme)) (hstack : n.around.map (·.1.1) = stack)
    (hraw : n.AllRaw) (hproper : ∀ t ∈ tokens, t.lexeme.Proper) :
    (tokens.foldl Nest.step n).AllRaw ∧
      Tree.yieldAll (tokens.foldl Nest.step n).done.reverse
        = n.symbols ++ tokens.map (·.lexeme.symbol) := by
  -- each step moves one symbol from the tokens to the groups under construction
  induction tokens generalizing stack n with
  | nil =>
    cases h
    have hnone : n.around = [] := by simpa using hstack
    exact ⟨hraw, by simp [Nest.symbols, hnone]⟩
  | cons t tokens ih =>
    have hmore : ∀ u ∈ tokens, u.lexeme.Proper := fun u hu => hproper u (List.mem_cons_of_mem _ hu)
    have hhead := hproper t (by simp)
    rw [List.map_cons] at h
    rw [List.map_cons, List.append_cons, List.foldl_cons]
    generalize hx : t.lexeme = x at h
    cases h with
    | left f _ _ h =>
      rw [Nest.step_of_left hx, ← Nest.symbols_open]
      exact ih h (by simpa using hstack) hraw.opened hmore
    | right f stack _ h =>
      -- the stack says that a group of the family is open
      obtain ⟨⟨⟨g, loc⟩, before⟩, around, haround⟩ : ∃ a around, n.around = a :: around := by
        cases hn : n.around with
        | nil => simp [hn] at hstack
        | cons a around => exact ⟨a, around, rfl⟩
      rw [haround] at hstack
      simp only [List.map_cons, List.cons.injEq] at hstack
      obtain ⟨rfl, hstack⟩ := hstack
      rw [Nest.step_of_right hx haround, ← Nest.symbols_close haround]
      exact ih h hstack (hraw.close haround) hmore
    | plain _ _ _ hplain h =>
      rw [← hx] at hplain
      rw [Nest.step_of_plain hplain, ← hx, ← Nest.symbols_plain]
      exact ih h hstack (hraw.plain hhead) hmore

/-- The forest of tokens has their symbols. -/
theorem yieldAll_of_foldGroups {tokens : List Token} {ts : List Tree}
    (h : foldGroups tokens = .ok ts) (hproper : ∀ t ∈ tokens, t.lexeme.Proper) :
    (∀ t ∈ ts, t.Raw) ∧ Tree.yieldAll ts = tokens.map (·.lexeme.symbol) := by
  obtain ⟨levelled, hlevels, heq⟩ := bind_eq_ok.mp h
  cases heq
  obtain ⟨hpaired, hsame⟩ := paired_of_levelsFrom hlevels
  -- finding levels changes no lexeme, so what holds of the tokens holds of the levelled ones
  have hproper' : ∀ t ∈ levelled, t.lexeme.Proper := by
    intro t ht
    have hmem := List.mem_map_of_mem (f := Token.lexeme) ht
    rw [hsame] at hmem
    obtain ⟨u, hu, heq⟩ := List.mem_map.mp hmem
    rw [← heq]
    exact hproper u hu
  rw [← hsame] at hpaired
  obtain ⟨hraw, hyield⟩ := foldl_step_of_paired (n := .empty) hpaired rfl
    ⟨by simp [Nest.empty], by simp [Nest.empty]⟩ hproper'
  refine ⟨fun t ht => hraw.done t (List.mem_reverse.mp ht), ?_⟩
  rw [group, hyield]
  have hsymbols := congrArg (List.map Lexeme.symbol) hsame
  rw [List.map_map, List.map_map] at hsymbols
  exact hsymbols

end Scriptlet
