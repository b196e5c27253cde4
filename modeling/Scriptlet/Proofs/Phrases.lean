import Scriptlet.Proofs.Expression
import Scriptlet.Proofs.Rows

/-!
# The reducer accepts what is derived

The lexemes of a derived expression, with its signs marked, are a *phrase*: operands and operators
in turn, without any regard to precedence. The delimiters of a phrase pair up, its forest is a row
at every depth, and so every pass succeeds and the one tree that is left stands for an expression.

## Contents

- §1 the lexemes of symbols
- §2 phrases
- §3 derived expressions are phrases
- §4 the forest of a phrase
- §5 delimiters pair up
- §6 accepting phrases
-/

namespace Scriptlet

/-! ## §1 The lexemes of symbols -/

/-- The lexemes that are not words, numbers or strings, with operators as they are before their
neighbours are looked at. -/
def Lexeme.marks : List Lexeme :=
  Operator.table.map (fun op => .operator op op.fixity)
    ++ Family.all.flatMap fun f => [.delimiter f .left, .delimiter f .right]

/-- The lexeme of a symbol before its neighbours are looked at. What is no symbol of a source is
read as a string. -/
def Symbol.lexeme : Symbol → Lexeme
  | .word t => .ofWord t
  | .number t => .number t
  | .string v => .string v
  | .mark t => (Lexeme.marks.find? (·.symbol == .mark t)).getD (.string t)
  | .ending => .string []

theorem Symbol.lexeme_operator (op : Operator) :
    (Symbol.mark op.spelling).lexeme = .operator op op.fixity := by
  cases op <;> decide

theorem Symbol.lexeme_delimiter (f : Family) (s : Side) :
    (Symbol.mark (Text.ofChar (f.char s))).lexeme = .delimiter f s := by
  cases f <;> cases s <;> decide

/-- Marks each sign or step that follows no operand, as the scanner does. -/
def marked (afterOperand : Bool) : List Lexeme → List Lexeme
  | [] => []
  | .operator op fixity :: rest =>
    let x := Lexeme.operator op (if op.isSignOrStep && !afterOperand then .leading else fixity)
    x :: marked x.isOperand rest
  | x :: rest => x :: marked x.isOperand rest

theorem markLeading_lexemes (afterOperand : Bool) (ps : List Placed) :
    (markLeading afterOperand ps).map Prod.fst = marked afterOperand (ps.map Prod.fst) := by
  induction ps generalizing afterOperand with
  | nil => rfl
  | cons x ps ih =>
    obtain ⟨l, loc⟩ := x
    cases l <;> simp only [markLeading, marked, List.map_cons, ih]

/-! ## §2 Phrases -/

/-- The lexemes are operands and operators in turn, or, if there may be commas, arguments. -/
inductive Phrase : Bool → List Lexeme → Prop where
  | number (t : Text) (v : Float) (h : Decimal.read t = .ok v) : Phrase false [.number t]
  | string (v : Text) : Phrase false [.string v]
  | name (t : Text) : Phrase false [.name t]
  | group (ls : List Lexeme) (h : Phrase false ls) :
      Phrase false (.delimiter .parenthesis .left :: (ls ++ [.delimiter .parenthesis .right]))
  | callNone (t : Text) :
      Phrase false [.name t, .delimiter .parenthesis .left, .delimiter .parenthesis .right]
  | call (t : Text) (ls : List Lexeme) (h : Phrase true ls) :
      Phrase false (.name t :: .delimiter .parenthesis .left ::
        (ls ++ [.delimiter .parenthesis .right]))
  | sign (op : Operator) (hop : op = .minus ∨ op = .plus ∨ op = .bang) (ls : List Lexeme)
      (h : Phrase false ls) : Phrase false (.operator op .leading :: ls)
  | between (op : Operator) (tier : Tier) (htier : op.tier? = some tier)
      (hbinary : op.toBinary?.isSome = true) (ls ms : List Lexeme) (hl : Phrase false ls)
      (hm : Phrase false ms) : Phrase false (ls ++ .operator op .dual :: ms)
  /-- A single argument. -/
  | argument (ls : List Lexeme) (h : Phrase false ls) : Phrase true ls
  | comma (ls ms : List Lexeme) (hl : Phrase true ls) (hm : Phrase true ms) :
      Phrase true (ls ++ .operator .comma .separator :: ms)

/-! ## §3 Derived expressions are phrases -/

/-- Where no operand precedes them, the symbols are marked as a phrase that ends with an operand. -/
def ReadsAs (commas : Bool) (xs : List Symbol) : Prop :=
  ∀ rest, ∃ ms, marked false (xs.map Symbol.lexeme ++ rest) = ms ++ marked true rest ∧
    Phrase commas ms

/-- The sign between operands belongs to a tier of expressions. -/
theorem BinaryOp.exists_operator {bin : BinaryOp} (h : 1 < bin.level) :
    ∃ op tier, (Symbol.mark bin.symbol).lexeme = .operator op .dual ∧ op.tier? = some tier ∧
      op.toBinary?.isSome = true := by
  cases bin with
  | unknown n => simp [BinaryOp.level] at h
  | _ => exact ⟨_, _, rfl, rfl, rfl⟩

namespace ReadsAs

variable {xs ys : List Symbol}

/-- Behind an operand an operator is not marked, and what follows it is. -/
theorem between (bin : BinaryOp) (hx : ReadsAs false xs) (hbin : 1 < bin.level)
    (hy : ReadsAs false ys) : ReadsAs false (xs ++ .mark bin.symbol :: ys) := by
  intro rest
  obtain ⟨op, tier, hlexeme, htier, hbinary⟩ := BinaryOp.exists_operator hbin
  obtain ⟨ms, hms, hm⟩ := hy rest
  obtain ⟨ls, hls, hl⟩ := hx (.operator op .dual :: (ys.map Symbol.lexeme ++ rest))
  refine ⟨ls ++ .operator op .dual :: ms, ?_, .between op tier htier hbinary ls ms hl hm⟩
  rw [List.map_append, List.map_cons, hlexeme, List.append_assoc, List.cons_append, hls, marked]
  simp only [Bool.not_true, Bool.and_false, Bool.false_eq_true, if_false, List.append_assoc,
    List.cons_append, ← hms]
  rfl

theorem links {links : List Link} (hx : ReadsAs false xs) (hops : ∀ l ∈ links, 1 < l.op.level)
    (hlinks : ∀ l ∈ links, ReadsAs false l.symbols) :
    ReadsAs false (xs ++ links.flatMap Link.spelled) := by
  induction links generalizing xs with
  | nil => simpa using hx
  | cons l links ih =>
    have hone : ReadsAs false (xs ++ l.spelled) :=
      hx.between l.op (hops l (by simp)) (hlinks l (by simp))
    rw [List.flatMap_cons, ← List.append_assoc]
    exact ih hone (fun l' hl' => hops l' (by simp [hl'])) fun l' hl' => hlinks l' (by simp [hl'])

theorem sign (op : Operator) (hop : op = .minus ∨ op = .plus ∨ op = .bang)
    (hx : ReadsAs false xs) : ReadsAs false (.mark op.spelling :: xs) := by
  intro rest
  obtain ⟨ms, hms, hm⟩ := hx rest
  refine ⟨.operator op .leading :: ms, ?_, .sign op hop ms hm⟩
  rw [List.map_cons, Symbol.lexeme_operator, List.cons_append, List.cons_append, ← hms]
  rcases hop with rfl | rfl | rfl <;> rfl

/-- Arguments stand between commas, behind which there is no operand. -/
theorem arguments {x : List Symbol} {parts : List (List Symbol)}
    (hparts : ∀ y ∈ x :: parts, ReadsAs false y) : ReadsAs true (commas (x :: parts)) := by
  induction parts generalizing x with
  | nil =>
    intro rest
    obtain ⟨ms, hms, hm⟩ := hparts x (by simp) rest
    exact ⟨ms, hms, .argument ms hm⟩
  | cons y parts ih =>
    intro rest
    obtain ⟨ms, hms, hm⟩ := ih (x := y) (fun z hz => hparts z (by simp [hz])) rest
    -- the first argument is followed by the comma and all other arguments
    obtain ⟨ls, hls, hl⟩ := hparts x (by simp)
      (.operator .comma .separator :: ((commas (y :: parts)).map Symbol.lexeme ++ rest))
    refine ⟨ls ++ .operator .comma .separator :: ms, ?_, .comma ls ms (.argument ls hl) hm⟩
    have hcomma : (Symbol.mark ",").lexeme = .operator .comma .separator :=
      Symbol.lexeme_operator .comma
    rw [commas, List.map_append, List.map_cons, hcomma, List.append_assoc, List.cons_append, hls,
      List.append_assoc, List.cons_append, ← hms]
    · rfl
    · simp

/-- Neither side of a pair of parentheses is marked; an operand may follow the left one. -/
theorem parenthesized {commas : Bool} (hx : ReadsAs commas xs) (after : Bool)
    (rest : List Lexeme) :
    ∃ ms, marked after ((Symbol.mark "(" :: (xs ++ [Symbol.mark ")"])).map Symbol.lexeme ++ rest)
        = Lexeme.delimiter .parenthesis .left :: (ms ++ [Lexeme.delimiter .parenthesis .right])
          ++ marked true rest ∧ Phrase commas ms := by
  -- behind the left parenthesis an operand is due, behind the right one there has been one
  obtain ⟨ms, hms, hm⟩ := hx (.delimiter .parenthesis .right :: rest)
  refine ⟨ms, ?_, hm⟩
  have hleft : (Symbol.mark "(").lexeme = .delimiter .parenthesis .left :=
    Symbol.lexeme_delimiter .parenthesis .left
  have hright : (Symbol.mark ")").lexeme = .delimiter .parenthesis .right :=
    Symbol.lexeme_delimiter .parenthesis .right
  rw [List.map_cons, List.map_append, List.map_singleton, hleft, hright, List.cons_append,
    List.append_assoc, List.singleton_append, marked]
  · rw [Lexeme.isOperand]
    have hside : (Side.left == Side.right) = false := rfl
    rw [hside, hms, marked]
    · simp [Lexeme.isOperand]
    · simp
  · simp

end ReadsAs

theorem mem_commas {x : Symbol} {xs : List Symbol} {parts : List (List Symbol)} (hx : x ∈ xs)
    (hxs : xs ∈ parts) : x ∈ commas parts := by
  cases parts with
  | nil => cases hxs
  | cons y parts =>
    rw [commas_cons, List.mem_append, List.mem_flatMap]
    rcases List.mem_cons.mp hxs with rfl | hxs
    · exact .inl hx
    · exact .inr ⟨xs, hxs, List.mem_cons_of_mem _ hx⟩

/-- The symbol is no number or one in range. -/
def Symbol.inRange : Symbol → Bool
  | .number t => (Decimal.read t).isOk
  | _ => true

/-- The numbers among the symbols are in range. -/
def InRange (xs : List Symbol) : Prop := ∀ x ∈ xs, x.inRange = true

theorem InRange.mono {xs ys : List Symbol} (h : InRange ys) (hsub : ∀ x ∈ xs, x ∈ ys) :
    InRange xs :=
  fun x hx => h x (hsub x hx)

theorem ofWord_of_not_reserved {t : Text} (h : isReserved t = false) :
    Lexeme.ofWord t = .name t := by
  unfold isReserved at h
  unfold Lexeme.ofWord
  split
  · next k hk =>
    rw [hk] at h
    cases h
  · rfl

/-- **Derived expressions are phrases**, if their numbers are in range. -/
theorem Derives.readsAs {k : Nat} {xs : List Symbol} {n : Node} (h : Derives k xs n)
    (hrange : InRange xs) : ReadsAs false xs := by
  induction h with
  | number t ht =>
    obtain ⟨v, hv⟩ := exists_eq_ok (hrange (.number t) (by simp))
    exact fun rest => ⟨[.number t], rfl, .number t v hv⟩
  | string v => exact fun rest => ⟨[.string v], rfl, .string v⟩
  | name t ht =>
    intro rest
    refine ⟨[.name t], ?_, .name t⟩
    rw [List.map_singleton, Symbol.lexeme, ofWord_of_not_reserved ht]
    rfl
  | call t args ht hargs ih =>
    intro rest
    have hname : ∀ ls, marked false ((Symbol.word t).lexeme :: ls) = .name t :: marked true ls := by
      intro ls
      rw [Symbol.lexeme, ofWord_of_not_reserved ht]
      rfl
    rw [List.map_cons, List.cons_append, hname]
    -- without arguments there is no operand between the parentheses
    cases args with
    | nil =>
      refine ⟨_, ?_, .callNone t⟩
      rw [List.map_nil, commas, List.nil_append, List.map_cons, List.map_singleton,
        show (Symbol.mark "(").lexeme = _ from Symbol.lexeme_delimiter .parenthesis .left,
        show (Symbol.mark ")").lexeme = _ from Symbol.lexeme_delimiter .parenthesis .right]
      rfl
    | cons a args =>
      have hreads : ReadsAs true (commas ((a :: args).map Prod.fst)) := by
        refine ReadsAs.arguments fun y hy => ?_
        rw [← List.map_cons] at hy
        obtain ⟨b, hb, rfl⟩ := List.mem_map.mp hy
        refine ih b hb (hrange.mono fun x hx => ?_)
        have hmem : x ∈ commas ((a :: args).map Prod.fst) := mem_commas hx (List.mem_map_of_mem hb)
        exact List.mem_cons_of_mem _ (List.mem_cons_of_mem _ (List.mem_append_left _ hmem))
      obtain ⟨ms, hms, hm⟩ := hreads.parenthesized true rest
      refine ⟨_, ?_, .call t ms hm⟩
      rw [hms]
      rfl
  | group xs n _ ih =>
    intro rest
    have hx := ih (hrange.mono fun x hx => by simp [hx])
    obtain ⟨ms, hms, hm⟩ := hx.parenthesized false rest
    exact ⟨_, hms, .group ms hm⟩
  | atom xs n _ ih | base xs n _ ih => exact ih hrange
  | leading op hop xs n _ ih =>
    have hx := ih (hrange.mono fun x hx => by simp [hx])
    rcases hop with rfl | rfl
    · exact ReadsAs.sign .bang (.inr (.inr rfl)) hx
    · exact ReadsAs.sign .minus (.inl rfl) hx
  | plus xs n _ ih =>
    have hx := ih (hrange.mono fun x hx => by simp [hx])
    exact ReadsAs.sign .plus (.inr (.inl rfl)) hx
  | raised xs ys m n _ _ ihx ihy =>
    have hx := ihx (hrange.mono fun x hx => by simp [hx])
    exact hx.between .power (by decide) (ihy (hrange.mono fun y hy => by simp [hy]))
  | chain k xs n links _ hops _ ihx ihl =>
    have hx := ihx (hrange.mono fun x hx => by simp [hx])
    refine hx.links (fun l hl => ?_) fun l hl => ihl l hl (hrange.mono fun x hx => ?_)
    · rw [hops l hl]
      omega
    · refine List.mem_append_right _ (List.mem_flatMap.mpr ⟨l, hl, ?_⟩)
      exact List.mem_cons_of_mem _ hx

/-! ## §4 The forest of a phrase -/

open Scriptlet.Tree

/-- The tokens are grouped into trees whose groups can be reduced to those of the forest. -/
def Builds (ts : List Token) (forest : List Tree) : Prop :=
  ∃ raw, (∀ n : Nest, ts.foldl Nest.step n = ⟨raw.reverse ++ n.done, n.around⟩) ∧
    reduceGroups raw = .ok forest

theorem reduceGroups_append {ts us ts' us' : List Tree} (ht : reduceGroups ts = .ok ts')
    (hu : reduceGroups us = .ok us') : reduceGroups (ts ++ us) = .ok (ts' ++ us') := by
  -- every tree is reduced by itself
  induction ts generalizing ts' with
  | nil =>
    rw [reduceGroups] at ht
    cases ht
    exact hu
  | cons t ts ih =>
    rw [reduceGroups] at ht
    obtain ⟨u, hu', ht⟩ := bind_eq_ok.mp ht
    obtain ⟨more, hmore, ht⟩ := bind_eq_ok.mp ht
    cases ht
    rw [List.cons_append, reduceGroups, hu', ih hmore]
    rfl

namespace Builds

variable {ts us : List Token} {forest more : List Tree} {t : Token}

theorem append (ht : Builds ts forest) (hu : Builds us more) :
    Builds (ts ++ us) (forest ++ more) := by
  obtain ⟨raw, hraw, hreduce⟩ := ht
  obtain ⟨raw', hraw', hreduce'⟩ := hu
  refine ⟨raw ++ raw', fun n => ?_, reduceGroups_append hreduce hreduce'⟩
  rw [List.foldl_append, hraw, hraw', List.reverse_append, List.append_assoc]

theorem nil : Builds [] [] := ⟨[], fun _ => rfl, by rw [reduceGroups]⟩

theorem leaf (h : t.lexeme.family? = none) : Builds [t] [.leaf t] := by
  refine ⟨[.leaf t], fun n => ?_, ?_⟩
  · rw [List.foldl_cons, List.foldl_nil, Nest.step_of_plain h]
    rfl
  · rw [reduceGroups, reduceGroups, reduceGroup]
    · rfl
    · simp

theorem cons (h : t.lexeme.family? = none) (hu : Builds us more) :
    Builds (t :: us) (.leaf t :: more) :=
  (leaf h).append hu

/-- The contents of a group are reduced before the group takes its place. -/
theorem group {f : Family} {left right : Token} {cs : List Tree}
    (hleft : left.lexeme = .delimiter f .left) (hright : right.lexeme = .delimiter f .right)
    (ht : Builds ts forest) (hpasses : runPasses forest = .ok cs) :
    Builds (left :: (ts ++ [right])) [.group f cs left.loc] := by
  obtain ⟨raw, hraw, hreduce⟩ := ht
  refine ⟨[.group f raw left.loc], fun n => ?_, ?_⟩
  -- the group is opened, filled and closed by the steps over its tokens
  · rw [List.foldl_cons, Nest.step_of_left hleft, List.foldl_append, hraw, List.foldl_cons,
      List.foldl_nil, Nest.step_of_right hright rfl]
    simp
  · have hgroup : reduceGroup (.group f raw left.loc) = .ok (.group f cs left.loc) := by
      rw [reduceGroup, hreduce]
      exact bind_eq_ok.mpr ⟨forest, rfl, bind_eq_ok.mpr ⟨cs, hpasses, rfl⟩⟩
    rw [reduceGroups, reduceGroups, hgroup]
    rfl

end Builds

/-- A name and its arguments become a call. -/
theorem row_call {commas : Bool} {name : Token} {t : Text} {cs : List Tree} {loc : Location}
    (hname : name.lexeme = .name t) (h : cs = [] ∨ Row Single (Separates true 8) cs) :
    Row (Signed Kernel) (Separates commas 1) [.leaf name, .group .parenthesis cs loc] := by
  obtain ⟨x, i, level, at_⟩ := name
  obtain rfl : x = .name t := hname
  refine .one _ (.bare _ (.call t i level at_ cs loc ⟨by simp [Tree.level], ?_⟩))
  -- without arguments nothing is left to be lowered
  rcases h with rfl | h
  · rw [lowerExpr]
    exact ⟨_, rfl⟩
  · obtain ⟨ns, hns⟩ := h.lowerArgs t at_
    obtain ⟨c, more, rfl, _⟩ := h.exists_head
    rw [lowerExpr, hns]
    exact ⟨_, rfl⟩

/-- A token that is an expression by itself. -/
theorem row_leaf {commas : Bool} {t : Token} {n : Node} (h : lowerToken t = .ok n) :
    Row (Signed Kernel) (Separates commas 1) [.leaf t] := by
  refine .one _ (.bare _ (.tree _ ⟨by simp [Tree.level], n, ?_⟩))
  rw [lowerExpr, h]

theorem exists_divided {ts : List Token} {ls ms : List Lexeme} {x : Lexeme}
    (h : ts.map Token.lexeme = ls ++ x :: ms) :
    ∃ us t vs, ts = us ++ t :: vs ∧ us.map Token.lexeme = ls ∧ t.lexeme = x ∧
      vs.map Token.lexeme = ms := by
  obtain ⟨us, _, rfl, hus, hmore⟩ := List.map_eq_append_iff.mp h
  obtain ⟨t, vs, rfl, ht, hvs⟩ := List.map_eq_cons_iff.mp hmore
  exact ⟨us, t, vs, rfl, hus, ht, hvs⟩

theorem exists_enclosed {ts : List Token} {ls : List Lexeme} {x y : Lexeme}
    (h : ts.map Token.lexeme = x :: (ls ++ [y])) :
    ∃ left us right, ts = left :: (us ++ [right]) ∧ left.lexeme = x ∧
      us.map Token.lexeme = ls ∧ right.lexeme = y := by
  obtain ⟨left, _, rfl, hleft, hmore⟩ := List.map_eq_cons_iff.mp h
  obtain ⟨us, right, vs, rfl, hus, hright, hvs⟩ := exists_divided hmore
  obtain rfl := List.map_eq_nil_iff.mp hvs
  exact ⟨left, us, right, rfl, hleft, hus, hright⟩

/-- The forest of a phrase is a row. -/
theorem Phrase.builds {commas : Bool} {ls : List Lexeme} {ts : List Token} (h : Phrase commas ls)
    (hts : ts.map Token.lexeme = ls) :
    ∃ forest, Builds ts forest ∧ Row (Signed Kernel) (Separates commas 1) forest := by
  induction h generalizing ts with
  | number t v h =>
    obtain ⟨u, rfl, hu⟩ := List.map_eq_singleton_iff.mp hts
    refine ⟨[.leaf u], .leaf (by rw [hu]; rfl), row_leaf (n := .number v u.loc) ?_⟩
    rw [lowerToken, hu]
    simp only [h]
  | string v =>
    obtain ⟨u, rfl, hu⟩ := List.map_eq_singleton_iff.mp hts
    refine ⟨[.leaf u], .leaf (by rw [hu]; rfl), row_leaf (n := .string v u.loc) ?_⟩
    rw [lowerToken, hu]
  | name t =>
    obtain ⟨u, rfl, hu⟩ := List.map_eq_singleton_iff.mp hts
    refine ⟨[.leaf u], .leaf (by rw [hu]; rfl), row_leaf (n := .ident t u.loc) ?_⟩
    rw [lowerToken, hu]
  | group ls _ ih =>
    obtain ⟨left, us, right, rfl, hleft, hus, hright⟩ := exists_enclosed hts
    obtain ⟨forest, hbuilds, hrow⟩ := ih hus
    obtain ⟨cs, hpasses, hdone⟩ := runPasses_row hrow
    -- what stands in the parentheses is reduced to one tree
    obtain ⟨t, rfl, ht⟩ := hdone.single
    refine ⟨_, hbuilds.group hleft hright hpasses, .one _ (.bare _ (.tree _ ?_))⟩
    refine ⟨by simp [Tree.level], ?_⟩
    rw [lowerExpr]
    exact ht.2
  | callNone t =>
    obtain ⟨u, _, rfl, hu, hmore⟩ := List.map_eq_cons_iff.mp hts
    obtain ⟨left, _, rfl, hleft, hlast⟩ := List.map_eq_cons_iff.mp hmore
    obtain ⟨right, rfl, hright⟩ := List.map_eq_singleton_iff.mp hlast
    have hgroup := Builds.nil.group hleft hright (show runPasses [] = .ok [] from rfl)
    exact ⟨_, hgroup.cons (by rw [hu]; rfl), row_call hu (.inl rfl)⟩
  | call t ls _ ih =>
    obtain ⟨u, _, rfl, hu, hmore⟩ := List.map_eq_cons_iff.mp hts
    obtain ⟨left, us, right, rfl, hleft, hus, hright⟩ := exists_enclosed hmore
    obtain ⟨forest, hbuilds, hrow⟩ := ih hus
    obtain ⟨cs, hpasses, hdone⟩ := runPasses_row hrow
    have hgroup := hbuilds.group hleft hright hpasses
    exact ⟨_, hgroup.cons (by rw [hu]; rfl), row_call hu (.inr hdone)⟩
  | sign op hop ls _ ih =>
    obtain ⟨u, us, rfl, hu, hus⟩ := List.map_eq_cons_iff.mp hts
    obtain ⟨forest, hbuilds, hrow⟩ := ih hus
    refine ⟨_, hbuilds.cons (by rw [hu]; rfl), hrow.cons fun a ha => ?_⟩
    obtain ⟨x, i, level, loc⟩ := u
    obtain rfl : x = .operator op .leading := hu
    exact .sign op hop i level loc a ha
  | between op tier htier hbinary ls ms _ _ ihl ihm =>
    obtain ⟨us, o, vs, rfl, hus, ho, hvs⟩ := exists_divided hts
    obtain ⟨forest, hbuilds, hrow⟩ := ihl hus
    obtain ⟨forest', hbuilds', hrow'⟩ := ihm hvs
    refine ⟨_, hbuilds.append (hbuilds'.cons (by rw [ho]; rfl)), hrow.append ?_ hrow'⟩
    obtain ⟨x, i, level, loc⟩ := o
    obtain rfl : x = .operator op .dual := ho
    exact .between op tier htier tier.two_le_level hbinary i level loc
  | argument ls _ ih =>
    obtain ⟨forest, hbuilds, hrow⟩ := ih hts
    -- a row without commas is one of arguments
    refine ⟨forest, hbuilds, hrow.imp fun o ho => ?_⟩
    cases ho with
    | between op tier htier hk hbinary i level loc =>
      exact .between op tier htier hk hbinary i level loc
    | comma h => cases h
  | comma ls ms _ _ ihl ihm =>
    obtain ⟨us, o, vs, rfl, hus, ho, hvs⟩ := exists_divided hts
    obtain ⟨forest, hbuilds, hrow⟩ := ihl hus
    obtain ⟨forest', hbuilds', hrow'⟩ := ihm hvs
    refine ⟨_, hbuilds.append (hbuilds'.cons (by rw [ho]; rfl)), hrow.append ?_ hrow'⟩
    obtain ⟨x, i, level, loc⟩ := o
    obtain rfl : x = .operator .comma .separator := ho
    exact .comma rfl i level loc

/-! ## §5 Delimiters pair up -/

theorem Phrase.paired {commas : Bool} {ls rest : List Lexeme} {stack : List Family}
    (h : Phrase commas ls) (hrest : Paired stack rest) : Paired stack (ls ++ rest) := by
  -- parentheses pair up by themselves, and nothing else is a delimiter
  induction h generalizing rest stack with
  | number | string | name => exact .plain _ _ _ rfl hrest
  | group ls _ ih =>
    rw [List.cons_append, List.append_assoc]
    exact .left _ _ _ (ih (.right _ _ _ hrest))
  | callNone t => exact .plain _ _ _ rfl (.left _ _ _ (.right _ _ _ hrest))
  | call t ls _ ih =>
    rw [List.cons_append, List.cons_append, List.append_assoc]
    exact .plain _ _ _ rfl (.left _ _ _ (ih (.right _ _ _ hrest)))
  | sign op _ ls _ ih => exact .plain _ _ _ rfl (ih hrest)
  | between op tier _ _ ls ms _ _ ihl ihm =>
    rw [List.append_assoc]
    exact ihl (.plain _ _ _ rfl (ihm hrest))
  | argument ls _ ih => exact ih hrest
  | comma ls ms _ _ ihl ihm =>
    rw [List.append_assoc]
    exact ihl (.plain _ _ _ rfl (ihm hrest))

/-- Levels are found where delimiters pair up. -/
theorem levelsFrom_of_paired (stack : List Opened) (opens closes : Nat) {tokens : List Token}
    (h : Paired (stack.map Prod.fst) (tokens.map Token.lexeme)) :
    ∃ levelled, levelsFrom stack opens closes tokens = .ok levelled := by
  induction tokens generalizing stack opens closes with
  | nil =>
    cases stack with
    | nil => exact ⟨[], rfl⟩
    | cons => cases h
  | cons t tokens ih =>
    obtain ⟨stack', hpasses, hpaired⟩ := exists_passesTo h
    obtain ⟨opens', closes', hstep⟩ := levelsFrom_of_passesTo hpasses opens closes
    obtain ⟨more, hmore⟩ := ih stack' opens' closes' hpaired
    rw [hstep, hmore]
    exact ⟨_, rfl⟩

/-! ## §6 Accepting phrases -/

/-- No statement is an operator. -/
theorem isOperator_of_lowerStatement {t : Tree} {n : Node} (op : Operator)
    (h : lowerStatement t = .ok n) : t.isOperator op = false := by
  unfold isOperator
  split
  · rw [lowerStatement] at h
    · cases h
    · simp
  · rfl

/-- Tokens whose delimiters pair up are read as a program if what they are grouped into becomes one
tree and that is a statement. -/
theorem lower_of_builds {tokens : List Token} (hpaired : Paired [] (tokens.map Token.lexeme))
    (h : ∀ ts : List Token, ts.map Token.lexeme = tokens.map Token.lexeme →
      ∃ forest t n, Builds ts forest ∧ runPasses forest = .ok [t] ∧ lowerStatement t = .ok n) :
    ∃ groups forest p, foldGroups tokens = .ok groups ∧ reduce groups = .ok forest ∧
      lower forest = .ok p := by
  obtain ⟨levelled, hlevels⟩ := levelsFrom_of_paired [] 0 0 hpaired
  -- grouping is about tokens that know their levels, with the same lexemes
  obtain ⟨forest, t, n, ⟨raw, hraw, hreduce⟩, hpasses, hn⟩ :=
    h levelled (paired_of_levelsFrom hlevels).2
  have hgroup : group levelled = raw := by
    rw [group, hraw, Nest.empty]
    simp
  refine ⟨raw, [t], ⟨[n], t.loc⟩, ?_, ?_, ?_⟩
  · rw [foldGroups, assignLevels, hlevels, ← hgroup]
    rfl
  · rw [reduce, hreduce]
    exact hpasses
  · rw [lower, lowerStatements, isOperator_of_lowerStatement .semicolon hn, hn]
    rfl

/-- The tokens of a phrase are read as a program. -/
theorem lower_of_phrase {tokens : List Token} (h : Phrase false (tokens.map Token.lexeme)) :
    ∃ groups forest p, foldGroups tokens = .ok groups ∧ reduce groups = .ok forest ∧
      lower forest = .ok p := by
  have hpaired : Paired [] (tokens.map Token.lexeme) := by
    have hall := h.paired .nil
    rwa [List.append_nil] at hall
  refine lower_of_builds hpaired fun ts hts => ?_
  obtain ⟨forest, hbuilds, hrow⟩ := h.builds hts
  obtain ⟨us, hpasses, hdone⟩ := runPasses_row hrow
  -- the one tree that is left at the outermost depth is the only statement
  obtain ⟨t, rfl, hlevel, n, hn⟩ := hdone.single
  exact ⟨forest, t, n, hbuilds, hpasses, lowerStatement_of_lowerExpr hlevel hn⟩

end Scriptlet
