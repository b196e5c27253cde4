import Scriptlet.Parser.Grammar
import Scriptlet.Proofs.Derivation
import Scriptlet.Proofs.Reading

/-!
# The grammar reads every derivable expression

A derivation of level `k` is read by the parser of that level, wherever what follows cannot continue
an expression of the level, and the node it yields is the derived one up to places. The choices of
the grammar are prioritised and its loops are greedy, so the point is that no earlier choice and no
loop takes a symbol that belongs to something else.

Unfoldings of recursive rules are counted: twice the number of symbols and two more are enough.

## Contents

- §1 operators and their levels
- §2 what can begin and what can continue an expression
- §3 lists in parentheses
- §4 the parsers of the levels
- §5 where no expression begins
- §6 derivable expressions are read
-/

namespace Scriptlet

/-! ## §1 Operators and their levels -/

namespace BinaryOp

/-- An operator with a level is found by its sign. -/
theorem ofSymbol?_symbol {op : BinaryOp} (h : 1 < op.level) : ofSymbol? op.symbol = some op := by
  cases op <;> first | rfl | (simp [level] at h)

theorem symbol_mem_signsAt {op : BinaryOp} (h : 2 < op.level) :
    op.symbol ∈ signsAt op.level := by
  cases op <;> first | decide | (simp [level] at h)

/-- The signs of a level are signs of operators of that level. -/
theorem exists_of_mem_signsAt {k : Nat} {t : Text} (h : t ∈ signsAt k) :
    ∃ op ∈ all, op.symbol = t ∧ op.level = k ∧ 2 < op.level := by
  revert t
  match k with
  | 0 | 1 | 2 => decide
  | 3 | 4 | 5 | 6 | 7 => decide
  | k + 8 => intro t h; cases h

end BinaryOp

/-! ## §2 What can begin and what can continue an expression -/

/-- The symbol can be the first of an expression. -/
def Symbol.opens : Symbol → Bool
  | .word t => !isReserved t
  | .number _ | .string _ => true
  | .mark t => (["(", "!", "-", "+"] : List Text).contains t
  | .ending => false

/-- The first symbol of the list, if any, can not be the first of an expression. -/
def NoExpression (rest : List Symbol) : Prop := ∀ x, rest.head? = some x → x.opens = false

/-- The symbols cannot continue an expression of the level: they start with no operator that binds
as tightly and with no arguments. -/
def Stops (k : Nat) (rest : List Symbol) : Prop :=
  ∀ t, rest.head? = some (.mark t) →
    t ≠ "(" ∧ ∀ op : BinaryOp, op.symbol = t → 1 < op.level → k < op.level

theorem Stops.mono {k l : Nat} {rest : List Symbol} (h : Stops l rest) (hkl : k ≤ l) :
    Stops k rest :=
  fun t ht => ⟨(h t ht).1, fun op hop hlevel => Nat.lt_of_le_of_lt hkl ((h t ht).2 op hop hlevel)⟩

/-- An operator does not continue what binds more tightly. -/
theorem Stops.operator {k : Nat} {op : BinaryOp} {rest : List Symbol} (hop : 1 < op.level)
    (hk : k < op.level) : Stops k (.mark op.symbol :: rest) := by
  intro t ht
  obtain rfl : op.symbol = t := by simpa using ht
  refine ⟨?_, fun op' hop' hlevel => ?_⟩
  · cases op <;> first | decide | (simp [BinaryOp.level] at hop)
  · have hsame : some op' = some op := by
      rw [← BinaryOp.ofSymbol?_symbol hlevel, ← BinaryOp.ofSymbol?_symbol hop, hop']
    rw [Option.some.inj hsame]
    exact hk

/-- Marks that are neither operators between operands nor opening parentheses continue nothing. -/
theorem Stops.mark {k : Nat} {t : Text} {rest : List Symbol} (hopen : t ≠ "(")
    (hop : BinaryOp.ofSymbol? t = none) : Stops k (.mark t :: rest) := by
  intro u hu
  obtain rfl : t = u := by simpa using hu
  refine ⟨hopen, fun op hsym hlevel => ?_⟩
  have hsome := BinaryOp.ofSymbol?_symbol hlevel
  rw [hsym, hop] at hsome
  cases hsome

theorem Stops.nil {k : Nat} : Stops k [] := fun _ h => by cases h

namespace Derives

variable {k : Nat} {xs : List Symbol} {n : Node}

/-- An expression has a first symbol, and it is one that can open expressions. -/
theorem head_opens (h : Derives k xs n) : ∃ x more, xs = x :: more ∧ x.opens = true := by
  -- powers and chains begin as their first operand does, all else with a symbol of its own
  induction h with
  | number text _ => exact ⟨_, _, rfl, rfl⟩
  | string v => exact ⟨_, _, rfl, rfl⟩
  | name t h => exact ⟨_, _, rfl, by simp [Symbol.opens, h]⟩
  | call t args h _ _ => exact ⟨_, _, rfl, by simp [Symbol.opens, h]⟩
  | group xs n _ _ => exact ⟨_, _, rfl, by decide⟩
  | atom xs n _ ih => exact ih
  | leading op sign xs n _ _ =>
    refine ⟨_, _, rfl, ?_⟩
    rcases sign with rfl | rfl <;> decide
  | plus xs n _ _ => exact ⟨_, _, rfl, by decide⟩
  | base xs n _ ih => exact ih
  | raised xs ys m n _ _ ih _ =>
    obtain ⟨x, more, rfl, hx⟩ := ih
    exact ⟨x, _, rfl, hx⟩
  | chain k xs n links _ _ _ ih _ =>
    obtain ⟨x, more, rfl, hx⟩ := ih
    exact ⟨x, _, rfl, hx⟩

theorem ne_nil (h : Derives k xs n) : xs ≠ [] := by
  obtain ⟨x, more, rfl, _⟩ := h.head_opens
  simp

end Derives

/-! ## §3 Lists in parentheses -/

/-- A comma goes before every part but the first. -/
theorem commas_cons (xs : List Symbol) (rest : List (List Symbol)) :
    commas (xs :: rest) = xs ++ rest.flatMap fun ys => .mark "," :: ys := by
  induction rest generalizing xs with
  | nil => simp [commas]
  | cons ys rest ih => rw [commas, ih ys, List.flatMap_cons, List.cons_append]; simp

/-- What holds of the parts and of the comma holds of the whole. -/
theorem forall_mem_commas {P : Symbol → Prop} {parts : List (List Symbol)}
    (hcomma : P (.mark ",")) (h : ∀ xs ∈ parts, ∀ x ∈ xs, P x) : ∀ x ∈ commas parts, P x := by
  -- a symbol stands in the first part, is a comma, or stands in a later part
  cases parts with
  | nil => simp [commas]
  | cons xs rest =>
    obtain ⟨hxs, hrest⟩ := List.forall_mem_cons.mp h
    rw [commas_cons]
    refine List.forall_mem_append.mpr ⟨hxs, fun x hx => ?_⟩
    obtain ⟨ys, hys, hx⟩ := List.mem_flatMap.mp hx
    rcases List.mem_cons.mp hx with rfl | hx
    · exact hcomma
    · exact hrest ys hys x hx

/-- What holds of the two ends and of everything between holds of the whole. -/
theorem forall_mem_between {P : Symbol → Prop} {a b : Symbol} {xs : List Symbol} (ha : P a)
    (hb : P b) (h : ∀ x ∈ xs, P x) : ∀ x ∈ a :: (xs ++ [b]), P x := by
  refine List.forall_mem_cons.mpr ⟨ha, List.forall_mem_append.mpr ⟨h, ?_⟩⟩
  exact List.forall_mem_singleton.mpr hb

theorem length_le_commas {xs : List Symbol} {parts : List (List Symbol)} (h : xs ∈ parts) :
    xs.length ≤ (commas parts).length := by
  -- the part is the first one, or lies behind the first comma
  induction parts with
  | nil => cases h
  | cons ys parts ih =>
    rw [commas_cons, List.length_append]
    rcases List.mem_cons.mp h with rfl | hmem
    · omega
    · cases parts with
      | nil => cases hmem
      | cons zs parts =>
        have := ih hmem
        rw [commas_cons, List.length_append] at this
        simp only [List.flatMap_cons, List.cons_append, List.length_cons, List.length_append]
        omega

namespace Parser

variable {α β : Type} {s : Stream} {xs rest : List Symbol}

theorem head_ne_mark {t u : Text} (h : t ≠ u) :
    (Symbol.mark t :: rest).head? ≠ some (.mark u) := by
  simpa using h

theorem between_takes {p : Parser α} {opening closing : Text} {Q : α → Prop}
    (hp : Takes s p xs (.mark closing :: rest) Q) :
    Takes s (between opening p closing) (.mark opening :: (xs ++ [Symbol.mark closing])) rest
      Q := by
  refine (punct_takes opening).cons fun _ _ => ?_
  rw [← List.singleton_append] at hp
  exact Takes.bind hp fun a ha => (punct_takes closing).map fun _ _ => ha

theorem between_rejects {p : Parser α} {opening closing : Text}
    (h : rest.head? ≠ some (.mark opening)) : Rejects s (between opening p closing) rest :=
  (punct_rejects h).bind

/-- The further items of a list, each behind a comma. -/
private theorem items_repeat {item : Parser α} {v : α → β} {args : List (List Symbol × β)}
    (rest : List Symbol) (hitem : ∀ a ∈ args, ∀ t rest, t = ("," : Text) ∨ t = ")" →
      Takes s item a.1 (.mark t :: rest) (v · = a.2)) :
    Repeats s (do let _ ← punct ","; item) (args.flatMap fun a => .mark "," :: a.1)
      (.mark ")" :: rest) (·.map v = args.map Prod.snd) := by
  induction args with
  | nil => exact Repeats.stop (punct_rejects (head_ne_mark (by decide))).bind rfl
  | cons a args ih =>
    have hmore := ih fun b hb => hitem b (List.mem_cons_of_mem _ hb)
    -- behind an item stands the next comma or the end of the list
    have hone : Takes s (do let _ ← punct ","; item) (.mark "," :: a.1)
        ((args.flatMap fun a => .mark "," :: a.1) ++ .mark ")" :: rest) (v · = a.2) := by
      refine (punct_takes ",").cons fun _ _ => ?_
      cases args with
      | nil => exact hitem a (by simp) _ _ (.inr rfl)
      | cons b args => exact hitem a (by simp) _ _ (.inl rfl)
    rw [List.flatMap_cons]
    refine Repeats.round (by simp) hone fun x hx => hmore.imp fun as has => ?_
    simp only [List.map_cons, hx, has]

/-- Items with commas between them up to a closing parenthesis. -/
theorem commaList_takes {item : Parser α} {v : α → β} {args : List (List Symbol × β)}
    (hnone : Rejects s item (.mark ")" :: rest))
    (hitem : ∀ a ∈ args, ∀ t rest, t = ("," : Text) ∨ t = ")" →
      Takes s item a.1 (.mark t :: rest) (v · = a.2)) :
    Takes s (commaList item) (commas (args.map Prod.fst)) (.mark ")" :: rest)
      (·.map v = args.map Prod.snd) := by
  cases args with
  | nil => exact Takes.default hnone.bind rfl
  | cons a args =>
    have hmore := items_repeat rest fun b hb => hitem b (List.mem_cons_of_mem _ hb)
    have hfirst : Takes s item a.1
        ((args.flatMap fun a => .mark "," :: a.1) ++ .mark ")" :: rest) (v · = a.2) := by
      cases args with
      | nil => exact hitem a (by simp) _ _ (.inr rfl)
      | cons b args => exact hitem a (by simp) _ _ (.inl rfl)
    -- the list is read as its first item and the repetition of a comma with an item
    rw [List.map_cons, commas_cons, List.flatMap_map]
    refine Takes.present (hfirst.bind fun x hx => hmore.takes.map fun as has => ?_)
    simp [hx, has]

end Parser

namespace Grammar

open Scriptlet.Parser

variable {s : Stream} {k f : Nat} {xs rest : List Symbol} {n : Node} {links : List Link}

/-! ## §4 The parsers of the levels -/

/-- The parser of a level over parsers for the recursive rules. -/
def levelParser (rules : Rules) : Nat → Parser Node
  | 0 => atom rules
  | 1 => rules .unary
  | 2 => rules .power
  | k + 3 => leftChain (levelParser rules (k + 2)) (signsAt (k + 3))

/-- Expressions are read by the parser of the loosest level. -/
theorem unfold_expression (f : Nat) : unfold (f + 1) .expression = levelParser (unfold f) 7 := rfl

/-- What a sign and the operand behind it stand for, as they are read in a chain. -/
def linkOf (read : Terminal × Node) : BinaryOp × Node := (operationOf read.1, read.2.cleared)

/-- A chain of the links that were derived is built like the derived one. -/
private theorem cleared_foldl {reads : List (Terminal × Node)} {first : Node}
    (h : reads.map linkOf = links.map fun l => (l.op, l.node)) (hfirst : first.cleared = n) :
    (reads.foldl (fun left (op, right) => Node.binary (operationOf op) left right op.loc)
      first).cleared = links.foldl Link.join n := by
  -- link by link: the tree built so far is the one that the links so far derive
  induction links generalizing reads first n with
  | nil =>
    obtain rfl : reads = [] := by simpa using h
    exact hfirst
  | cons l links ih =>
    match reads, h with
    | (op, right) :: reads, h =>
      simp only [List.map_cons, linkOf, List.cons.injEq, Prod.mk.injEq] at h
      obtain ⟨⟨hop, hright⟩, hmore⟩ := h
      rw [List.foldl_cons, List.foldl_cons]
      refine ih hmore ?_
      simp only [Node.cleared, hfirst, hop, hright, Link.join]

private theorem length_le_flatMap {l : Link} (hl : l ∈ links) :
    l.symbols.length ≤ (links.flatMap Link.spelled).length := by
  obtain ⟨before, behind, rfl⟩ := List.append_of_mem hl
  simp only [List.flatMap_append, List.flatMap_cons, Link.spelled, List.length_append,
    List.length_cons]
  omega

/-- What follows an operand of a chain does not continue it. -/
private theorem stops_links (hops : ∀ l ∈ links, l.op.level = k + 3) (hrest : Stops (k + 3) rest) :
    Stops (k + 2) (links.flatMap Link.spelled ++ rest) := by
  cases links with
  | nil => exact hrest.mono (by omega)
  | cons l links =>
    have hl := hops l (by simp)
    exact Stops.operator (by omega) (by omega)

private theorem links_repeat {operand : Parser Node} (hops : ∀ l ∈ links, l.op.level = k + 3)
    (hlinks : ∀ l ∈ links, ∀ rest, Stops (k + 2) rest →
      Takes s operand l.symbols rest (·.cleared = l.node))
    (hrest : Stops (k + 3) rest) :
    Repeats s (do
      let op ← firstOf ((signsAt (k + 3)).map punct)
      let right ← operand
      return (op, right)) (links.flatMap Link.spelled) rest
      (·.map linkOf = links.map fun l => (l.op, l.node)) := by
  induction links with
  | nil =>
    -- a sign of the level right behind the chain would contradict `Stops`
    refine Repeats.stop (signs_reject fun t ht hhead => ?_).bind rfl
    obtain ⟨op, _, hop, hlevel, _⟩ := BinaryOp.exists_of_mem_signsAt ht
    have := (hrest t hhead).2 op hop (by omega)
    omega
  | cons l links ih =>
    have hl := hops l (by simp)
    have hops' : ∀ m ∈ links, m.op.level = k + 3 := fun m hm =>
      hops m (List.mem_cons_of_mem _ hm)
    have hmore := ih hops' fun m hm => hlinks m (List.mem_cons_of_mem _ hm)
    have hsign : l.op.symbol ∈ signsAt (k + 3) := hl ▸ BinaryOp.symbol_mem_signsAt (by omega)
    -- the operand ends where the next sign of the level stands, since that sign is looser
    have hone : Takes s (do
        let op ← firstOf ((signsAt (k + 3)).map punct)
        let right ← operand
        return (op, right)) l.spelled (links.flatMap Link.spelled ++ rest)
        (linkOf · = (l.op, l.node)) := by
      refine (signs_take hsign).cons fun op hop => ?_
      refine (hlinks l (by simp) _ (stops_links hops' hrest)).map fun right hright => ?_
      have hlevel : 1 < l.op.level := by omega
      simp only [linkOf, operationOf, hop, BinaryOp.ofSymbol?_symbol hlevel, hright,
        Option.getD_some]
    rw [List.flatMap_cons]
    refine Repeats.round (by simp [Link.spelled]) hone fun x hx => hmore.imp fun as has => ?_
    simp only [List.map_cons, hx, has]

/-- A chain is read to its end: each operand ends where an operator of the level stands, and the
last one where none does. -/
theorem leftChain_takes {operand : Parser Node} (hops : ∀ l ∈ links, l.op.level = k + 3)
    (hfirst : ∀ rest, Stops (k + 2) rest → Takes s operand xs rest (·.cleared = n))
    (hlinks : ∀ l ∈ links, ∀ rest, Stops (k + 2) rest →
      Takes s operand l.symbols rest (·.cleared = l.node))
    (hrest : Stops (k + 3) rest) :
    Takes s (leftChain operand (signsAt (k + 3))) (xs ++ links.flatMap Link.spelled) rest
      (·.cleared = links.foldl Link.join n) :=
  (hfirst _ (stops_links hops hrest)).bind fun _ hx =>
    (links_repeat hops hlinks hrest).takes.map fun _ has => cleared_foldl has hx

/-! ## §5 Where no expression begins -/

theorem ident_rejects_of_noExpression (h : NoExpression rest) : Rejects s ident rest :=
  ident_rejects fun t ht => by simpa [Symbol.opens] using h _ ht

theorem punct_rejects_of_noExpression {t : Text} (h : NoExpression rest)
    (ht : (Symbol.mark t).opens = true) : Rejects s (punct t) rest :=
  punct_rejects fun hhead => by simp [h _ hhead] at ht

private theorem atom_rejects (rules : Rules) (h : NoExpression rest) :
    Rejects s (atom rules) rest := by
  have hname := ident_rejects_of_noExpression (s := s) h
  refine .both hname.bind (.both hname.bind (.both ?_ (.both ?_ (.both ?_ .none))))
  · exact (number_rejects fun t ht => by simpa [Symbol.opens] using h _ ht).bind
  · exact (string_rejects fun v hv => by simpa [Symbol.opens] using h _ hv).bind
  · exact (punct_rejects_of_noExpression h (by decide)).bind

private theorem unary_rejects (rules : Rules) (h : NoExpression rest) :
    Rejects s (unary rules) rest := by
  have hsign : ∀ t : Text, (Symbol.mark t).opens = true → Rejects s (punct t) rest :=
    fun t ht => punct_rejects_of_noExpression h ht
  refine .both (hsign "!" (by decide)).bind (.both (hsign "-" (by decide)).bind ?_)
  exact .both (hsign "+" (by decide)).bind (.both (atom_rejects rules h) .none)

/-- Where no expression begins every level fails, given unfoldings enough to find out. -/
theorem levelParser_rejects (h : NoExpression rest) (hf : min k 2 ≤ f) :
    Rejects s (levelParser (unfold f) k) rest := by
  induction k using levelParser.induct with
  | case1 => exact atom_rejects _ h
  | case2 =>
    obtain ⟨f, rfl⟩ : ∃ g, f = g + 1 := ⟨f - 1, by omega⟩
    exact unary_rejects _ h
  | case3 =>
    obtain ⟨f, rfl⟩ : ∃ g, f = g + 2 := ⟨f - 2, by omega⟩
    exact (unary_rejects (unfold f) h).bind
  | case4 k ih => exact (ih (by omega)).bind

theorem expression_rejects (h : NoExpression rest) (hf : 2 < f) :
    Rejects s (unfold f .expression) rest := by
  obtain ⟨f, rfl⟩ : ∃ g, f = g + 1 := ⟨f - 1, by omega⟩
  rw [unfold_expression]
  exact levelParser_rejects h (by omega)

/-! ## §6 Derivable expressions are read -/

/-- A name in front of what are no arguments is no call. -/
private theorem call_rejects {t : Text} (rules : Rules) (ht : isReserved t = false)
    (hrest : Stops k rest) : Rejects s (call rules) (.word t :: rest) :=
  (ident_takes ht).cons_rejects fun _ _ =>
    (between_rejects fun hhead => (hrest _ hhead).1 rfl).bind

/-- An atom that does not start with a name is looked for among the last alternatives. -/
private theorem atom_takes_of_not_word {rules : Rules} {x : Symbol}
    (hx : ∀ t, x ≠ .word t)
    (h : Takes s (firstOf [number, string, between "(" (rules .expression) ")"]) (x :: xs) rest
      (·.cleared = n)) :
    Takes s (atom rules) (x :: xs) rest (·.cleared = n) := by
  have hname : Rejects s ident (x :: xs ++ rest) :=
    ident_rejects fun t ht => absurd (by simpa using ht) (hx t)
  exact .tail hname.bind (.tail hname.bind h)

/-- An atom starts with no sign. -/
private theorem Derives.atom_head (h : Derives 0 xs n) :
    ∃ x more, xs = x :: more ∧ ∀ t ∈ (["!", "-", "+"] : List Text), x ≠ .mark t := by
  cases h with
  | group => exact ⟨_, _, rfl, by decide⟩
  | _ => exact ⟨_, _, rfl, by simp⟩

/-- What is not written with a sign before it is read as an atom. -/
private theorem unary_takes_of_atom {rules : Rules} (hd : Derives 0 xs n)
    (h : Takes s (atom rules) xs rest (·.cleared = n)) :
    Takes s (unary rules) xs rest (·.cleared = n) := by
  obtain ⟨x, more, rfl, hsign⟩ := Derives.atom_head hd
  have hno : ∀ t ∈ (["!", "-", "+"] : List Text), Rejects s (punct t) (x :: more ++ rest) :=
    fun t ht => punct_rejects (by simpa using hsign t ht)
  refine .tail (hno "!" (by simp)).bind (.tail (hno "-" (by simp)).bind ?_)
  exact .tail (hno "+" (by simp)).bind h.head

private theorem leadingOp_takes {rules : Rules} (op : UnaryOp)
    (h : Takes s (rules .unary) xs rest (·.cleared = n)) :
    Takes s (leadingOp rules op.symbol op) (.mark op.symbol :: xs) rest
      (·.cleared = .unary op n .nowhere) :=
  (punct_takes op.symbol).cons fun _ _ => h.map fun _ hx => by rw [Node.cleared, hx]

/-- A derivable expression is read by the parser of its level where what follows does not
continue it. -/
theorem levelParser_takes (h : Derives k xs n) (hf : 2 * xs.length + min k 2 ≤ f)
    (hrest : Stops k rest) : Takes s (levelParser (unfold f) k) xs rest (·.cleared = n) := by
  -- by induction on the derivation: each rule is read by the alternative it names, after the
  -- alternatives before it have failed; `f` pays two unfoldings for every symbol
  induction h generalizing f rest with
  | number text _ =>
    exact atom_takes_of_not_word (by simp) (.head ((number_takes text).map fun t ht => by
      rw [Node.cleared, ht, numeralValue]))
  | string v =>
    have hno : Rejects s (token (some .number) "number") ([.string v] ++ rest) :=
      number_rejects (by simp)
    refine atom_takes_of_not_word (by simp) (.tail hno.bind (.head ?_))
    exact (string_takes v).map fun t ht => by rw [Node.cleared, ht]
  | name t ht =>
    -- a call is tried before a name, and what follows opens no parenthesis
    refine .tail (call_rejects _ ht hrest) (.head ((ident_takes ht).map fun x hx => ?_))
    rw [Node.cleared, hx]
  | call t args ht hargs ih =>
    obtain ⟨f, rfl⟩ : ∃ g, f = g + 3 := ⟨f - 3, by simp at hf; omega⟩
    refine .head ((ident_takes ht).cons fun x hx => Takes.map (between_takes
      (commaList_takes (v := Node.cleared) ?_ ?_)) fun ns hns => ?_)
    -- without arguments the closing parenthesis stands where one would begin
    · exact expression_rejects (by intro x hx; cases hx; decide) (by omega)
    · intro a ha u rest hu
      have hlen := length_le_commas (List.mem_map_of_mem (f := Prod.fst) ha)
      simp only [List.length_cons, List.length_append] at hf
      refine ih a ha (by omega) ?_
      rcases hu with rfl | rfl <;> exact Stops.mark (by decide) rfl
    · rw [Node.cleared_ofCall, hx, hns]
  | group xs n h ih =>
    obtain ⟨f, rfl⟩ : ∃ g, f = g + 3 := ⟨f - 3, by simp at hf; omega⟩
    simp only [List.length_cons, List.length_append] at hf
    refine atom_takes_of_not_word (by simp) (.tail ?_ (.tail ?_ (.head (between_takes ?_))))
    · exact (number_rejects (by simp)).bind
    · exact (string_rejects (by simp)).bind
    · exact ih (by omega) (Stops.mark (by decide) rfl)
  | atom xs n h ih =>
    obtain ⟨f, rfl⟩ : ∃ g, f = g + 1 := ⟨f - 1, by omega⟩
    exact unary_takes_of_atom h (ih (by omega) (hrest.mono (by omega)))
  | leading op sign xs n _ ih =>
    obtain ⟨f, rfl⟩ : ∃ g, f = g + 1 := ⟨f - 1, by omega⟩
    rw [List.length_cons] at hf
    have hop := leadingOp_takes op (ih (f := f) (by omega) hrest)
    rcases sign with rfl | rfl
    · exact .head hop
    · exact .tail (punct_rejects (head_ne_mark (by decide))).bind (.head hop)
  | plus xs n _ ih =>
    obtain ⟨f, rfl⟩ : ∃ g, f = g + 1 := ⟨f - 1, by omega⟩
    rw [List.length_cons] at hf
    refine .tail ?_ (.tail ?_ (.head ?_))
    · exact (punct_rejects (head_ne_mark (by decide))).bind
    · exact (punct_rejects (head_ne_mark (by decide))).bind
    · exact (punct_takes "+").cons fun _ _ => ih (f := f) (by omega) hrest
  | base xs n _ ih =>
    obtain ⟨f, rfl⟩ : ∃ g, f = g + 1 := ⟨f - 1, by omega⟩
    -- a power sign behind the base would have been part of it
    have hnot : rest.head? ≠ some (.mark "**") := fun hhead =>
      absurd ((hrest _ hhead).2 .power rfl (by decide)) (by decide)
    have hbase := ih (f := f) (by omega) (hrest.mono (by omega))
    rw [← List.append_nil xs]
    exact Takes.bind hbase fun x hx => Takes.default (punct_rejects hnot).bind hx
  | raised xs ys m n _ _ ihx ihy =>
    obtain ⟨f, rfl⟩ : ∃ g, f = g + 1 := ⟨f - 1, by omega⟩
    simp only [List.length_append, List.length_cons] at hf
    -- the base ends before the power sign, and the exponent is a power again
    have hsign : Stops 1 (.mark BinaryOp.power.symbol :: (ys ++ rest)) :=
      Stops.operator (by decide) (by decide)
    refine Takes.bind (ihx (f := f) (by omega) hsign) fun x hx => Takes.present ?_
    refine (punct_takes "**").cons fun _ _ => (ihy (f := f) (by omega) hrest).map fun y hy => ?_
    rw [Node.cleared, hx, hy]
  | chain k xs n links _ hops _ ihx ihl =>
    rw [List.length_append] at hf
    refine leftChain_takes hops (fun rest hr => ihx (by omega) hr) (fun l hl rest hr => ?_) hrest
    have hlen := length_le_flatMap hl
    exact ihl l hl (by omega) hr

/-- A derivable expression is read where no operator follows. -/
theorem expression_takes (h : Derives 7 xs n) (hf : 2 * xs.length + 3 ≤ f) (hrest : Stops 7 rest) :
    Takes s (unfold f .expression) xs rest (·.cleared = n) := by
  obtain ⟨f, rfl⟩ : ∃ g, f = g + 1 := ⟨f - 1, by omega⟩
  rw [unfold_expression]
  exact levelParser_takes h (by omega) hrest

end Grammar

end Scriptlet
