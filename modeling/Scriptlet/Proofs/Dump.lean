import Scriptlet.Program.Sexpr
import Scriptlet.Proofs.Numerals
import Scriptlet.Proofs.Rendering
import Scriptlet.Proofs.Unambiguous
import Scriptlet.Proofs.WellFormed

/-!
# Dumps of programs can be read back

The s-expression of a node shows its kind by the head of the list, and what is optional by the
number of items: one operand or two of an operator, a return with or without a value, a choice with
or without a second branch. So the node can be read back from its dump, places apart.

Not every tree can be read back: a part that is missing is shown like a variable `nil`. The nodes
that can are called *legible*.

## Contents

- §1 nodes as s-expressions
- §2 legible nodes
- §3 the text of a dump
- §4 reading back
-/

namespace Scriptlet

/-! ## §1 Nodes as s-expressions -/

/-- The words at the head of a list. -/
inductive Tag where
  | call | giveBack | block | choice | loop | declare | assign | function | main | assert
  deriving DecidableEq

namespace Tag

/-- All words. -/
def all : List Tag :=
  [.call, .giveBack, .block, .choice, .loop, .declare, .assign, .function, .main, .assert]

/-- The characters of a word. -/
def chars : Tag → List Char
  | .call => ['c', 'a', 'l', 'l']
  | .giveBack => ['r', 'e', 't', 'u', 'r', 'n']
  | .block => ['b', 'l', 'o', 'c', 'k']
  | .choice => ['i', 'f']
  | .loop => ['w', 'h', 'i', 'l', 'e']
  | .declare => ['v', 'a', 'r']
  | .assign => ['s', 'e', 't']
  | .function => ['f', 'u', 'n', 'c', 't', 'i', 'o', 'n']
  | .main => ['m', 'a', 'i', 'n']
  | .assert => ['a', 's', 's', 'e', 'r', 't']

/-- The word of some characters. -/
def ofChars? (cs : List Char) : Option Tag := all.find? fun h => h.chars == cs

/-- Tags are read back from their names. -/
theorem ofChars?_chars (h : Tag) : ofChars? h.chars = some h := by
  cases h <;> decide

end Tag

/-- A list with a word at its head. -/
def SExpr.form (h : Tag) (items : List SExpr) : SExpr := .list (.bare h.chars :: items)

namespace Node

mutual

/-- The node as an s-expression. -/
def tree : Node → SExpr
  | .missing => .bare ['n', 'i', 'l']
  | .number v _ => .bare (Decimal.chars v)
  | .string v _ => .text v
  | .ident n _ => .bare n.chars
  | .unary op x _ => .list [.bare op.symbol.chars, x.tree]
  | .binary op x y _ => .list [.bare op.symbol.chars, x.tree, y.tree]
  | .call f args _ => .form .call (.bare f.chars :: trees args)
  | .giveBack x _ => .form .giveBack (if x.isMissing then [] else [x.tree])
  | .block ss _ => .form .block (trees ss)
  | .choice c x y _ => .form .choice (c.tree :: x.tree :: if y.isMissing then [] else [y.tree])
  | .loop c x _ => .form .loop [c.tree, x.tree]
  | .declare n x _ => .form .declare [.bare n.chars, x.tree]
  | .assign n x _ => .form .assign [.bare n.chars, x.tree]
  | .function n ps ss _ _ =>
    .form .function [.bare n.chars, .list (ps.map fun p => .bare p.chars), .form .block (trees ss)]
  | .prototype n ps _ =>
    .form .function [.bare n.chars, .list (ps.map fun p => .bare p.chars), .bare ['n', 'i', 'l']]
  | .main ss _ => .form .main (trees ss)
  | .assert c _ => .form .assert [c.tree]

/-- The nodes as s-expressions. -/
def trees : List Node → List SExpr
  | [] => []
  | x :: xs => x.tree :: trees xs

end

theorem trees_eq_map (xs : List Node) : trees xs = xs.map tree := by
  induction xs with
  | nil => rfl
  | cons x xs ih => rw [trees, ih, List.map_cons]

theorem sexprs_eq_map (xs : List Node) : sexprs xs = xs.map sexpr := by
  induction xs with
  | nil => rfl
  | cons x xs ih => rw [sexprs, ih, List.map_cons]

/-! ## §2 Legible nodes -/

/-- The node can be read back from its s-expression: names are words, operators are known, numbers
are numbers, and nothing is missing but the value of a return and the second branch of a choice. -/
inductive Legible : Node → Prop where
  | number (v : Float) (loc : Location) (h : IsNumber v) : Legible (.number v loc)
  | string (v : Text) (loc : Location) : Legible (.string v loc)
  | ident (n : Text) (loc : Location) (h : (Symbol.word n).Writable) : Legible (.ident n loc)
  | unary (op : UnaryOp) (x : Node) (loc : Location) (hop : op = .not ∨ op = .negate)
      (h : Legible x) : Legible (.unary op x loc)
  | binary (op : BinaryOp) (x y : Node) (loc : Location) (hop : op ∈ BinaryOp.all)
      (hx : Legible x) (hy : Legible y) : Legible (.binary op x y loc)
  | call (f : Text) (args : List Node) (loc : Location) (hf : (Symbol.word f).Writable)
      (hargs : ∀ a ∈ args, Legible a) : Legible (.call f args loc)
  | giveNothing (loc : Location) : Legible (.giveBack .missing loc)
  | giveBack (x : Node) (loc : Location) (h : Legible x) : Legible (.giveBack x loc)
  | block (ss : List Node) (loc : Location) (h : ∀ s ∈ ss, Legible s) : Legible (.block ss loc)
  | choice (c x : Node) (loc : Location) (hc : Legible c) (hx : Legible x) :
      Legible (.choice c x .missing loc)
  | choiceElse (c x y : Node) (loc : Location) (hc : Legible c) (hx : Legible x)
      (hy : Legible y) : Legible (.choice c x y loc)
  | loop (c x : Node) (loc : Location) (hc : Legible c) (hx : Legible x) : Legible (.loop c x loc)
  | declare (n : Text) (x : Node) (loc : Location) (hn : (Symbol.word n).Writable)
      (hx : Legible x) : Legible (.declare n x loc)
  | assign (n : Text) (x : Node) (loc : Location) (hn : (Symbol.word n).Writable)
      (hx : Legible x) : Legible (.assign n x loc)
  | function (n : Text) (ps : List Text) (ss : List Node) (bodyLoc loc : Location)
      (hn : (Symbol.word n).Writable) (hps : ∀ p ∈ ps, (Symbol.word p).Writable)
      (hss : ∀ s ∈ ss, Legible s) : Legible (.function n ps ss bodyLoc loc)
  | main (ss : List Node) (loc : Location) (h : ∀ s ∈ ss, Legible s) : Legible (.main ss loc)
  | assert (c : Node) (loc : Location) (h : Legible c) : Legible (.assert c loc)

theorem Legible.isMissing {n : Node} (h : n.Legible) : n.isMissing = false := by
  cases h <;> rfl

/-- A call of legible arguments is legible, a check or not. -/
theorem Legible.ofCall {f : Text} {args : List Node} {loc : Location}
    (hf : (Symbol.word f).Writable) (hargs : ∀ a ∈ args, Legible a) :
    Legible (ofCall f args loc) := by
  unfold Node.ofCall
  split
  · next cond =>
    split
    · exact .assert _ _ (hargs cond (List.mem_singleton_self cond))
    · exact .call _ _ _ hf hargs
  · exact .call _ _ _ hf hargs

end Node

/-! ## §3 The text of a dump -/

/-- The text of an s-expression. -/
def SExpr.written (x : SExpr) : Text := Text.ofChars x.chars

/-- The words of a list stand with one space between them. -/
theorem SExpr.words_written (xs : List SExpr) :
    Text.words (xs.map written) = Text.ofChars (charsBehind xs).tail := by
  -- every item but the first is preceded by a space
  have hbehind (x : SExpr) (xs : List SExpr) :
      Text.words ((x :: xs).map written) = x.written ++ Text.ofChars (charsBehind xs) := by
    induction xs generalizing x with
    | nil => exact (List.append_nil _).symm
    | cons y ys ih =>
      have hjoin : Text.words ((x :: y :: ys).map written)
          = x.written ++ " " ++ Text.words ((y :: ys).map written) := rfl
      rw [hjoin, ih, charsBehind, List.cons_append, Text.ofChars_cons, Text.ofChars_append,
        List.append_assoc]
      rfl
  cases xs with
  | nil => rfl
  | cons x xs =>
    rw [hbehind, charsBehind, List.cons_append, List.tail_cons, Text.ofChars_append]
    rfl

/-- A list is written with its words in parentheses. -/
theorem SExpr.list_written (xs : List SExpr) :
    "(" ++ Text.words (xs.map written) ++ ")" = (SExpr.list xs).written := by
  rw [words_written, written, chars, Text.ofChars_append, Text.ofChars_cons]
  rfl

/-- A space in the first word makes two words of it. -/
theorem Text.words_split (a b : Text) (rest : List Text) :
    words ((a ++ " " ++ b) :: rest) = words (a :: b :: rest) := by
  cases rest with
  | nil => rfl
  | cons c rest => simp [words, join]

namespace Node

/-- A list with its head is written like any other list. -/
theorem listText_written (head : Text) (xs : List SExpr) (hhead : Text.ofChars head.chars = head) :
    listText head (xs.map SExpr.written) = (SExpr.list (.bare head.chars :: xs)).written := by
  rw [← SExpr.list_written, List.map_cons]
  exact congrArg (fun t => "(" ++ Text.words (t :: xs.map SExpr.written) ++ ")") hhead.symm

/-- A form is a list under its tag. -/
theorem listText_form (h : Tag) (xs : List SExpr) :
    listText (Text.ofChars h.chars) (xs.map SExpr.written) = (SExpr.form h xs).written := by
  rw [listText_written _ _ (by rw [Text.chars_ofChars]), Text.chars_ofChars]
  rfl

/-- A name behind the word at the head is the first item. -/
theorem listText_named (h : Tag) {name : Text} (hname : (Symbol.word name).Writable)
    (xs : List SExpr) : listText (Text.ofChars h.chars ++ " " ++ name) (xs.map SExpr.written)
      = (SExpr.form h (.bare name.chars :: xs)).written := by
  have hwritten : (SExpr.bare name.chars).written = name := hname.ofChars_chars (.inl rfl)
  rw [← listText_form, List.map_cons, hwritten, listText, Text.words_split]
  rfl

/-- The dump of a list is that of its members, when theirs is. -/
theorem sexprs_written {xs : List Node} (h : ∀ x ∈ xs, x.sexpr = x.tree.written) :
    sexprs xs = (trees xs).map SExpr.written := by
  rw [sexprs_eq_map, trees_eq_map, List.map_map]
  exact List.map_congr_left h

/-- A return is dumped without a value when it has none. -/
theorem sexpr_giveBack (x : Node) (loc : Location) : (giveBack x loc).sexpr
    = listText "return" (if x.isMissing then [] else [x.sexpr]) := by
  cases x <;> rfl

/-- A choice is dumped without its other branch when that is missing. -/
theorem sexpr_choice (c x y : Node) (loc : Location) : (choice c x y loc).sexpr
    = listText "if" (c.sexpr :: x.sexpr :: if y.isMissing then [] else [y.sexpr]) := by
  cases y <;> rfl

/-- **The dump of a legible node** is the text of its s-expression. -/
theorem sexpr_eq {n : Node} (h : n.Legible) : n.sexpr = n.tree.written := by
  induction h with
  | number | string => rfl
  | ident n _ h => exact (h.ofChars_chars (.inl rfl)).symm
  | unary op x _ hop _ ih =>
    have hsymbol : Text.ofChars op.symbol.chars = op.symbol := by
      rcases hop with rfl | rfl <;> decide
    rw [sexpr, tree, ← listText_written _ _ hsymbol, ih]
    rfl
  | binary op x y _ hop _ _ ihx ihy =>
    have hsymbol : ∀ op ∈ BinaryOp.all, Text.ofChars op.symbol.chars = op.symbol := by decide
    rw [sexpr, tree, ← listText_written _ _ (hsymbol op hop), ihx, ihy]
    rfl
  | call f args _ hf _ ih =>
    -- head and name are one word of the dump and two items of the list
    rw [sexpr, tree, sexprs_written ih, ← listText_named .call hf]
    rfl
  | giveNothing => rfl
  | giveBack x _ h ih =>
    rw [sexpr_giveBack, tree, h.isMissing, if_neg (by decide), if_neg (by decide), ih,
      ← listText_form]
    rfl
  | block ss _ _ ih =>
    rw [sexpr, tree, sexprs_written ih, ← listText_form]
    rfl
  | choice c x _ _ _ ihc ihx =>
    rw [sexpr, tree, ihc, ihx, ← listText_form]
    rfl
  | choiceElse c x y _ _ _ hy ihc ihx ihy =>
    rw [sexpr_choice, tree, hy.isMissing, if_neg (by decide), if_neg (by decide), ihc, ihx, ihy,
      ← listText_form]
    rfl
  | loop c x _ _ _ ihc ihx =>
    rw [sexpr, tree, ihc, ihx, ← listText_form]
    rfl
  | declare n x _ hn _ ih =>
    rw [sexpr, tree, ih, ← listText_named .declare hn]
    rfl
  | assign n x _ hn _ ih =>
    rw [sexpr, tree, ih, ← listText_named .assign hn]
    rfl
  | function n ps ss _ _ hn hps _ ih =>
    have hwritten : (ps.map fun p => SExpr.bare p.chars).map SExpr.written = ps := by
      rw [List.map_map]
      exact (List.map_congr_left fun p hp => (hps p hp).ofChars_chars (.inl rfl)).trans ps.map_id
    have hparams : "(" ++ Text.words ps ++ ")"
        = (SExpr.list (ps.map fun p => .bare p.chars)).written := by
      rw [← SExpr.list_written, hwritten]
    have hbody : listText "block" (sexprs ss) = (SExpr.form .block (trees ss)).written := by
      rw [sexprs_written ih, ← listText_form]
      rfl
    rw [sexpr, tree, hparams, hbody, ← listText_named .function hn]
    rfl
  | main ss _ _ ih =>
    rw [sexpr, tree, sexprs_written ih, ← listText_form]
    rfl
  | assert c _ _ ih =>
    rw [sexpr, tree, ih, ← listText_form]
    rfl

/-- Names that can be written are plain words of the dump. -/
theorem plain_of_word {t : Text} (h : (Symbol.word t).Writable) : (SExpr.bare t.chars).Plain := by
  obtain ⟨w, ⟨c, more, rfl, hc, hmore⟩, rfl⟩ := h.isWord
  have hplain {d : Char} (hd : isWordChar d = true) : d ∉ SExpr.separators := by
    intro hmem
    simp only [SExpr.separators, List.mem_cons, List.not_mem_nil, or_false] at hmem
    rcases hmem with rfl | rfl | rfl | rfl <;> exact absurd hd (by decide)
  rw [Text.chars_ofChars]
  refine .bare _ (List.cons_ne_nil c more) (List.forall_mem_cons.mpr ⟨?_, ?_⟩)
  · exact hplain (by rw [isWordChar, hc, Bool.true_or])
  · exact fun d hd => hplain (hmore d hd)

/-- Numbers are plain words of the dump. -/
theorem plain_of_number {v : Float} (h : IsNumber v) : (SExpr.bare (Decimal.chars v)).Plain := by
  obtain ⟨c, cs, hcs, -⟩ := Decimal.exists_chars h
  refine .bare _ (by simp [hcs]) fun d hd hmem => ?_
  have hd := Decimal.mem_chars h hd
  simp only [SExpr.separators, List.mem_cons, List.not_mem_nil, or_false] at hmem
  rcases hmem with rfl | rfl | rfl | rfl <;> exact absurd hd (by decide)

/-- Whether characters are an atom can be computed. -/
theorem plain_of_all {cs : List Char}
    (h : (!cs.isEmpty && cs.all fun c => !SExpr.separators.contains c) = true) :
    (SExpr.bare cs).Plain := by
  rw [Bool.and_eq_true, List.all_eq_true] at h
  exact .bare _ (by simpa using h.1) fun c hc => by simpa using h.2 c hc

/-- A form of plain items is plain. -/
theorem plain_form {h : Tag} {items : List SExpr} (hitems : ∀ x ∈ items, x.Plain) :
    (SExpr.form h items).Plain := by
  refine .list _ (List.forall_mem_cons.mpr ⟨plain_of_all ?_, hitems⟩)
  cases h <;> decide

theorem plain_trees {xs : List Node} (h : ∀ x ∈ xs, x.tree.Plain) : ∀ x ∈ trees xs, x.Plain := by
  rw [trees_eq_map]
  exact List.forall_mem_map.mpr h

/-- The dump of a legible node is plain, so that it can be cut into its words again. -/
theorem plain_tree {n : Node} (h : n.Legible) : n.tree.Plain := by
  induction h with
  -- each node is an atom, or a list of what its parts are written as
  | number v _ h => exact plain_of_number h
  | string v => exact .text v
  | ident n _ h => exact plain_of_word h
  | unary op x _ hop _ ih =>
    have hsign : (SExpr.bare op.symbol.chars).Plain := by
      rcases hop with rfl | rfl <;> exact plain_of_all (by decide)
    exact .list _ (List.forall_mem_cons.mpr ⟨hsign, List.forall_mem_singleton.mpr ih⟩)
  | binary op x y _ hop _ _ ihx ihy =>
    have hsign : ∀ op ∈ BinaryOp.all, (!op.symbol.chars.isEmpty &&
      op.symbol.chars.all fun c => !SExpr.separators.contains c) = true := by decide
    refine .list _ (List.forall_mem_cons.mpr ⟨plain_of_all (hsign op hop), ?_⟩)
    exact List.forall_mem_cons.mpr ⟨ihx, List.forall_mem_singleton.mpr ihy⟩
  | call f args _ hf _ ih =>
    exact plain_form (List.forall_mem_cons.mpr ⟨plain_of_word hf, plain_trees ih⟩)
  | giveNothing => exact plain_form (List.forall_mem_nil _)
  | giveBack x _ h ih =>
    rw [tree, h.isMissing]
    exact plain_form (List.forall_mem_singleton.mpr ih)
  | block ss _ _ ih | main ss _ _ ih => exact plain_form (plain_trees ih)
  | choice c x _ _ _ ihc ihx | loop c x _ _ _ ihc ihx =>
    exact plain_form (List.forall_mem_cons.mpr ⟨ihc, List.forall_mem_singleton.mpr ihx⟩)
  | choiceElse c x y _ _ _ hy ihc ihx ihy =>
    rw [tree, hy.isMissing]
    refine plain_form (List.forall_mem_cons.mpr ⟨ihc, List.forall_mem_cons.mpr ⟨ihx, ?_⟩⟩)
    exact List.forall_mem_singleton.mpr ihy
  | declare n x _ hn _ ih | assign n x _ hn _ ih =>
    refine plain_form (List.forall_mem_cons.mpr ⟨plain_of_word hn, ?_⟩)
    exact List.forall_mem_singleton.mpr ih
  | function n ps ss _ _ hn hps _ ih =>
    have hparams : (SExpr.list (ps.map fun p => .bare p.chars)).Plain :=
      .list _ (List.forall_mem_map.mpr fun p hp => plain_of_word (hps p hp))
    refine plain_form (List.forall_mem_cons.mpr ⟨plain_of_word hn, ?_⟩)
    refine List.forall_mem_cons.mpr ⟨hparams, ?_⟩
    exact List.forall_mem_singleton.mpr (plain_form (plain_trees ih))
  | assert c _ _ ih => exact plain_form (List.forall_mem_singleton.mpr ih)

end Node

/-! ## §4 Reading back -/

namespace SExpr

/-- The name that an atom shows. -/
def name : SExpr → Text
  | .bare cs => Text.ofChars cs
  | _ => []

/-- The names in a list. -/
def names : SExpr → List Text
  | .list items => items.map name
  | _ => []

end SExpr

/-- The statements of a block. -/
def Node.stmts : Node → List Node
  | .block ss _ => ss
  | _ => []

/-- The node of a list with a word at its head, from the items behind it, as they are and as
nodes. -/
def Tag.node (h : Tag) (items : List SExpr) (parts : List Node) : Node :=
  let word := (items.headD (.bare [])).name
  let part (i : Nat) : Node := parts.getD i .missing
  match h with
  | .call => .call word parts.tail .nowhere
  | .giveBack => .giveBack (part 0) .nowhere
  | .block => .block parts .nowhere
  | .choice => .choice (part 0) (part 1) (part 2) .nowhere
  | .loop => .loop (part 0) (part 1) .nowhere
  | .declare => .declare word (part 1) .nowhere
  | .assign => .assign word (part 1) .nowhere
  | .function => .function word (items.getD 1 (.bare [])).names (part 2).stmts .nowhere .nowhere
  | .main => .main parts .nowhere
  | .assert => .assert (part 0) .nowhere

/-- The node of an operator and its operands. -/
def operation (symbol : Text) : List Node → Node
  | [x] => .unary ((UnaryOp.ofSymbol? symbol).getD .not) x .nowhere
  | [x, y] => .binary ((BinaryOp.ofSymbol? symbol).getD .add) x y .nowhere
  | _ => .missing

namespace SExpr

variable (numeral : List Char → Float)

mutual

/-- The node that an s-expression shows; `numeral` reads its numbers. -/
def node : SExpr → Node
  | .bare cs =>
    if cs.head?.any isWordStart then .ident (Text.ofChars cs) .nowhere
    else .number (numeral cs) .nowhere
  | .text t => .string t .nowhere
  | .list [] => .missing
  | .list (h :: items) =>
    match Tag.ofChars? h.name.chars with
    | some word => word.node items (nodes items)
    | none => operation h.name (nodes items)

/-- The nodes that s-expressions show. -/
def nodes : List SExpr → List Node
  | [] => []
  | x :: xs => x.node :: nodes xs

end

theorem nodes_eq_map (xs : List SExpr) : nodes numeral xs = xs.map (node numeral) := by
  induction xs with
  | nil => rfl
  | cons x xs ih => rw [nodes, ih, List.map_cons]

/-- A form is read back by its tag. -/
theorem node_form (h : Tag) (items : List SExpr) :
    (form h items).node numeral = h.node items (nodes numeral items) := by
  rw [form, node, name, Text.chars_ofChars, Tag.ofChars?_chars]

/-- A name is read back as itself. -/
theorem node_name {t : Text} (h : (Symbol.word t).Writable) :
    (SExpr.bare t.chars).node numeral = .ident t .nowhere := by
  obtain ⟨w, ⟨c, more, rfl, hc, -⟩, rfl⟩ := h.isWord
  rw [node, Text.chars_ofChars, List.head?_cons, Option.any_some, hc, if_pos rfl]

theorem name_bare {t : Text} (h : (Symbol.word t).Writable) : (SExpr.bare t.chars).name = t :=
  h.ofChars_chars (.inl rfl)

end SExpr

namespace Node

variable {numeral : List Char → Float}

/-- Members that are read back, are read back in a list. -/
theorem nodes_trees {xs : List Node} (h : ∀ x ∈ xs, x.tree.node numeral = x.cleared) :
    SExpr.nodes numeral (trees xs) = clearedAll xs := by
  rw [SExpr.nodes_eq_map, trees_eq_map, List.map_map, clearedAll_eq_map]
  exact List.map_congr_left h

/-- **A legible node can be read back** from its s-expression, places apart. -/
theorem node_tree (hnumeral : ∀ v, IsNumber v → numeral (Decimal.chars v) = v) {n : Node}
    (h : n.Legible) : n.tree.node numeral = n.cleared := by
  induction h with
  | number v _ h =>
    -- no number starts like a name, so the atom is read as a number
    obtain ⟨c, cs, hcs, hc⟩ := Decimal.exists_chars h
    have hstart : isWordStart c = false := by
      rcases hc with hdigit | rfl | rfl
      · refine Bool.eq_false_iff.mpr fun hs => ?_
        have hdigit : isDecimalDigit c = true := hdigit
        rw [not_digit_of_wordStart hs] at hdigit
        cases hdigit
      · decide
      · decide
    rw [tree, SExpr.node, hcs, List.head?_cons, Option.any_some, hstart, if_neg (by decide), ← hcs,
      hnumeral v h, cleared]
  | string v => rfl
  | ident n _ h => exact SExpr.node_name numeral h
  | unary op x _ hop _ ih =>
    rw [tree, SExpr.node, SExpr.nodes, SExpr.nodes, ih, cleared]
    rcases hop with rfl | rfl <;> rfl
  | binary op x y _ hop _ _ ihx ihy =>
    -- the sign of an operator is no word at the head, and it names the operator
    have hsymbols : ∀ op ∈ BinaryOp.all, (SExpr.bare op.symbol.chars).name = op.symbol ∧
      Tag.ofChars? op.symbol.chars = none ∧ BinaryOp.ofSymbol? op.symbol = some op := by decide
    obtain ⟨hname, hnone, hsymbol⟩ := hsymbols op hop
    rw [tree, SExpr.node, SExpr.nodes, SExpr.nodes, SExpr.nodes, ihx, ihy, cleared, hname, hnone]
    simp only [operation, hsymbol, Option.getD_some]
  | call f args _ hf _ ih =>
    rw [tree, SExpr.node_form, Tag.node, List.headD_cons, SExpr.name_bare hf, SExpr.nodes,
      List.tail_cons, nodes_trees ih, cleared]
  | giveNothing => rfl
  | giveBack x _ h ih =>
    rw [tree, h.isMissing, SExpr.node_form, cleared, ← ih]
    rfl
  | block ss _ _ ih | main ss _ _ ih =>
    rw [tree, SExpr.node_form, Tag.node, nodes_trees ih, cleared]
  | choice c x _ _ _ ihc ihx =>
    rw [tree, SExpr.node_form, cleared, ← ihc, ← ihx]
    rfl
  | choiceElse c x y _ _ _ hy ihc ihx ihy =>
    rw [tree, hy.isMissing, SExpr.node_form, cleared, ← ihc, ← ihx, ← ihy]
    rfl
  | loop c x _ _ _ ihc ihx =>
    rw [tree, SExpr.node_form, cleared, ← ihc, ← ihx]
    rfl
  | declare n x _ hn _ ih | assign n x _ hn _ ih =>
    rw [tree, SExpr.node_form, Tag.node, List.headD_cons, SExpr.name_bare hn, cleared, ← ih]
    rfl
  | function n ps ss _ _ hn hps _ ih =>
    have hnames : (SExpr.list (ps.map fun p => .bare p.chars)).names = ps := by
      rw [SExpr.names, List.map_map]
      exact (List.map_congr_left fun p hp => SExpr.name_bare (hps p hp)).trans ps.map_id
    rw [tree, SExpr.node_form, Tag.node, List.headD_cons, SExpr.name_bare hn, cleared]
    show function n (SExpr.list _).names ((SExpr.form .block (trees ss)).node numeral).stmts _ _ = _
    rw [hnames, SExpr.node_form, Tag.node, nodes_trees ih, stmts]
  | assert c _ _ ih =>
    rw [tree, SExpr.node_form, cleared, ← ih]
    rfl

end Node

end Scriptlet
