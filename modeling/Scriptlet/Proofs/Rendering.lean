import Scriptlet.Proofs.Spaced
import Scriptlet.Proofs.Statement

/-!
# Trees written as symbols

Expressions are written with the parentheses that their operators require and no others: an operand
stands in parentheses if it binds more loosely than its place allows. Powers allow a power on their
right only, the other operators one of their own level on their left only. Statements are written
with a semicolon behind each, and with braces where the tree has a block.

What a tree does not determine is left to whoever writes it: the numeral of a number, and the word
that declares a variable. The symbols written derive the tree, and a text can have all of them.

## Contents

- §1 expressions
- §2 expressible trees
- §3 written expressions are derivable
- §4 statements
- §5 written statements are derivable
-/

namespace Scriptlet

/-! ## §1 Expressions -/

namespace BinaryOp

/-- The loosest level of an operand on the left that needs no parentheses. -/
def leftLevel : BinaryOp → Nat
  | .power => 1
  | op => op.level

/-- The loosest level of an operand on the right that needs no parentheses. -/
def rightLevel : BinaryOp → Nat
  | .power => 2
  | op => op.level - 1

end BinaryOp

/-- The symbols, in parentheses if these are needed. -/
def parenthesized (needed : Bool) (xs : List Symbol) : List Symbol :=
  if needed then .mark "(" :: (xs ++ [.mark ")"]) else xs

namespace Node

/-- How loosely a written expression binds. -/
def level : Node → Nat
  | .unary _ _ _ => 1
  | .binary op _ _ _ => op.level
  | _ => 0

mutual

/-- The symbols of an expression, given how numbers are written. -/
def written (numeral : Float → Text) : Node → List Symbol
  | .number v _ => [.number (numeral v)]
  | .string v _ => [.string v]
  | .ident t _ => [.word t]
  | .unary op x _ => .mark op.symbol :: parenthesized (1 < x.level) (written numeral x)
  | .binary op x y _ =>
    parenthesized (op.leftLevel < x.level) (written numeral x) ++
      .mark op.symbol :: parenthesized (op.rightLevel < y.level) (written numeral y)
  | .call t args _ => .word t :: .mark "(" :: (commas (writtenAll numeral args) ++ [.mark ")"])
  | .assert c _ => .word "assert" :: .mark "(" :: (written numeral c ++ [.mark ")"])
  | _ => []

/-- The symbols of each expression. -/
def writtenAll (numeral : Float → Text) : List Node → List (List Symbol)
  | [] => []
  | x :: xs => written numeral x :: writtenAll numeral xs

end

theorem writtenAll_eq_map (numeral : Float → Text) (ns : List Node) :
    writtenAll numeral ns = ns.map (written numeral) := by
  induction ns with
  | nil => rfl
  | cons n ns ih => rw [writtenAll, ih, List.map_cons]

end Node

/-! ## §2 Expressible trees -/

/-- A text that can name a variable or function. -/
structure IsName (t : Text) : Prop where
  utf8 : t.isUtf8 = true
  word : IsWord t.chars
  free : isReserved t = false

instance (t : Text) : Decidable (IsName t) :=
  decidable_of_iff (t.isUtf8 = true ∧ IsWord t.chars ∧ isReserved t = false)
    ⟨fun h => ⟨h.1, h.2.1, h.2.2⟩, fun h => ⟨h.utf8, h.word, h.free⟩⟩

/-- The tree is an expression, and its numbers are written as numerals that stand for them. A call
of `assert` with one argument is excluded, since it is a check when it is read. -/
inductive Expressible (numeral : Float → Text) : Node → Prop where
  | number (v : Float) (loc : Location) (h : IsNumeral (numeral v))
      (hv : numeralValue (numeral v) = v) : Expressible numeral (.number v loc)
  | string (v : Text) (loc : Location) (h : v.isUtf8 = true) : Expressible numeral (.string v loc)
  | ident (t : Text) (loc : Location) (h : IsName t) : Expressible numeral (.ident t loc)
  | call (t : Text) (args : List Node) (loc : Location) (h : IsName t)
      (hcheck : t = "assert" → args.length ≠ 1) (hargs : ∀ a ∈ args, Expressible numeral a) :
      Expressible numeral (.call t args loc)
  | unary (op : UnaryOp) (x : Node) (loc : Location) (sign : op = .not ∨ op = .negate)
      (h : Expressible numeral x) : Expressible numeral (.unary op x loc)
  | binary (op : BinaryOp) (x y : Node) (loc : Location) (hop : op ∈ BinaryOp.all)
      (hx : Expressible numeral x) (hy : Expressible numeral y) :
      Expressible numeral (.binary op x y loc)
  | assert (c : Node) (loc : Location) (h : Expressible numeral c) :
      Expressible numeral (.assert c loc)

/-! ## §3 Written expressions are derivable -/

/-- Operators of the table have a level between those of atoms and of expressions. -/
theorem BinaryOp.level_of_mem_all {op : BinaryOp} (h : op ∈ BinaryOp.all) :
    1 < op.level ∧ op.level ≤ 7 := by
  cases op with
  | unknown n => simp [BinaryOp.all] at h
  | _ => decide

/-- Parentheses bring an expression to any level. -/
theorem Derives.parenthesized {k l : Nat} {xs : List Symbol} {n : Node} (h : Derives k xs n)
    (hk : k ≤ 7) : Derives l (parenthesized (l < k) xs) n := by
  unfold Scriptlet.parenthesized
  split
  · exact (Derives.group xs n (h.mono hk)).mono (Nat.zero_le l)
  · next hlk => exact h.mono (by simpa using hlk)

theorem IsName.writable {t : Text} (h : IsName t) : (Symbol.word t).Writable := .text h.utf8 h.word

theorem BinaryOp.symbol_mem_marks : ∀ op ∈ BinaryOp.all, op.symbol ∈ Symbol.marks := by decide

/-- Parentheses can be written, where what they enclose can. -/
theorem writable_parenthesized {xs : List Symbol} (h : ∀ x ∈ xs, x.Writable) (needed : Bool) :
    ∀ x ∈ parenthesized needed xs, x.Writable := by
  unfold parenthesized
  split
  · exact forall_mem_between (.mark (by decide)) (.mark (by decide)) h
  · exact h

namespace Expressible

variable {numeral : Float → Text} {e : Node}

/-- No expression is looser than the loosest level. -/
theorem level_le (h : Expressible numeral e) : e.level ≤ 7 := by
  cases h with
  | binary op x y loc hop => exact (BinaryOp.level_of_mem_all hop).2
  | _ => simp [Node.level]

/-- **Written expressions**: their symbols derive the tree at the level it binds at. -/
theorem derives (h : Expressible numeral e) : Derives e.level (e.written numeral) e.cleared := by
  induction h with
  | number v loc h hv =>
    have hnumber := Derives.number (numeral v) h
    rwa [hv] at hnumber
  | string v loc h => exact .string v
  | ident t loc h => exact .name t h.free
  | call t args loc h hcheck hargs ih =>
    have hcall := Derives.call t (args.map fun a => (a.written numeral, a.cleared)) h.free
      fun a ha => by
        obtain ⟨b, hb, rfl⟩ := List.mem_map.mp ha
        exact (ih b hb).mono (hargs b hb).level_le
    -- the tree is a call again, since a check has exactly one argument
    have hsame : Node.ofCall t (args.map Node.cleared) .nowhere
        = .call t (args.map Node.cleared) .nowhere := by
      match args, hcheck with
      | [a], hcheck =>
        have ht : t ≠ "assert" := fun ht => hcheck ht rfl
        simp [Node.ofCall, ht]
      | [], _ => rfl
      | a :: b :: args, _ => rfl
    rw [Node.written, Node.writtenAll_eq_map, Node.cleared, Node.clearedAll_eq_map, ← hsame]
    rw [List.map_map, List.map_map] at hcall
    exact hcall
  | unary op x loc sign h ih => exact .leading op sign _ _ (ih.parenthesized h.level_le)
  | binary op x y loc hop hx hy ihx ihy =>
    -- either operand is derived at the level of its place, with or without parentheses
    have hleft := ihx.parenthesized (l := op.leftLevel) hx.level_le
    have hright := ihy.parenthesized (l := op.rightLevel) hy.level_le
    rw [Node.written, Node.cleared, Node.level]
    cases op with
    | power => exact .raised _ _ _ _ hleft hright
    | unknown n => simp [BinaryOp.all] at hop
    | _ => exact hleft.extend rfl hright
  | assert c loc h ih =>
    have hcall := Derives.call "assert" [(c.written numeral, c.cleared)] rfl
      (List.forall_mem_singleton.mpr (ih.mono h.level_le))
    exact hcall

/-- A text can have every symbol of a written expression. -/
theorem writable (h : Expressible numeral e) : ∀ x ∈ e.written numeral, x.Writable := by
  -- the words and signs are writable by what makes the node expressible, the parts by induction
  induction h with
  | number v loc h hv =>
    obtain ⟨w, hw, hnumeral⟩ := h
    rw [Node.written, hnumeral]
    exact List.forall_mem_singleton.mpr (.number w hw)
  | string v loc h => exact List.forall_mem_singleton.mpr (.string v h)
  | ident t loc h => exact List.forall_mem_singleton.mpr h.writable
  | call t args loc h hcheck hargs ih =>
    have hparts : ∀ xs ∈ args.map (Node.written numeral), ∀ x ∈ xs, x.Writable :=
      List.forall_mem_map.mpr ih
    rw [Node.written, Node.writtenAll_eq_map]
    refine List.forall_mem_cons.mpr ⟨h.writable, ?_⟩
    refine forall_mem_between (.mark (by decide)) (.mark (by decide)) ?_
    exact forall_mem_commas (.mark (by decide)) hparts
  | unary op x loc sign h ih =>
    have hsign : op.symbol ∈ Symbol.marks := by rcases sign with rfl | rfl <;> decide
    exact List.forall_mem_cons.mpr ⟨.mark hsign, writable_parenthesized ih _⟩
  | binary op x y loc hop hx hy ihx ihy =>
    have hsign : op.symbol ∈ Symbol.marks := BinaryOp.symbol_mem_marks op hop
    rw [Node.written]
    refine List.forall_mem_append.mpr ⟨writable_parenthesized ihx _, ?_⟩
    exact List.forall_mem_cons.mpr ⟨.mark hsign, writable_parenthesized ihy _⟩
  | assert c loc h ih =>
    refine List.forall_mem_cons.mpr ⟨.text (by decide) (by decide), ?_⟩
    exact forall_mem_between (.mark (by decide)) (.mark (by decide)) ih

end Expressible

/-! ## §4 Statements -/

/-- How what a program leaves open is written. -/
structure Style where
  /-- The numeral of a number. -/
  numeral : Float → Text
  /-- The word before a declaration. -/
  declarator : Keyword
  declares : declarator = .letWord ∨ declarator = .varWord

namespace Node

mutual

/-- The symbols of a statement. -/
def writtenStmt (style : Style) : Node → List Symbol
  | .giveBack x _ => .word "return" :: x.written style.numeral ++ [.mark ";"]
  | .block ss _ => .mark "\x7b" :: (writtenStmts style ss ++ [.mark "\x7d"])
  | .choice c x .missing _ =>
    .word "if" :: (.mark "(" :: (c.written style.numeral ++ [.mark ")"]) ++ writtenStmt style x)
  | .choice c x y _ =>
    .word "if" :: (.mark "(" :: (c.written style.numeral ++ [.mark ")"]) ++
      (writtenStmt style x ++ .word "else" :: writtenStmt style y))
  | .loop c x _ =>
    .word "while" :: (.mark "(" :: (c.written style.numeral ++ [.mark ")"]) ++ writtenStmt style x)
  | .declare t x _ =>
    .word style.declarator.spelling :: .word t :: .mark "=" :: x.written style.numeral ++
      [.mark ";"]
  | .assign t x _ => .word t :: .mark "=" :: x.written style.numeral ++ [.mark ";"]
  | .function t params ss _ _ =>
    .word "function" :: .word t :: (.mark "(" ::
      (commas (params.map fun p => [.word p]) ++ [.mark ")"]) ++
      .mark "\x7b" :: (writtenStmts style ss ++ [.mark "\x7d"]))
  | .main ss _ =>
    .word "function" :: .word "main" :: (.mark "(" :: [.mark ")"] ++
      .mark "\x7b" :: (writtenStmts style ss ++ [.mark "\x7d"]))
  | e => e.written style.numeral ++ [.mark ";"]

/-- The symbols of statements one after the other. -/
def writtenStmts (style : Style) : List Node → List Symbol
  | [] => []
  | s :: ss => writtenStmt style s ++ writtenStmts style ss

end

theorem writtenStmts_eq_flatMap (style : Style) (ns : List Node) :
    writtenStmts style ns = ns.flatMap (writtenStmt style) := by
  induction ns with
  | nil => rfl
  | cons n ns ih => rw [writtenStmts, ih, List.flatMap_cons]

end Node

/-- The tree is a statement. Before an `else` it does not end in a choice that would take it, and
no function but the entry point is named `main`. -/
inductive Formed (style : Style) : Node → Prop where
  | expression (e : Node) (h : Expressible style.numeral e) : Formed style e
  | giveBack (x : Node) (loc : Location) (h : Expressible style.numeral x) :
      Formed style (.giveBack x loc)
  | giveNothing (loc : Location) : Formed style (.giveBack .missing loc)
  | block (ss : List Node) (loc : Location) (h : ∀ s ∈ ss, Formed style s) :
      Formed style (.block ss loc)
  | choice (c x : Node) (loc : Location) (hc : Expressible style.numeral c) (h : Formed style x) :
      Formed style (.choice c x .missing loc)
  | choiceElse (c x y : Node) (loc : Location) (hc : Expressible style.numeral c)
      (hx : Formed style x) (hclosed : x.endsOpen = false) (hy : Formed style y) :
      Formed style (.choice c x y loc)
  | loop (c x : Node) (loc : Location) (hc : Expressible style.numeral c) (h : Formed style x) :
      Formed style (.loop c x loc)
  | declare (t : Text) (x : Node) (loc : Location) (ht : IsName t)
      (h : Expressible style.numeral x) : Formed style (.declare t x loc)
  | assign (t : Text) (x : Node) (loc : Location) (ht : IsName t)
      (h : Expressible style.numeral x) : Formed style (.assign t x loc)
  | function (t : Text) (params : List Text) (ss : List Node) (bodyLoc loc : Location)
      (ht : IsName t) (hmain : t ≠ "main") (hparams : ∀ p ∈ params, IsName p)
      (h : ∀ s ∈ ss, Formed style s) : Formed style (.function t params ss bodyLoc loc)
  | main (ss : List Node) (loc : Location) (h : ∀ s ∈ ss, Formed style s) :
      Formed style (.main ss loc)

/-! ## §5 Written statements are derivable -/

namespace Node

theorem isMissing_cleared (n : Node) : n.cleared.isMissing = n.isMissing := by
  cases n <;> rfl

theorem endsOpen_cleared (n : Node) : n.cleared.endsOpen = n.endsOpen := by
  fun_induction endsOpen n with
  | case1 _ _ no _ ih => rw [cleared, endsOpen, isMissing_cleared, ih]
  | case2 _ body _ ih => rw [cleared, endsOpen, ih]
  | case3 n hchoice hloop =>
    cases n with
    | choice c x y loc => exact absurd rfl (hchoice c x y loc)
    | loop c x loc => exact absurd rfl (hloop c x loc)
    | _ => rfl

/-- A choice with its other branch is written with the keyword between the two. -/
theorem writtenStmt_choiceElse {style : Style} {c x y : Node} {loc : Location}
    (hy : y.isMissing = false) : (choice c x y loc).writtenStmt style =
      .word "if" :: (Symbol.mark "(" :: (c.written style.numeral ++ [Symbol.mark ")"]) ++
        (x.writtenStmt style ++ Symbol.word "else" :: y.writtenStmt style)) := by
  rw [writtenStmt]
  rintro rfl
  cases hy

end Node

/-- An expression as a statement is the expression and a semicolon. -/
theorem Expressible.writtenStmt_eq {style : Style} {e : Node} (h : Expressible style.numeral e) :
    e.writtenStmt style = e.written style.numeral ++ [Symbol.mark ";"] := by
  cases h <;> rw [Node.writtenStmt] <;> simp

/-- The statements of a list with their symbols. -/
def Style.parts (style : Style) (ss : List Node) : List (List Symbol × Node) :=
  ss.map fun s => (s.writtenStmt style, s.cleared)

namespace Style

variable (style : Style) (ss : List Node)

/-- The symbols of the parts are those of the statements. -/
theorem parts_fst : (style.parts ss).flatMap Prod.fst = Node.writtenStmts style ss := by
  rw [parts, List.flatMap_map, Node.writtenStmts_eq_flatMap]

/-- The nodes of the parts are the statements without their places. -/
theorem parts_snd : (style.parts ss).map Prod.snd = ss.map Node.cleared := by
  rw [parts, List.map_map]
  rfl

end Style

namespace Formed

variable {style : Style} {n : Node}

theorem isMissing (h : Formed style n) : n.isMissing = false := by
  cases h with
  | expression e h => cases h <;> rfl
  | _ => rfl

/-- **Written statements**: their symbols derive the tree. -/
theorem stated (h : Formed style n) : Stated (n.writtenStmt style) n.cleared := by
  have hparts {ss : List Node} (ih : ∀ s ∈ ss, Stated (s.writtenStmt style) s.cleared) :
      ∀ a ∈ style.parts ss, Stated a.1 a.2 := by
    intro a ha
    obtain ⟨s, hs, rfl⟩ := List.mem_map.mp ha
    exact ih s hs
  have hwhole {e : Node} (he : Expressible style.numeral e) :
      Derives 7 (e.written style.numeral) e.cleared := he.derives.mono he.level_le
  induction h with
  | expression e h =>
    rw [h.writtenStmt_eq]
    exact .simple _ _ (.expression _ _ (hwhole h))
  | giveBack x loc h => exact .simple _ _ (.giveBack _ _ (hwhole h))
  | giveNothing loc => exact .simple _ _ .giveNothing
  | block ss loc h ih =>
    have hblock := Stated.block (style.parts ss) (hparts ih)
    rw [style.parts_fst, style.parts_snd] at hblock
    rwa [Node.writtenStmt, Node.cleared, Node.clearedAll_eq_map]
  | choice c x loc hc h ih => exact .choice _ _ (hwhole hc) _ _ ih
  | choiceElse c x y loc hc hx hclosed hy ihx ihy =>
    -- the branch before `else` does not take it, and clearing places does not change that
    rw [Node.writtenStmt_choiceElse hy.isMissing, Node.cleared]
    exact .choiceElse _ _ (hwhole hc) _ _ _ _ ihx (x.endsOpen_cleared.trans hclosed) ihy
  | loop c x loc hc h ih => exact .loop _ _ (hwhole hc) _ _ ih
  | declare t x loc ht h =>
    exact .simple _ _ (.declare _ style.declares t ht.free _ _ (hwhole h))
  | assign t x loc ht h => exact .simple _ _ (.assign t ht.free _ _ (hwhole h))
  | function t params ss bodyLoc loc ht hmain hparams h ih =>
    have hfunction := Stated.function t ht.free hmain params (fun p hp => (hparams p hp).free)
      (style.parts ss) (hparts ih)
    rw [style.parts_fst, style.parts_snd] at hfunction
    rwa [Node.writtenStmt, Node.cleared, Node.clearedAll_eq_map]
  | main ss loc h ih =>
    have hmain := Stated.main [] (by simp) (style.parts ss) (hparts ih)
    rw [style.parts_fst, style.parts_snd] at hmain
    rwa [Node.writtenStmt, Node.cleared, Node.clearedAll_eq_map]

/-- A text can have every symbol of a written statement. -/
theorem writable (h : Formed style n) : ∀ x ∈ n.writtenStmt style, x.Writable := by
  -- the lists that statements are made of: ended ones, conditions and bodies
  have hended {xs : List Symbol} (hxs : ∀ x ∈ xs, x.Writable) :
      ∀ x ∈ xs ++ [Symbol.mark ";"], x.Writable :=
    List.forall_mem_append.mpr ⟨hxs, List.forall_mem_singleton.mpr (.mark (by decide))⟩
  have hcond {c : Node} {xs : List Symbol} (hc : Expressible style.numeral c)
      (hxs : ∀ x ∈ xs, x.Writable) :
      ∀ x ∈ Symbol.mark "(" :: (c.written style.numeral ++ [Symbol.mark ")"]) ++ xs, x.Writable :=
    List.forall_mem_append.mpr
      ⟨forall_mem_between (.mark (by decide)) (.mark (by decide)) hc.writable, hxs⟩
  have hbody {ss : List Node} (ih : ∀ s ∈ ss, ∀ x ∈ s.writtenStmt style, x.Writable) :
      ∀ x ∈ Symbol.mark "\x7b" :: (Node.writtenStmts style ss ++ [Symbol.mark "\x7d"]),
        x.Writable := by
    refine forall_mem_between (.mark (by decide)) (.mark (by decide)) fun x hx => ?_
    rw [Node.writtenStmts_eq_flatMap] at hx
    obtain ⟨s, hs, hx⟩ := List.mem_flatMap.mp hx
    exact ih s hs x hx
  induction h with
  | expression e h =>
    rw [h.writtenStmt_eq]
    exact hended h.writable
  | giveBack x loc h =>
    exact hended (List.forall_mem_cons.mpr ⟨.reserved .returnWord, h.writable⟩)
  | giveNothing loc => exact hended (List.forall_mem_singleton.mpr (.reserved .returnWord))
  | block ss loc h ih =>
    rw [Node.writtenStmt]
    exact hbody ih
  | choice c x loc hc h ih =>
    rw [Node.writtenStmt]
    exact List.forall_mem_cons.mpr ⟨.reserved .ifWord, hcond hc ih⟩
  | choiceElse c x y loc hc hx hclosed hy ihx ihy =>
    rw [Node.writtenStmt_choiceElse hy.isMissing]
    refine List.forall_mem_cons.mpr ⟨.reserved .ifWord, hcond hc ?_⟩
    refine List.forall_mem_append.mpr ⟨ihx, ?_⟩
    exact List.forall_mem_cons.mpr ⟨.reserved .elseWord, ihy⟩
  | loop c x loc hc h ih =>
    rw [Node.writtenStmt]
    exact List.forall_mem_cons.mpr ⟨.reserved .whileWord, hcond hc ih⟩
  | declare t x loc ht h =>
    refine hended (List.forall_mem_cons.mpr ⟨.reserved style.declarator, ?_⟩)
    refine List.forall_mem_cons.mpr ⟨ht.writable, ?_⟩
    exact List.forall_mem_cons.mpr ⟨.mark (by decide), h.writable⟩
  | assign t x loc ht h =>
    refine hended (List.forall_mem_cons.mpr ⟨ht.writable, ?_⟩)
    exact List.forall_mem_cons.mpr ⟨.mark (by decide), h.writable⟩
  | function t params ss bodyLoc loc ht hmain hparams h ih =>
    have hnames : ∀ xs ∈ params.map fun p => [Symbol.word p], ∀ x ∈ xs, x.Writable :=
      List.forall_mem_map.mpr fun p hp => List.forall_mem_singleton.mpr (hparams p hp).writable
    rw [Node.writtenStmt]
    refine List.forall_mem_cons.mpr ⟨.reserved .functionWord, ?_⟩
    refine List.forall_mem_cons.mpr ⟨ht.writable, List.forall_mem_append.mpr ⟨?_, hbody ih⟩⟩
    refine forall_mem_between (.mark (by decide)) (.mark (by decide)) ?_
    exact forall_mem_commas (.mark (by decide)) hnames
  | main ss loc h ih =>
    have hnone : ∀ x ∈ ([] : List Symbol), x.Writable := by simp
    rw [Node.writtenStmt]
    refine List.forall_mem_cons.mpr ⟨.reserved .functionWord, ?_⟩
    refine List.forall_mem_cons.mpr ⟨.text (by decide) (by decide), ?_⟩
    refine List.forall_mem_append.mpr ⟨?_, hbody ih⟩
    exact forall_mem_between (.mark (by decide)) (.mark (by decide)) hnone

end Formed

end Scriptlet
