import Scriptlet.Forest.Lower
import Scriptlet.Proofs.Expression

/-!
# The grammar reads every derivable statement

Statements that contain no others are *simple*: returns, declarations, assignments and expressions,
without the semicolon that ends them. The first symbols of a simple statement decide which
alternative of the grammar reads it, so the earlier ones fail and it is read whole where a
semicolon or the end of the source follows; before a closing brace every alternative fails.

The other statements are built from simple ones with their semicolons. An `else` goes to the nearest
choice, so a statement that ends in a choice without one is not read as written before an `else`.

## Contents

- §1 the symbols of an expression
- §2 simple statements
- §3 parsers of statements that end
- §4 alternatives that fail at their first symbol
- §5 simple statements are read
- §6 where no statement begins
- §7 statements that contain others
- §8 derivable statements are read
-/

namespace Scriptlet

/-! ## §1 The symbols of an expression -/

/-- The symbol occurs in expressions. -/
def Symbol.inExpression : Symbol → Bool
  | .word t => !isReserved t
  | .number _ | .string _ => true
  | .mark t => (["(", ")", ",", "!", "**"] : List Text).contains t
      || [3, 4, 5, 6, 7].any fun k => (signsAt k).contains t
  | .ending => false

theorem BinaryOp.inExpression_symbol {op : BinaryOp} (h : 1 < op.level) :
    (Symbol.mark op.symbol).inExpression = true := by
  cases op <;> first | decide | (simp [BinaryOp.level] at h)

/-- Every symbol of an expression is one that occurs in expressions; in particular there is no sign
of assignment among them, no semicolon, no brace and no reserved word. -/
theorem Derives.inExpression {k : Nat} {xs : List Symbol} {n : Node} (h : Derives k xs n) :
    ∀ x ∈ xs, x.inExpression = true := by
  -- parentheses and commas belong to expressions themselves, so that only the parts matter
  induction h with
  | number text _ => simp [Symbol.inExpression]
  | string v => simp [Symbol.inExpression]
  | name t h => simp [Symbol.inExpression, h]
  | call t args h _ ih =>
    have hname : (Symbol.word t).inExpression = true := by simp [Symbol.inExpression, h]
    have hargs : ∀ xs ∈ args.map Prod.fst, ∀ x ∈ xs, x.inExpression = true :=
      List.forall_mem_map.mpr ih
    refine List.forall_mem_cons.mpr ⟨hname, forall_mem_between (by decide) (by decide) ?_⟩
    exact forall_mem_commas (by decide) hargs
  | group xs n _ ih => exact forall_mem_between (by decide) (by decide) ih
  | atom xs n _ ih => exact ih
  | leading op sign xs n _ ih =>
    refine List.forall_mem_cons.mpr ⟨?_, ih⟩
    rcases sign with rfl | rfl <;> decide
  | plus xs n _ ih => exact List.forall_mem_cons.mpr ⟨by decide, ih⟩
  | base xs n _ ih => exact ih
  | raised xs ys m n _ _ ihx ihy =>
    exact List.forall_mem_append.mpr ⟨ihx, List.forall_mem_cons.mpr ⟨by decide, ihy⟩⟩
  | chain k xs n links _ hops _ ihx ihl =>
    refine List.forall_mem_append.mpr ⟨ihx, fun x hx => ?_⟩
    obtain ⟨l, hl, hx⟩ := List.mem_flatMap.mp hx
    rcases List.mem_cons.mp hx with rfl | hx
    · exact BinaryOp.inExpression_symbol (by have := hops l hl; omega)
    · exact ihl l hl x hx

/-! ## §2 Simple statements -/

/-- The symbols are a statement that contains no other, without what ends it, and the node without
places is what it stands for. -/
inductive Simple : List Symbol → Node → Prop where
  | giveBack (xs : List Symbol) (n : Node) (h : Derives 7 xs n) :
      Simple (.word "return" :: xs) (.giveBack n .nowhere)
  | giveNothing : Simple [.word "return"] (.giveBack .missing .nowhere)
  | declare (k : Keyword) (hk : k = .letWord ∨ k = .varWord) (t : Text) (ht : isReserved t = false)
      (xs : List Symbol) (n : Node) (h : Derives 7 xs n) :
      Simple (.word k.spelling :: .word t :: .mark "=" :: xs) (.declare t n .nowhere)
  | assign (t : Text) (ht : isReserved t = false) (xs : List Symbol) (n : Node)
      (h : Derives 7 xs n) : Simple (.word t :: .mark "=" :: xs) (.assign t n .nowhere)
  /-- The result of an operation is stored. -/
  | update (t : Text) (ht : isReserved t = false) (op : Operator) (bin : BinaryOp)
      (hop : op.compound? = some bin) (xs : List Symbol) (n : Node) (h : Derives 7 xs n) :
      Simple (.word t :: .mark op.spelling :: xs)
        (.assign t (.binary bin (.ident t .nowhere) n .nowhere) .nowhere)
  | expression (xs : List Symbol) (n : Node) (h : Derives 7 xs n) : Simple xs n

namespace Grammar

open Scriptlet.Parser

variable {α β : Type} {s : Stream} {f : Nat} {x : Symbol} {xs rest e : List Symbol} {n : Node}
  {rules : Rules}

/-! ## §3 Parsers of statements that end -/

/-- What follows a simple statement: a semicolon, a closing brace or nothing. -/
def Closed (rest : List Symbol) : Prop :=
  rest = [] ∨ ∃ t more, (t = (";" : Text) ∨ t = "\x7d") ∧ rest = .mark t :: more

theorem Closed.brace (rest : List Symbol) : Closed (.mark "\x7d" :: rest) :=
  .inr ⟨_, rest, .inr rfl, rfl⟩

theorem Closed.stops {k : Nat} (h : Closed rest) : Stops k rest := by
  rcases h with rfl | ⟨t, more, rfl | rfl, rfl⟩
  · exact Stops.nil
  · exact Stops.mark (by decide) rfl
  · exact Stops.mark (by decide) rfl

theorem Closed.noExpression (h : Closed rest) : NoExpression rest := by
  rcases h with rfl | ⟨t, more, rfl | rfl, rfl⟩ <;> intro x hx <;> cases hx <;> decide

/-- The symbols `e` end a statement: a semicolon, or nothing where nothing is left. -/
def Ends (e rest : List Symbol) : Prop := e = [.mark ";"] ∨ e = [] ∧ rest = []

theorem Ends.closed (h : Ends e rest) : Closed (e ++ rest) := by
  rcases h with rfl | ⟨rfl, rfl⟩
  · exact .inr ⟨_, rest, .inl rfl, rfl⟩
  · exact .inl rfl

/-- The parser reads the symbols and what ends a statement behind them, and fails if a closing brace
follows them. -/
structure Ended (s : Stream) (p : Parser α) (xs : List Symbol) (Q : α → Prop) : Prop where
  takes : ∀ {e rest : List Symbol}, Ends e rest → Takes s p (xs ++ e) rest Q
  rejects : ∀ rest : List Symbol, Rejects s p (xs ++ .mark "\x7d" :: rest)

namespace Ended

variable {p : Parser α} {ps : List (Parser α)} {Q : α → Prop} {R : β → Prop}

theorem terminated {p : Parser Node} {Q : Node → Prop}
    (hp : ∀ rest, Closed rest → Takes s p xs rest Q) : Ended s (terminated p) xs Q where
  takes he := by
    refine (hp _ he.closed).bind fun _ ha => Takes.map (Q := fun _ => True) ?_ fun _ _ => ha
    rcases he with rfl | ⟨rfl, rfl⟩
    · exact ((punct_takes ";").imp fun _ _ => trivial).head
    · exact .tail (punct_rejects (by simp)) ending_takes.head
  rejects rest := by
    refine (hp _ (Closed.brace rest)).bind_rejects fun _ _ => Rejects.bind ?_
    exact .both (punct_rejects (head_ne_mark (by decide))) (.both (ending_rejects (by simp)) .none)

theorem cons {f : α → Parser β} (hp : ∀ rest, Takes s p [x] rest Q)
    (hf : ∀ a, Q a → Ended s (f a) xs R) : Ended s (p >>= f) (x :: xs) R where
  takes he := (hp _).cons fun a ha => (hf a ha).takes he
  rejects _ := (hp _).cons_rejects fun a ha => (hf a ha).rejects _

theorem head (hp : Ended s p xs Q)
    (hps : ∀ rest, Closed rest → Rejects s (firstOf ps) (xs ++ rest)) :
    Ended s (firstOf (p :: ps)) xs Q where
  takes he := (hp.takes he).head
  rejects rest := .both (hp.rejects rest) (hps _ (Closed.brace rest))

theorem tail (hp : ∀ rest, Closed rest → Rejects s p (xs ++ rest))
    (hps : Ended s (firstOf ps) xs Q) : Ended s (firstOf (p :: ps)) xs Q where
  takes he := .tail (by rw [List.append_assoc]; exact hp _ he.closed) (hps.takes he)
  rejects rest := .both (hp _ (Closed.brace rest)) (hps.rejects rest)

end Ended

/-! ## §4 Alternatives that fail at their first symbol -/

theorem keyword_rejects_of_ne {w : Text} (h : x ≠ .word w) : Rejects s (keyword w) (x :: rest) :=
  keyword_rejects (by simpa using h)

theorem varStmt_rejects (hvar : x ≠ .word "var") (hlet : x ≠ .word "let") :
    Rejects s (varStmt rules) (x :: rest) :=
  Rejects.bind (.both (keyword_rejects_of_ne hvar) (.both (keyword_rejects_of_ne hlet) .none))

theorem assignStmt_rejects (hx : x.opens = false) : Rejects s (assignStmt rules) (x :: rest) :=
  (ident_rejects fun t ht => by
    obtain rfl : x = .word t := by simpa using ht
    simpa [Symbol.opens] using hx).bind

theorem braces_rejects (hx : x ≠ .mark "\x7b") : Rejects s (braces rules) (x :: rest) :=
  (punct_rejects (by simpa using hx)).bind

/-- The alternatives without a reserved word fail at a symbol that opens neither an expression nor
a block. -/
theorem plain_rejects (hx : x.opens = false) (hbrace : x ≠ .mark "\x7b") (hf : 2 < f) :
    Rejects s (firstOf
      [ assignStmt (unfold f), (do let (stmts, loc) ← braces (unfold f); return .block stmts loc),
        terminated (unfold f .expression) ]) (x :: rest) := by
  have hno : NoExpression (x :: rest) := by
    intro y hy
    obtain rfl : x = y := by simpa using hy
    exact hx
  refine .both (assignStmt_rejects hx) (.both (braces_rejects hbrace).bind (.both ?_ .none))
  exact (expression_rejects hno hf).bind

/-- At an opening brace a block is read, and nothing else can be. -/
theorem statement_takes_at_brace {stmts : List Node}
    (h : Takes s (braces rules) (.mark "\x7b" :: xs) rest (·.1.map Node.cleared = stmts)) :
    Takes s (statement rules) (.mark "\x7b" :: xs) rest (·.cleared = .block stmts .nowhere) := by
  refine .tail (keyword_rejects_of_ne (by simp)).bind ?_
  refine .tail (keyword_rejects_of_ne (by simp)).bind ?_
  refine .tail (keyword_rejects_of_ne (by simp)).bind ?_
  refine .tail (keyword_rejects_of_ne (by simp)).bind ?_
  refine .tail (varStmt_rejects (by simp) (by simp)) (.tail (assignStmt_rejects (by decide)) ?_)
  refine .head (h.map fun a ha => ?_)
  rw [Node.cleared, Node.clearedAll_eq_map, ha]

theorem statement_rejects_at_brace (h : Rejects s (braces (unfold f)) (.mark "\x7b" :: rest))
    (hf : 2 < f) : Rejects s (statement (unfold f)) (.mark "\x7b" :: rest) := by
  have hno : NoExpression (.mark "\x7b" :: rest) := by
    intro x hx
    cases hx
    decide
  -- a brace is no reserved word, so that only the block itself is left to be tried
  refine .both (keyword_rejects_of_ne (by simp)).bind ?_
  refine .both (keyword_rejects_of_ne (by simp)).bind ?_
  refine .both (keyword_rejects_of_ne (by simp)).bind ?_
  refine .both (keyword_rejects_of_ne (by simp)).bind ?_
  refine .both (varStmt_rejects (by simp) (by simp)) (.both (assignStmt_rejects (by decide)) ?_)
  exact .both h.bind (.both (expression_rejects hno hf).bind .none)

/-- What opens an expression is no reserved word. -/
theorem ne_keyword_of_opens (hx : x.opens = true) (k : Keyword) : x ≠ .word k.spelling := by
  rintro rfl
  revert hx
  cases k <;> decide

/-- At a symbol that opens an expression only the alternatives without a reserved word are left. -/
theorem Ended.plain {Q : Node → Prop} (hx : x.opens = true)
    (h : Ended s (firstOf
      [ assignStmt rules, (do let (stmts, loc) ← braces rules; return .block stmts loc),
        Grammar.terminated (rules .expression) ]) (x :: xs) Q) :
    Ended s (statement rules) (x :: xs) Q := by
  have hno := ne_keyword_of_opens hx
  refine .tail (fun _ _ => (keyword_rejects_of_ne (hno .returnWord)).bind) ?_
  refine .tail (fun _ _ => (keyword_rejects_of_ne (hno .functionWord)).bind) ?_
  refine .tail (fun _ _ => (keyword_rejects_of_ne (hno .ifWord)).bind) ?_
  refine .tail (fun _ _ => (keyword_rejects_of_ne (hno .whileWord)).bind) ?_
  exact .tail (fun _ _ => varStmt_rejects (hno .varWord) (hno .letWord)) h

/-! ## §5 Simple statements are read -/

theorem returnStmt_ended {result : Node}
    (h : ∀ rest, Closed rest →
      Takes s (withDefault (rules .expression) .missing) xs rest (·.cleared = result)) :
    Ended s (returnStmt rules) (.word "return" :: xs) (·.cleared = .giveBack result .nowhere) :=
  Ended.cons (fun _ => keyword_takes "return") fun _ _ =>
    Ended.terminated fun rest hrest => (h rest hrest).map fun _ ha => by rw [Node.cleared, ha]

/-- A name, a sign and a value. -/
theorem binding_ended {sign : Parser Terminal} {t u : Text} {result : Node}
    {build : Terminal → Terminal → Node → Node} (ht : isReserved t = false)
    (hsign : ∀ rest, Takes s sign [.mark u] rest (·.text = u))
    (h : ∀ rest, Closed rest → Takes s (rules .expression) xs rest (·.cleared = n))
    (hbuild : ∀ name op value, name.text = t → op.text = u → value.cleared = n →
      (build name op value).cleared = result) :
    Ended s (binding rules sign build) (.word t :: .mark u :: xs) (·.cleared = result) :=
  Ended.cons (fun _ => ident_takes ht) fun name hname => Ended.cons hsign fun op hop =>
    Ended.terminated fun rest hrest => (h rest hrest).map fun value hvalue =>
      hbuild name op value hname hop hvalue

/-- The signs of assignment as texts. -/
def assignSigns : List Text := ["=", "+=", "-=", "*=", "/=", "%="]

theorem not_inExpression_of_mem {u : Text} (h : u ∈ assignSigns) :
    (Symbol.mark u).inExpression = false := by
  revert u
  decide

theorem assignSign_eq : assignSign = firstOf (assignSigns.map punct) := rfl

/-- In an expression no sign of assignment follows a name. -/
theorem assignStmt_rejects_expression (h : Derives 7 xs n) (hrest : Closed rest) :
    Rejects s (assignStmt rules) (xs ++ rest) := by
  obtain ⟨x, more, rfl, hx⟩ := h.head_opens
  -- only a name in front could start an assignment
  by_cases hword : ∃ t, x = .word t
  · obtain ⟨t, rfl⟩ := hword
    refine (ident_takes (by simpa [Symbol.opens] using hx)).cons_rejects fun _ _ => ?_
    rw [assignSign_eq]
    refine Rejects.bind (signs_reject fun u hu hhead => ?_)
    -- the next symbol is one of the expression, or what follows it
    cases more with
    | nil =>
      rcases hrest with rfl | ⟨v, _, hv, rfl⟩
      · cases hhead
      · obtain rfl : v = u := by simpa using hhead
        revert hu
        rcases hv with rfl | rfl <;> decide
    | cons y more =>
      obtain rfl : y = .mark u := by simpa using hhead
      have hin := h.inExpression (.mark u) (by simp)
      rw [not_inExpression_of_mem hu] at hin
      cases hin
  · exact (ident_rejects fun t ht => absurd ⟨t, by simpa using ht⟩ hword).bind

/-- The sign of an operation that stores its result names the operation. -/
theorem compoundOf?_spelling {op : Operator} {bin : BinaryOp} (h : op.compound? = some bin) :
    op.spelling ∈ assignSigns ∧ compoundOf? op.spelling = some bin := by
  revert bin
  cases op <;> intro bin h <;> cases h <;> decide

/-- Behind `return` stands no other statement than a return. -/
theorem return_rejects (hf : 2 < f) :
    Rejects s (firstOf
      [ functionStmt (unfold f), ifStmt (unfold f), whileStmt (unfold f), varStmt (unfold f),
        assignStmt (unfold f), (do let (stmts, loc) ← braces (unfold f); return .block stmts loc),
        terminated (unfold f .expression) ]) (.word "return" :: rest) := by
  refine .both (keyword_rejects_of_ne (by decide)).bind ?_
  refine .both (keyword_rejects_of_ne (by decide)).bind ?_
  refine .both (keyword_rejects_of_ne (by decide)).bind ?_
  exact .both (varStmt_rejects (by decide) (by decide)) (plain_rejects rfl (by decide) hf)

/-- A declaration is read by its own alternative. -/
theorem varStmt_ended {k : Keyword} {t : Text} (hk : k = .letWord ∨ k = .varWord)
    (ht : isReserved t = false)
    (h : ∀ rest, Closed rest → Takes s (rules .expression) xs rest (·.cleared = n)) :
    Ended s (varStmt rules) (.word k.spelling :: .word t :: .mark "=" :: xs)
      (·.cleared = .declare t n .nowhere) := by
  refine Ended.cons (Q := fun _ => True) (fun rest => ?_) fun _ _ => ?_
  · rcases hk with rfl | rfl
    · exact .tail (keyword_rejects_of_ne (by decide)) (keyword_takes "let").head
    · exact (keyword_takes "var").head
  · refine binding_ended ht (fun _ => punct_takes "=") h fun name op value hname _ hvalue => ?_
    rw [Node.cleared, hname, hvalue]

/-- An assignment is read by its own alternative, which the later ones do not replace: no expression
starts like it. -/
theorem statement_assign_ended {t u : Text} {result : Node} (ht : isReserved t = false)
    (hu : u ∈ assignSigns) (hf : 2 * xs.length + 3 ≤ f) (h : Derives 7 xs n)
    (hbuild : ∀ (name op : Terminal) (value : Node), name.text = t → op.text = u →
      value.cleared = n →
      (match compoundOf? op.text with
        | some bin =>
          Node.assign name.text (.binary bin (.ident name.text name.loc) value op.loc) name.loc
        | none => .assign name.text value name.loc).cleared = result) :
    Ended s (statement (unfold f)) (.word t :: .mark u :: xs) (·.cleared = result) := by
  have hopens : (Symbol.word t).opens = true := by simp [Symbol.opens, ht]
  refine Ended.plain hopens (Ended.head ?_ fun rest _ => ?_)
  · refine binding_ended ht (fun _ => ?_) (fun _ hrest => ?_) hbuild
    · rw [assignSign_eq]
      exact signs_take hu
    · exact expression_takes h hf hrest.stops
  · refine .both (braces_rejects (by simp)).bind (.both ?_ .none)
    -- the name alone is an expression, and what ends a statement does not follow it
    have hsign : ∀ u ∈ assignSigns, u ≠ "(" ∧ BinaryOp.ofSymbol? u = none ∧ u ≠ ";" := by decide
    have hname : Takes s (unfold f .expression) [.word t] (.mark u :: (xs ++ rest)) fun _ => True :=
      have hlen := List.length_pos_iff.mpr h.ne_nil
      have hstop := hsign u hu
      (expression_takes (Derives.mono (.name t ht) (by omega)) (by simp; omega)
        (Stops.mark hstop.1 hstop.2.1)).imp fun _ _ => trivial
    refine hname.cons_rejects fun _ _ => Rejects.bind ?_
    refine .both (punct_rejects (head_ne_mark (hsign u hu).2.2)) ?_
    exact .both (ending_rejects (by simp)) .none

/-- A simple statement is read with what ends it, and not before a closing brace. -/
theorem simple_ended (h : Simple xs n) (hf : 2 * xs.length + 4 ≤ f) :
    Ended s (unfold f .statement) xs (·.cleared = n) := by
  obtain ⟨f, rfl⟩ : ∃ g, f = g + 1 := ⟨f - 1, by omega⟩
  have hexpr : ∀ {ys m rest}, Derives 7 ys m → ys.length ≤ xs.length → Closed rest →
      Takes s (unfold f .expression) ys rest (·.cleared = m) := fun hy hlen hrest =>
    expression_takes hy (by omega) hrest.stops
  show Ended s (statement (unfold f)) xs (·.cleared = n)
  cases h with
  | giveBack ys m h =>
    refine Ended.head (returnStmt_ended fun _ hrest => ?_) fun _ _ => return_rejects (by omega)
    exact (hexpr h (by simp) hrest).present
  | giveNothing =>
    refine Ended.head (returnStmt_ended fun _ hrest => ?_) fun _ _ => return_rejects (by omega)
    -- no expression begins at what ends the statement, so the result is missing
    exact Takes.default (expression_rejects hrest.noExpression (by omega)) rfl
  | declare k hk t ht ys m h =>
    have hvar := varStmt_ended (s := s) hk ht fun rest hrest => hexpr h (by simp; omega) hrest
    -- the four alternatives before the declaration start with other words
    have hother : ∀ w ∈ (["return", "function", "if", "while"] : List Text),
        Symbol.word k.spelling ≠ .word w := by
      rcases hk with rfl | rfl <;> decide
    refine .tail (fun _ _ => (keyword_rejects_of_ne (hother _ (by simp))).bind) ?_
    refine .tail (fun _ _ => (keyword_rejects_of_ne (hother _ (by simp))).bind) ?_
    refine .tail (fun _ _ => (keyword_rejects_of_ne (hother _ (by simp))).bind) ?_
    refine .tail (fun _ _ => (keyword_rejects_of_ne (hother _ (by simp))).bind) ?_
    refine .head hvar fun _ _ => plain_rejects ?_ (by simp) (by omega)
    rcases hk with rfl | rfl <;> rfl
  | assign t ht ys m h =>
    simp only [List.length_cons] at hf
    refine statement_assign_ended ht (by decide) (by omega) h
      fun name op value hname hop hvalue => ?_
    simp only [hop, compoundOf?, if_true, Node.cleared, hname, hvalue]
  | update t ht op bin hop ys m h =>
    obtain ⟨hmem, hcompound⟩ := compoundOf?_spelling hop
    simp only [List.length_cons] at hf
    refine statement_assign_ended ht hmem (by omega) h fun name op value hname hop hvalue => ?_
    simp only [hop, hcompound, Node.cleared, hname, hvalue]
  | expression _ _ h =>
    have hassign : ∀ rest, Closed rest → Rejects s (assignStmt (unfold f)) (xs ++ rest) :=
      fun _ hrest => assignStmt_rejects_expression h hrest
    have hwhole := Ended.terminated fun rest hrest => hexpr h (Nat.le_refl _) hrest
    obtain ⟨x, more, rfl, hx⟩ := h.head_opens
    refine Ended.plain hx (.tail hassign (.tail (fun _ _ => ?_) (.head hwhole fun _ _ => .none)))
    exact (braces_rejects (by rintro rfl; revert hx; decide)).bind

/-! ## §6 Where no statement begins -/

theorem Closed.ne_word (h : Closed rest) (w : Text) : rest.head? ≠ some (.word w) := by
  rcases h with rfl | ⟨t, more, _, rfl⟩ <;> simp

/-- Where statements end none begins. -/
theorem statement_rejects (h : Closed rest) (hf : 3 < f) :
    Rejects s (unfold f .statement) rest := by
  obtain ⟨f, rfl⟩ : ∃ g, f = g + 1 := ⟨f - 1, by omega⟩
  have hword : ∀ w, Rejects s (keyword w) rest := fun w => keyword_rejects (h.ne_word w)
  have hname := ident_rejects_of_noExpression (s := s) h.noExpression
  have hbrace : Rejects s (punct "\x7b") rest := by
    refine punct_rejects ?_
    rcases h with rfl | ⟨t, more, rfl | rfl, rfl⟩
    · simp
    · exact head_ne_mark (by decide)
    · exact head_ne_mark (by decide)
  -- every alternative fails at its first symbol
  refine .both (hword "return").bind (.both (hword "function").bind (.both (hword "if").bind ?_))
  refine .both (hword "while").bind (.both (Rejects.bind ?_) (.both hname.bind ?_))
  · exact .both (hword "var") (.both (hword "let") .none)
  · refine .both (Rejects.bind hbrace.bind) (.both (Rejects.bind ?_) .none)
    exact expression_rejects h.noExpression (by omega)

end Grammar

/-! ## §7 Statements that contain others -/

/-- The statement ends in a choice without a second branch, which an `else` behind it would get. -/
def Node.endsOpen : Node → Bool
  | .choice _ _ no _ => no.isMissing || no.endsOpen
  | .loop _ body _ => body.endsOpen
  | _ => false

/-- The symbols are a statement with all its semicolons, and the node without places is what it
stands for. -/
inductive Stated : List Symbol → Node → Prop where
  | simple (xs : List Symbol) (n : Node) (h : Simple xs n) : Stated (xs ++ [.mark ";"]) n
  | block (parts : List (List Symbol × Node)) (h : ∀ a ∈ parts, Stated a.1 a.2) :
      Stated (.mark "\x7b" :: (parts.flatMap Prod.fst ++ [.mark "\x7d"]))
        (.block (parts.map Prod.snd) .nowhere)
  | choice (cs : List Symbol) (c : Node) (hc : Derives 7 cs c) (xs : List Symbol) (n : Node)
      (h : Stated xs n) :
      Stated (.word "if" :: (.mark "(" :: (cs ++ [.mark ")"]) ++ xs))
        (.choice c n .missing .nowhere)
  /-- An `else` goes to the nearest choice that can take it. -/
  | choiceElse (cs : List Symbol) (c : Node) (hc : Derives 7 cs c) (xs ys : List Symbol)
      (m n : Node) (hx : Stated xs m) (hclosed : m.endsOpen = false) (hy : Stated ys n) :
      Stated (.word "if" :: (.mark "(" :: (cs ++ [.mark ")"]) ++ (xs ++ .word "else" :: ys)))
        (.choice c m n .nowhere)
  | loop (cs : List Symbol) (c : Node) (hc : Derives 7 cs c) (xs : List Symbol) (n : Node)
      (h : Stated xs n) :
      Stated (.word "while" :: (.mark "(" :: (cs ++ [.mark ")"]) ++ xs)) (.loop c n .nowhere)
  | function (t : Text) (ht : isReserved t = false) (hmain : t ≠ "main") (params : List Text)
      (hparams : ∀ p ∈ params, isReserved p = false) (parts : List (List Symbol × Node))
      (h : ∀ a ∈ parts, Stated a.1 a.2) :
      Stated (.word "function" :: .word t :: (.mark "(" ::
          (commas (params.map fun p => [.word p]) ++ [.mark ")"]) ++
          .mark "\x7b" :: (parts.flatMap Prod.fst ++ [.mark "\x7d"])))
        (.function t params (parts.map Prod.snd) .nowhere .nowhere)
  /-- The function named `main` is the entry point, whatever its parameters. -/
  | main (params : List Text) (hparams : ∀ p ∈ params, isReserved p = false)
      (parts : List (List Symbol × Node)) (h : ∀ a ∈ parts, Stated a.1 a.2) :
      Stated (.word "function" :: .word "main" :: (.mark "(" ::
          (commas (params.map fun p => [.word p]) ++ [.mark ")"]) ++
          .mark "\x7b" :: (parts.flatMap Prod.fst ++ [.mark "\x7d"])))
        (.main (parts.map Prod.snd) .nowhere)

/-- A simple statement starts with a word or with what opens an expression. -/
theorem Simple.head {xs : List Symbol} {n : Node} (h : Simple xs n) :
    ∃ x more, xs = x :: more ∧ x ≠ .word "else" ∧ x ≠ .mark "\x7d" ∧ x ≠ .ending := by
  have hname : ∀ {t : Text}, isReserved t = false → Symbol.word t ≠ .word "else" := by
    rintro t ht heq
    cases heq
    cases ht
  -- a name is told from `else` by not being reserved, and all other first symbols are fixed
  cases h with
  | giveBack => exact ⟨_, _, rfl, by decide, by simp, by simp⟩
  | giveNothing => exact ⟨_, _, rfl, by decide, by simp, by simp⟩
  | declare k hk => exact ⟨_, _, rfl, by rcases hk with rfl | rfl <;> decide, by simp, by simp⟩
  | assign t ht => exact ⟨_, _, rfl, hname ht, by simp, by simp⟩
  | update t ht => exact ⟨_, _, rfl, hname ht, by simp, by simp⟩
  | expression _ _ h =>
    obtain ⟨x, more, rfl, hx⟩ := h.head_opens
    refine ⟨x, more, rfl, ?_, ?_, ?_⟩ <;> rintro rfl <;> revert hx <;> decide

/-- No statement starts with `else`. -/
theorem Stated.head {xs : List Symbol} {n : Node} (h : Stated xs n) :
    ∃ x more, xs = x :: more ∧ x ≠ .word "else" := by
  cases h with
  | simple xs n h =>
    obtain ⟨x, more, rfl, hx, _⟩ := h.head
    exact ⟨x, _, rfl, hx⟩
  | block => exact ⟨_, _, rfl, by simp⟩
  | _ => exact ⟨_, _, rfl, by decide⟩

namespace Grammar

open Scriptlet.Parser

variable {s : Stream} {f : Nat} {xs rest : List Symbol} {n c : Node} {rules : Rules}
  {parts : List (List Symbol × Node)}

/-! ## §8 Derivable statements are read -/

/-- Statements one after the other are read up to where they end. -/
theorem statements_repeat {p : Parser Node} (hp : ∀ rest, Closed rest → Rejects s p rest)
    (hhead : ∀ a ∈ parts, ∃ x more, a.1 = x :: more ∧ x ≠ .word "else")
    (hparts : ∀ a ∈ parts, ∀ rest, rest.head? ≠ some (.word "else") →
      Takes s p a.1 rest (·.cleared = a.2))
    (hrest : Closed rest) :
    Repeats s p (parts.flatMap Prod.fst) rest (·.map Node.cleared = parts.map Prod.snd) := by
  induction parts with
  | nil => exact Repeats.stop (hp rest hrest) rfl
  | cons a parts ih =>
    have hmore := ih (fun b hb => hhead b (List.mem_cons_of_mem _ hb))
      fun b hb => hparts b (List.mem_cons_of_mem _ hb)
    -- no statement starts with `else`, so none takes the next statement for a branch
    have hnext : (parts.flatMap Prod.fst ++ rest).head? ≠ some (.word "else") := by
      cases parts with
      | nil => exact hrest.ne_word _
      | cons b parts =>
        obtain ⟨x, more, hb, hx⟩ := hhead b (by simp)
        simpa [hb] using hx
    obtain ⟨x, more, ha, _⟩ := hhead a (by simp)
    rw [List.flatMap_cons]
    refine Repeats.round (by simp [ha]) (hparts a (by simp) _ hnext) fun m hm =>
      hmore.imp fun as has => ?_
    simp only [List.map_cons, hm, has]

theorem braces_takes (hp : ∀ rest, Closed rest → Rejects s (rules .statement) rest)
    (hhead : ∀ a ∈ parts, ∃ x more, a.1 = x :: more ∧ x ≠ .word "else")
    (hparts : ∀ a ∈ parts, ∀ rest, rest.head? ≠ some (.word "else") →
      Takes s (rules .statement) a.1 rest (·.cleared = a.2)) :
    Takes s (braces rules) (.mark "\x7b" :: (parts.flatMap Prod.fst ++ [.mark "\x7d"])) rest
      (·.1.map Node.cleared = parts.map Prod.snd) := by
  refine (punct_takes "\x7b").cons fun _ _ => ?_
  refine (statements_repeat hp hhead hparts (Closed.brace rest)).takes.bind fun ns hns => ?_
  exact (punct_takes "\x7d").map fun _ _ => hns

theorem condition_takes {cs : List Symbol} (hc : Derives 7 cs c) (hf : 2 * cs.length + 3 ≤ f) :
    Takes s (condition (unfold f)) (.mark "(" :: (cs ++ [.mark ")"])) rest (·.cleared = c) :=
  between_takes (expression_takes hc hf (Stops.mark (by decide) rfl))

/-- A function is read by its own alternative, and the one named `main` is the entry point. -/
theorem functionStmt_takes {t : Text} {params : List Text} {result : Node} {body : List Symbol}
    {stmts : List Node} (ht : isReserved t = false) (hparams : ∀ p ∈ params, isReserved p = false)
    (hbody : Takes s (braces rules) body rest (·.1.map Node.cleared = stmts))
    (hresult : (if t = "main" then Node.main stmts .nowhere
      else .function t params stmts .nowhere .nowhere) = result) :
    Takes s (functionStmt rules) (.word "function" :: .word t :: (.mark "(" ::
      (commas (params.map fun p => [.word p]) ++ [.mark ")"]) ++ body)) rest
      (·.cleared = result) := by
  refine (keyword_takes "function").cons fun _ _ => (ident_takes ht).cons fun name hname => ?_
  -- parameters are a list of names
  have hlist : ∀ more, Takes s (commaList ident) (commas (params.map fun p => [.word p]))
      (.mark ")" :: more) (·.map Terminal.text = params) := by
    intro more
    let args := params.map fun p => ([Symbol.word p], p)
    have h : Takes s (commaList ident) (commas (args.map Prod.fst)) (.mark ")" :: more)
        (·.map Terminal.text = args.map Prod.snd) := by
      refine commaList_takes (ident_rejects (by simp)) fun a ha u rest _ => ?_
      obtain ⟨p, hp, rfl⟩ := List.mem_map.mp ha
      exact ident_takes (hparams p hp)
    simpa [args, Function.comp_def] using h
  refine (between_takes (hlist _)).bind fun names hnames => ?_
  rw [← List.append_nil body]
  refine Takes.bind hbody ?_
  rintro ⟨ns, loc⟩ hns
  subst hresult
  simp only at hns
  by_cases hmain : t = "main"
  · simp only [hname, hmain, if_true]
    exact Takes.pure (by rw [Node.cleared, Node.clearedAll_eq_map, hns])
  · simp only [hname, hmain, if_false]
    exact Takes.pure (by rw [Node.cleared, Node.clearedAll_eq_map, hns, hnames])

theorem length_le_flatMap_fst {a : List Symbol × Node} (ha : a ∈ parts) :
    a.1.length ≤ (parts.flatMap Prod.fst).length := by
  obtain ⟨before, behind, rfl⟩ := List.append_of_mem ha
  simp only [List.flatMap_append, List.flatMap_cons, List.length_append]
  omega

/-- A derivable statement is read, unless it ends in a choice that lacks its second branch and an
`else` follows. -/
theorem statement_takes (h : Stated xs n) (hf : 2 * xs.length + 4 ≤ f)
    (hrest : n.endsOpen = true → rest.head? ≠ some (.word "else")) :
    Takes s (unfold f .statement) xs rest (·.cleared = n) := by
  -- by induction on the derivation; only the choices look at what follows the statement
  induction h generalizing f rest with
  | simple xs n h =>
    rw [List.length_append] at hf
    exact (simple_ended h (by omega)).takes (.inl rfl)
  | block parts h ih =>
    obtain ⟨f, rfl⟩ : ∃ g, f = g + 1 := ⟨f - 1, by omega⟩
    simp only [List.length_cons, List.length_append] at hf
    have hparts : ∀ a ∈ parts, ∀ rest, rest.head? ≠ some (.word "else") →
        Takes s (unfold f .statement) a.1 rest (·.cleared = a.2) := fun a ha rest hr =>
      ih a ha (by have := length_le_flatMap_fst ha; omega) fun _ => hr
    exact statement_takes_at_brace (braces_takes (fun _ hr => statement_rejects hr (by omega))
      (fun a ha => (h a ha).head) hparts)
  | choice cs c hc xs n h ih =>
    obtain ⟨f, rfl⟩ : ∃ g, f = g + 1 := ⟨f - 1, by omega⟩
    simp only [List.length_cons, List.length_append] at hf
    -- without an `else` behind it the optional branch is not there
    have helse := hrest rfl
    refine .tail (keyword_rejects_of_ne (by decide)).bind ?_
    refine .tail (keyword_rejects_of_ne (by decide)).bind (.head ?_)
    refine (keyword_takes "if").cons fun _ _ => ?_
    refine (condition_takes hc (by omega)).bind fun a ha => ?_
    rw [← List.append_nil xs]
    refine Takes.bind (ih (f := f) (by omega) fun _ => helse) fun b hb => ?_
    refine (Takes.default (Q := (· = .missing)) (keyword_rejects helse).bind rfl).map ?_
    rintro _ rfl
    rw [Node.cleared, ha, hb, Node.cleared]
  | choiceElse cs c hc xs ys m n hx hclosed hy ihx ihy =>
    obtain ⟨f, rfl⟩ : ∃ g, f = g + 1 := ⟨f - 1, by omega⟩
    simp only [List.length_cons, List.length_append] at hf
    refine .tail (keyword_rejects_of_ne (by decide)).bind ?_
    refine .tail (keyword_rejects_of_ne (by decide)).bind (.head ?_)
    refine (keyword_takes "if").cons fun _ _ => ?_
    refine (condition_takes hc (by omega)).bind fun a ha => ?_
    -- the first branch leaves the `else` alone, since it does not end in an open choice
    refine Takes.bind (ihx (f := f) (by omega) ?_) fun b hb => ?_
    · rw [hclosed]; intro h; cases h
    · have hopen : n.endsOpen = true → rest.head? ≠ some (.word "else") := fun h =>
        hrest (by rw [Node.endsOpen, h, Bool.or_true])
      have htail := (keyword_takes (s := s) "else").cons fun _ _ => ihy (f := f) (by omega) hopen
      refine htail.present.map fun d hd => ?_
      rw [Node.cleared, ha, hb, hd]
  | loop cs c hc xs n h ih =>
    obtain ⟨f, rfl⟩ : ∃ g, f = g + 1 := ⟨f - 1, by omega⟩
    simp only [List.length_cons, List.length_append] at hf
    refine .tail (keyword_rejects_of_ne (by decide)).bind ?_
    refine .tail (keyword_rejects_of_ne (by decide)).bind ?_
    refine .tail (keyword_rejects_of_ne (by decide)).bind (.head ?_)
    refine (keyword_takes "while").cons fun _ _ => ?_
    refine (condition_takes hc (by omega)).bind fun a ha => ?_
    refine (ih (f := f) (by omega) hrest).map fun b hb => ?_
    rw [Node.cleared, ha, hb]
  | function t ht hmain params hparams parts h ih =>
    obtain ⟨f, rfl⟩ : ∃ g, f = g + 1 := ⟨f - 1, by omega⟩
    simp only [List.length_cons, List.length_append] at hf
    refine .tail (keyword_rejects_of_ne (by decide)).bind (.head ?_)
    refine functionStmt_takes ht hparams (braces_takes (fun _ hr => statement_rejects hr (by omega))
      (fun a ha => (h a ha).head) fun a ha rest hr => ?_) (if_neg hmain)
    exact ih a ha (by have := length_le_flatMap_fst ha; omega) fun _ => hr
  | main params hparams parts h ih =>
    obtain ⟨f, rfl⟩ : ∃ g, f = g + 1 := ⟨f - 1, by omega⟩
    simp only [List.length_cons, List.length_append] at hf
    refine .tail (keyword_rejects_of_ne (by decide)).bind (.head ?_)
    refine functionStmt_takes rfl hparams (braces_takes (fun _ hr => statement_rejects hr (by omega))
      (fun a ha => (h a ha).head) fun a ha rest hr => ?_) (if_pos rfl)
    exact ih a ha (by have := length_le_flatMap_fst ha; omega) fun _ => hr

/-- The symbols of a stream bound what its rules are unfolded. -/
theorem le_unfoldings (s : Stream) : 2 * (s.left 0).length + 4 ≤ unfoldings s := by
  have h := Stream.length_left_le s 0
  unfold unfoldings
  omega

/-- A stream of statements is a program. -/
theorem parseStream_of_stated (hleft : s.left 0 = parts.flatMap Prod.fst)
    (h : ∀ a ∈ parts, Stated a.1 a.2) :
    ∃ p, parseStream s = .ok p ∧ p.stmts.map Node.cleared = parts.map Prod.snd := by
  have hf := le_unfoldings s
  rw [hleft] at hf
  -- no statement is longer than the program, so that the unfoldings suffice for each
  have hparts : ∀ a ∈ parts, ∀ rest, rest.head? ≠ some (.word "else") →
      Takes s (Grammar.unfold (unfoldings s) .statement) a.1 rest (·.cleared = a.2) :=
    fun a ha rest hr =>
      statement_takes (h a ha) (by have := length_le_flatMap_fst ha; omega) fun _ => hr
  have hall := (statements_repeat (fun _ hr => statement_rejects hr (by omega))
    (fun a ha => (h a ha).head) hparts (.inl rfl)).takes
  rw [← hleft] at hall
  obtain ⟨ns, hns, hrun⟩ := run_of_takes hall
  refine ⟨⟨ns, .nowhere⟩, ?_, hns⟩
  rw [parseStream, program, hrun]
  rfl

end Grammar

end Scriptlet
