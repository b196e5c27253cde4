import Scriptlet.Proofs.Dump
import Scriptlet.Proofs.Identity
import Scriptlet.Proofs.Incomplete
import Scriptlet.Proofs.Phrases

/-!
# The dump of a program identifies it

Whatever either way of reading programs accepts is legible: the grammar makes its nodes of terminals
whose names are words and whose numerals are numbers, and what the reducer finds is derived from
symbols of that kind. A legible node can be read back from its dump, so two programs of one dump are
the same, whichever sources and ways of reading they come from.

## Contents

- §1 expressions of the grammar
- §2 statements of the grammar
- §3 what is derived from symbols
- §4 programs of one dump
-/

namespace Scriptlet

/-! ## §1 Expressions of the grammar -/

theorem BinaryOp.mem_of_ofSymbol? {t : Text} {op : BinaryOp} (h : ofSymbol? t = some op) :
    op ∈ all :=
  List.mem_of_find?_eq_some h

namespace Grammar

open Scriptlet.Parser Scriptlet.Node

variable {s : Stream} {rules : Rules}

/-- Without its places the node is legible. -/
def Shown (n : Node) : Prop := n.cleared.Legible

/-- What is shown of each statement is shown of their cleared list. -/
theorem shown_all {ns : List Node} (h : ∀ n ∈ ns, Shown n) : ∀ n ∈ clearedAll ns, n.Legible := by
  rw [clearedAll_eq_map]
  exact List.forall_mem_map.mpr h

/-- The names and numbers of the stream are what they should be. -/
structure WellScanned (s : Stream) : Prop where
  proper : ∀ x ∈ s.items.toList, x.Proper
  word : ∀ x ∈ s.items.toList, x.kind = .ident → (Symbol.word x.text).Writable

/-- The operation of a terminal is one of the table. -/
theorem operationOf_mem (x : Terminal) : operationOf x ∈ BinaryOp.all := by
  unfold operationOf
  cases hop : BinaryOp.ofSymbol? x.text with
  | none => decide
  | some op => exact BinaryOp.mem_of_ofSymbol? hop

/-- A chain of shown operands is shown. -/
theorem leftChain_yields {operand : Parser Node} (ops : List Text)
    (h : YieldsOn s operand Shown) : YieldsOn s (leftChain operand ops) Shown := by
  have hlink : YieldsOn s (do
      let op ← firstOf (ops.map punct)
      let right ← operand
      return (op, right)) fun link => Shown link.2 :=
    .behind fun _ => h.bind fun _ hright => .pure hright
  refine h.bind fun first hfirst => hlink.many.bind fun rest hrest => .pure ?_
  -- the chain grows at its right end
  induction rest generalizing first with
  | nil => exact hfirst
  | cons link rest ih =>
    obtain ⟨hright, hrest⟩ := List.forall_mem_cons.mp hrest
    exact ih _ (.binary _ _ _ _ (operationOf_mem link.1) hfirst hright) hrest

section

variable (hs : WellScanned s)

include hs

/-- Names are words that can be written. -/
theorem ident_yields : YieldsOn s ident fun x => (Symbol.word x.text).Writable := by
  refine .satisfy (fun _ => rfl) fun x hx hread => hs.word x hx ?_
  simp only [Bool.and_eq_true, beq_iff_eq] at hread
  exact hread.1

/-- Numbers are numerals that can be written. -/
theorem number_yields : YieldsOn s number Shown := by
  refine YieldsOn.bind (P := fun x => IsNumeral x.text) (.satisfy (fun _ => rfl) ?_) fun x hx =>
    .pure (.number _ _ (isNumber_numeralValue hx))
  intro x hx hread
  have hkind : x.kind = .number := by simpa using hread
  exact (hs.proper x hx).numeral hkind

variable (hexpression : YieldsOn s (rules .expression) Shown)

include hexpression

/-- Atoms are shown, by their five forms. -/
theorem atom_yields : YieldsOn s (atom rules) Shown := by
  refine .choice ?_
  simp only [List.forall_mem_cons]
  refine ⟨?_, ?_, number_yields hs, ?_, hexpression.between, List.forall_mem_nil _⟩
  · refine (ident_yields hs).bind fun _ hf => hexpression.commaList.between.bind fun _ hargs =>
      .pure ?_
    rw [Shown, cleared_ofCall]
    exact .ofCall hf (List.forall_mem_map.mpr hargs)
  · exact (ident_yields hs).bind fun x hx => .pure (.ident _ _ hx)
  · exact .behind fun x => .pure (.string _ _)

theorem unary_yields (hunary : YieldsOn s (rules .unary) Shown) :
    YieldsOn s (unary rules) Shown := by
  have hleading (symbol : Text) (op : UnaryOp) (hop : op = .not ∨ op = .negate) :
      YieldsOn s (leadingOp rules symbol op) Shown :=
    .behind fun _ => hunary.bind fun _ hx => .pure (.unary _ _ _ hop hx)
  refine .choice ?_
  simp only [List.forall_mem_cons]
  exact ⟨hleading "!" .not (.inl rfl), hleading "-" .negate (.inr rfl), .behind fun _ => hunary,
    atom_yields hs hexpression, List.forall_mem_nil _⟩

end

/-- Powers are shown, with either operand. -/
theorem power_yields (hunary : YieldsOn s (rules .unary) Shown)
    (hpower : YieldsOn s (rules .power) Shown) : YieldsOn s (power rules) Shown := by
  refine hunary.bind fun base hbase => .withDefault (.behind fun _ => ?_) hbase
  exact hpower.bind fun _ hexponent => .pure (.binary _ _ _ _ (by decide) hbase hexponent)

theorem expression_yields (hpower : YieldsOn s (rules .power) Shown) :
    YieldsOn s (expression rules) Shown :=
  leftChain_yields _ <| leftChain_yields _ <| leftChain_yields _ <| leftChain_yields _ <|
    leftChain_yields _ hpower

/-! ## §2 Statements of the grammar -/

/-- The semicolon adds nothing to show. -/
theorem terminated_yieldsOn {p : Parser Node} (h : YieldsOn s p Shown) :
    YieldsOn s (terminated p) Shown :=
  h.bind fun _ hx => .behind fun _ => .pure hx

/-- The node is legible without its places, or it is not there. -/
def ShownOrMissing (n : Node) : Prop := Shown n ∨ n = .missing

theorem returnStmt_yields (hexpression : YieldsOn s (rules .expression) Shown) :
    YieldsOn s (returnStmt rules) Shown := by
  refine .behind fun _ => terminated_yieldsOn ?_
  refine YieldsOn.bind (P := ShownOrMissing)
    (.withDefault (hexpression.mono fun _ => .inl) (.inr rfl)) fun result hresult => .pure ?_
  rcases hresult with hshown | rfl
  · exact .giveBack _ _ hshown
  · exact .giveNothing _

section

variable (hstatement : YieldsOn s (rules .statement) Shown)

include hstatement

theorem braces_yields : YieldsOn s (braces rules) fun body => ∀ n ∈ body.1, Shown n :=
  .behind fun _ => hstatement.many.bind fun _ hbody => .behind fun _ => .pure hbody

theorem block_yields :
    YieldsOn s (do let (stmts, loc) ← braces rules; return .block stmts loc) Shown :=
  (braces_yields hstatement).bind fun _ hbody => .pure (.block _ _ (shown_all hbody))

/-- Functions are shown: the name, the parameters and the body. -/
theorem functionStmt_yields (hs : WellScanned s) : YieldsOn s (functionStmt rules) Shown := by
  refine .behind fun _ => (ident_yields hs).bind fun name hname =>
    (ident_yields hs).commaList.between.bind fun params hparams =>
      (braces_yields hstatement).bind fun body hbody => ?_
  -- a function of either kind has legible statements
  show YieldsOn s (if name.text = "main" then _ else _) Shown
  split
  · exact .pure (.main _ _ (shown_all hbody))
  · exact .pure (.function _ _ _ _ _ hname (List.forall_mem_map.mpr hparams) (shown_all hbody))

variable (hexpression : YieldsOn s (rules .expression) Shown)

include hexpression

/-- Choices are shown, also where the other branch is missing. -/
theorem ifStmt_yields : YieldsOn s (ifStmt rules) Shown := by
  refine .behind fun _ => hexpression.between.bind fun cond hcond =>
    hstatement.bind fun yes hyes => ?_
  have hno : YieldsOn s (withDefault (do let _ ← keyword "else"; rules .statement) .missing)
      ShownOrMissing :=
    .withDefault (.behind fun _ => hstatement.mono fun _ => .inl) (.inr rfl)
  refine hno.bind fun no hno => .pure ?_
  rcases hno with hshown | rfl
  · exact .choiceElse _ _ _ _ hcond hyes hshown
  · exact .choice _ _ _ hcond hyes

theorem whileStmt_yields : YieldsOn s (whileStmt rules) Shown :=
  .behind fun _ => hexpression.between.bind fun _ hcond =>
    hstatement.bind fun _ hbody => .pure (.loop _ _ _ hcond hbody)

end

section

variable (hs : WellScanned s) (hexpression : YieldsOn s (rules .expression) Shown)

include hs hexpression

/-- Declarations and assignments are shown when what they build is. -/
theorem binding_shows {sign : Parser Terminal} {build : Terminal → Terminal → Node → Node}
    (h : ∀ name op value, (Symbol.word name.text).Writable → Shown value →
      Shown (build name op value)) : YieldsOn s (binding rules sign build) Shown :=
  (ident_yields hs).bind fun name hname => .behind fun op => terminated_yieldsOn <|
    hexpression.bind fun value hvalue => .pure (h name op value hname hvalue)

theorem varStmt_yields : YieldsOn s (varStmt rules) Shown :=
  .behind fun _ => binding_shows hs hexpression fun _ _ _ hname hvalue =>
    .declare _ _ _ hname hvalue

theorem assignStmt_yields : YieldsOn s (assignStmt rules) Shown := by
  refine binding_shows hs hexpression fun name op value hname hvalue => ?_
  cases hop : compoundOf? op.text with
  | none => exact .assign _ _ _ hname hvalue
  | some bin =>
    have hbin : bin ∈ BinaryOp.all := by
      unfold compoundOf? at hop
      split at hop
      · cases hop
      · exact BinaryOp.mem_of_ofSymbol? hop
    exact .assign _ _ _ hname (.binary _ _ _ _ hbin (.ident _ _ hname) hvalue)

end

/-- Statements are shown, whichever form they have. -/
theorem statement_yields (hs : WellScanned s) (hexpression : YieldsOn s (rules .expression) Shown)
    (hstatement : YieldsOn s (rules .statement) Shown) : YieldsOn s (statement rules) Shown := by
  refine .choice ?_
  simp only [List.forall_mem_cons]
  exact ⟨returnStmt_yields hexpression, functionStmt_yields hstatement hs,
    ifStmt_yields hstatement hexpression, whileStmt_yields hstatement hexpression,
    varStmt_yields hs hexpression, assignStmt_yields hs hexpression, block_yields hstatement,
    terminated_yieldsOn hexpression, List.forall_mem_nil _⟩

/-- However often the rules are unfolded, they yield legible nodes. -/
theorem unfold_yields (hs : WellScanned s) (n : Nat) (r : Rule) :
    YieldsOn s (unfold n r) Shown := by
  induction n generalizing r with
  | zero =>
    -- a rule without unfoldings yields nothing at all
    intro pos t a fin t' hrun
    cases hrun
  | succ n ih =>
    cases r with
    | expression => exact expression_yields (ih .power)
    | statement => exact statement_yields hs (ih .expression) (ih .statement)
    | unary => exact unary_yields hs (ih .expression) (ih .unary)
    | power => exact power_yields (ih .unary) (ih .power)

/-- Every statement that the parser reads is shown. -/
theorem shown_of_parse {source : Text} {p : Program} (h : Grammar.parse source = .ok p) :
    ∀ n ∈ p.stmts, Shown n := by
  obtain ⟨s, hmapped, hstream⟩ := bind_eq_ok.mp h
  have hscan := mapError_eq_ok.mp hmapped
  have hs : WellScanned s := by
    refine ⟨proper_of_scanTerminals hscan, fun x hx hkind => ?_⟩
    obtain ⟨w, hw, htext⟩ := word_of_scanTerminals hscan x hx hkind
    rw [htext]
    exact .word w hw
  -- what the source has been read as was yielded by the loop over statements
  obtain ⟨stmts, fin, t, hrun, -, hparse⟩ := parseStream_cases hs.proper
  rw [hstream] at hparse
  split at hparse
  · cases hparse
    exact (unfold_yields hs _ .statement).many _ _ _ _ _ hrun
  · cases hparse

end Grammar

/-! ## §3 What is derived from symbols -/

/-- An operator with a level is one of the table. -/
theorem BinaryOp.mem_of_level {op : BinaryOp} (h : 0 < op.level) : op ∈ all := by
  cases op <;> first | decide | cases h

/-- The operator behind a compound sign is one of the table. -/
theorem Operator.mem_of_compound? {op : Operator} {bin : BinaryOp} (h : op.compound? = some bin) :
    bin ∈ BinaryOp.all := by
  cases op <;> cases h <;> decide

section

open Node

/-- A chain of links is legible when its operands are. -/
theorem Link.legible_foldl {n : Node} {links : List Link} (hn : n.Legible)
    (hops : ∀ l ∈ links, 0 < l.op.level) (h : ∀ l ∈ links, l.node.Legible) :
    (links.foldl join n).Legible := by
  induction links generalizing n with
  | nil => exact hn
  | cons l links ih =>
    obtain ⟨hop, hops⟩ := List.forall_mem_cons.mp hops
    obtain ⟨hl, hlinks⟩ := List.forall_mem_cons.mp h
    exact ih (.binary _ _ _ _ (BinaryOp.mem_of_level hop) hn hl) hops hlinks

variable {k : Nat} {xs : List Symbol} {n : Node} {ns : List Node}

/-- What symbols that can be written derive is legible. -/
theorem Derives.legible (h : Derives k xs n) (hxs : ∀ x ∈ xs, x.Writable) : n.Legible := by
  induction h with
  | number text h => exact .number _ _ (isNumber_numeralValue h)
  | string v => exact .string _ _
  | name t _ => exact .ident _ _ (hxs _ (List.mem_singleton_self _))
  | call t args _ _ ih =>
    obtain ⟨ht, hmore⟩ := List.forall_mem_cons.mp hxs
    obtain ⟨-, hmore⟩ := List.forall_mem_cons.mp hmore
    -- the symbols of an argument are among those between the parentheses
    refine .ofCall ht (List.forall_mem_map.mpr fun a ha => ih a ha fun x hx => ?_)
    exact hmore x (List.mem_append_left _ (mem_commas hx (List.mem_map_of_mem ha)))
  | group _ _ _ ih =>
    exact ih fun x hx => hxs x (List.mem_cons_of_mem _ (List.mem_append_left _ hx))
  | atom _ _ _ ih | base _ _ _ ih => exact ih hxs
  | leading op sign _ _ _ ih => exact .unary _ _ _ sign (ih (List.forall_mem_cons.mp hxs).2)
  | plus _ _ _ ih => exact ih (List.forall_mem_cons.mp hxs).2
  | raised _ _ _ _ _ _ ihx ihy =>
    obtain ⟨hbase, hmore⟩ := List.forall_mem_append.mp hxs
    exact .binary _ _ _ _ (by decide) (ihx hbase) (ihy (List.forall_mem_cons.mp hmore).2)
  | chain k xs n links _ hops _ ihx ihl =>
    obtain ⟨hfirst, hmore⟩ := List.forall_mem_append.mp hxs
    refine Link.legible_foldl (ihx hfirst) (fun l hl => ?_) fun l hl => ihl l hl fun x hx => ?_
    · rw [hops l hl]
      exact Nat.succ_pos _
    · exact hmore x (List.mem_flatMap.mpr ⟨l, hl, List.mem_cons_of_mem _ hx⟩)

/-- Simple statements of writable symbols are legible. -/
theorem Simple.legible (h : Simple xs n) (hxs : ∀ x ∈ xs, x.Writable) : n.Legible := by
  -- the words of a simple statement are names, and its value is an expression
  cases h with
  | giveBack xs n h => exact .giveBack _ _ (h.legible (List.forall_mem_cons.mp hxs).2)
  | giveNothing => exact .giveNothing _
  | declare _ _ t _ xs n h =>
    obtain ⟨-, hmore⟩ := List.forall_mem_cons.mp hxs
    obtain ⟨ht, hmore⟩ := List.forall_mem_cons.mp hmore
    exact .declare _ _ _ ht (h.legible (List.forall_mem_cons.mp hmore).2)
  | assign t _ xs n h =>
    obtain ⟨ht, hmore⟩ := List.forall_mem_cons.mp hxs
    exact .assign _ _ _ ht (h.legible (List.forall_mem_cons.mp hmore).2)
  | update t _ op bin hop xs n h =>
    obtain ⟨ht, hmore⟩ := List.forall_mem_cons.mp hxs
    have hn := h.legible (List.forall_mem_cons.mp hmore).2
    exact .assign _ _ _ ht (.binary _ _ _ _ (Operator.mem_of_compound? hop) (.ident _ _ ht) hn)
  | expression _ _ h => exact h.legible hxs

/-- A row of segments of writable symbols is legible, statement by statement. -/
theorem Segmented.legible (h : Segmented xs ns) (hxs : ∀ x ∈ xs, x.Writable) :
    ∀ n ∈ ns, n.Legible := by
  -- the symbols between the braces of a block
  have hinner {xs : List Symbol} (hxs : ∀ x ∈ .mark "\x7b" :: (xs ++ [.mark "\x7d"]), x.Writable) :
      ∀ x ∈ xs, x.Writable := fun x hx =>
    hxs x (List.mem_cons_of_mem _ (List.mem_append_left _ hx))
  induction h with
  | nil => exact List.forall_mem_nil _
  | skip _ _ _ ih => exact ih (List.forall_mem_cons.mp hxs).2
  | last _ _ h => exact List.forall_mem_singleton.mpr (h.legible hxs)
  | next _ _ _ _ h _ ih =>
    obtain ⟨hfirst, hmore⟩ := List.forall_mem_append.mp hxs
    exact List.forall_mem_cons.mpr
      ⟨h.legible hfirst, ih (List.forall_mem_cons.mp hmore).2⟩
  | blockLast _ _ _ ih => exact List.forall_mem_singleton.mpr (.block _ _ (ih (hinner hxs)))
  | blockNext _ _ _ _ _ _ ih ih' =>
    obtain ⟨hblock, hmore⟩ := List.forall_mem_append.mp hxs
    exact List.forall_mem_cons.mpr
      ⟨.block _ _ (ih (hinner hblock)), ih' (List.forall_mem_cons.mp hmore).2⟩

end

/-- What the reducer reads is legible. -/
theorem legible_of_reducer {source : Text} {p : Program}
    (h : readProgram .reducer source = .ok p) : ∀ n ∈ p.stmts, n.cleared.Legible := by
  obtain ⟨tokens, groups, forest, htokens, hgroups, hforest, hlower⟩ := readProgram_reducer.mp h
  obtain ⟨raw, -, -, -, -, hproper⟩ := lexemes_of_tokenize htokens
  have hsegmented := segmented_of_lower hproper hgroups hforest hlower
  exact List.forall_mem_map.mp (hsegmented.legible (writable_of_tokenize htokens))

/-! ## §4 Programs of one dump -/

/-- **What is read is legible**, whichever way. -/
theorem legible_of_readProgram {strategy : Strategy} {source : Text} {p : Program}
    (h : readProgram strategy source = .ok p) : p.toNode.cleared.Legible := by
  refine .block _ _ (Grammar.shown_all ?_)
  cases strategy with
  | combinator => exact Grammar.shown_of_parse (mapError_eq_ok.mp h)
  | reducer => exact legible_of_reducer h
  | unknown => cases h

namespace Node

mutual

/-- Places are not dumped. -/
theorem sexpr_cleared : ∀ n : Node, n.cleared.sexpr = n.sexpr
  -- a node without parts is dumped by itself, every other from the dumps of its parts
  | .missing | .number _ _ | .string _ _ | .ident _ _ | .prototype _ _ _ => rfl
  | .unary _ x _ | .declare _ x _ | .assign _ x _ | .assert x _ => by
    rw [cleared, sexpr, sexpr, sexpr_cleared x]
  | .binary _ x y _ | .loop x y _ => by
    rw [cleared, sexpr, sexpr, sexpr_cleared x, sexpr_cleared y]
  | .giveBack x _ => by
    rw [cleared, sexpr_giveBack, sexpr_giveBack, isMissing_cleared, sexpr_cleared x]
  | .choice c x y _ => by
    rw [cleared, sexpr_choice, sexpr_choice, isMissing_cleared, sexpr_cleared c, sexpr_cleared x,
      sexpr_cleared y]
  | .call _ xs _ | .block xs _ | .function _ _ xs _ _ | .main xs _ => by
    rw [cleared, sexpr, sexpr, sexprs_clearedAll xs]

/-- The expressions of statements have no places. -/
theorem sexprs_clearedAll : ∀ xs : List Node, sexprs (clearedAll xs) = sexprs xs
  | [] => rfl
  | x :: xs => by rw [clearedAll, sexprs, sexprs, sexpr_cleared x, sexprs_clearedAll xs]

end

/-- A legible node has no NaN, so it is the same as itself. -/
theorem Legible.same_self {n : Node} (h : n.Legible) : n.same n = true := by
  induction h with
  | number v _ h => exact h
  | string v => exact beq_self_eq_true v
  | ident n => exact beq_self_eq_true n
  | giveNothing => rfl
  | giveBack _ _ _ ih | assert _ _ _ ih => exact ih
  | block _ _ _ ih | main _ _ _ ih => exact sameAll_self ih
  | call _ _ _ _ _ ih | function _ _ _ _ _ _ _ _ ih => simp [same, sameAll_self ih]
  | unary _ _ _ _ _ ih | declare _ _ _ _ _ ih | assign _ _ _ _ _ ih => simp [same, ih]
  | binary _ _ _ _ _ _ _ ih ih' | choice _ _ _ _ _ ih ih' | loop _ _ _ _ _ ih ih' =>
    simp [same, ih, ih']
  | choiceElse _ _ _ _ _ _ _ ihc ihx ihy => simp [same, ihc, ihx, ihy]

/-- Legible nodes of one dump are equal, places apart. -/
theorem Legible.cleared_eq {a b : Node} (ha : a.Legible) (hb : b.Legible)
    (h : a.sexpr = b.sexpr) : a.cleared = b.cleared := by
  have hchars : a.tree.chars = b.tree.chars := by
    rw [sexpr_eq ha, sexpr_eq hb] at h
    rw [← Text.chars_ofChars a.tree.chars, ← Text.chars_ofChars b.tree.chars]
    exact congrArg Text.chars h
  have htree : a.tree = b.tree := by
    have hnil : a.tree.chars ++ [] = b.tree.chars ++ [] := congrArg (· ++ []) hchars
    exact (SExpr.eq_of_chars _ _ (plain_tree ha) (plain_tree hb) SExpr.follows_nil
      SExpr.follows_nil hnil).1
  -- numbers that are written alike are equal, so there is a way to read them
  let numeral := Function.invFunOn Decimal.chars {v | IsNumber v}
  have hnumeral (v : Float) (hv : IsNumber v) : numeral (Decimal.chars v) = v :=
    Set.InjOn.leftInvOn_invFunOn (fun _ hv _ hw => Decimal.eq_of_chars hv hw) hv
  rw [← node_tree hnumeral ha, htree, node_tree hnumeral hb]

end Node

/-- **The dump of a program identifies it**: programs of one dump differ in places only, whichever
sources and ways of reading they come from. -/
theorem same_of_sexpr {strategy strategy' : Strategy} {source source' : Text} {p p' : Program}
    (h : readProgram strategy source = .ok p) (h' : readProgram strategy' source' = .ok p')
    (hdump : p.toNode.sexpr = p'.toNode.sexpr) : p.toNode.same p'.toNode = true := by
  have hp := legible_of_readProgram h
  have hp' := legible_of_readProgram h'
  rw [← Node.sexpr_cleared p.toNode, ← Node.sexpr_cleared p'.toNode] at hdump
  have hcleared := hp.cleared_eq hp' hdump
  rw [Node.cleared_cleared, Node.cleared_cleared] at hcleared
  exact Node.same_of_cleared hcleared hp'.same_self

/-- Two sources that spell a number and a string in two ways. -/
theorem same_of_sexpr_both :
    let source : Text := "f(-2.50, 'a\nb');"
    let source' : Text := "(f(-2.5, \"a\\nb\"));;"
    let dump : Text := "(block (call f (- 2.5) \"a\\nb\"))"
    ∃ p q, readProgram .combinator source = .ok p ∧ readProgram .reducer source' = .ok q ∧
      p.toNode.sexpr = dump ∧ q.toNode.sexpr = dump ∧ p.toNode.same q.toNode = true := by
  intro source source' dump
  have hfirst : (readProgram .combinator source).toOption.map (·.toNode.sexpr) = some dump := by
    decide +kernel
  have hsecond : (readProgram .reducer source').toOption.map (·.toNode.sexpr) = some dump := by
    decide +kernel
  obtain ⟨p, hp, hpdump⟩ := Option.map_eq_some_iff.mp hfirst
  obtain ⟨q, hq, hqdump⟩ := Option.map_eq_some_iff.mp hsecond
  have hp := toOption_eq_some.mp hp
  have hq := toOption_eq_some.mp hq
  exact ⟨p, q, hp, hq, hpdump, hqdump, same_of_sexpr hp hq (hpdump.trans hqdump.symm)⟩

end Scriptlet
