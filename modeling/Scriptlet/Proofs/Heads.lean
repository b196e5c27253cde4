import Scriptlet.Proofs.Lifting
import Scriptlet.Proofs.Reduced
import Scriptlet.Proofs.Rendering

/-!
# Expressions behind the start of a statement

A source that is read as one expression is read as the same expression behind `return`, behind a
declaration and behind a sign of assignment, by either strategy.

Both strategies go the same way. What is read derives its symbols; the symbols of the start come in
front of them, and together they are a simple statement. The grammar reads every such statement. The
reducer accepts it, since the row of the expression is reduced behind the start as it is alone; and
what it finds there is settled by the symbols, which can be segmented in one way only.

## Contents

- §1 starts of statements
- §2 behind a start
- §3 the grammar
- §4 the reducer
- §5 both strategies
-/

namespace Scriptlet

/-! ## §1 Starts of statements -/

/-- The start of a statement that goes on with an expression. -/
inductive Head where
  | giveBack
  | declare (k : Keyword) (hk : k = .letWord ∨ k = .varWord) (x : Text) (hx : IsName x)
  | assign (x : Text) (hx : IsName x)
  /-- The result of an operation is stored. -/
  | update (op : Operator) (bin : BinaryOp) (hop : op.compound? = some bin) (x : Text)
      (hx : IsName x)

namespace Head

/-- The text of a start, with a space behind it. -/
def text : Head → Text
  | giveBack => "return "
  | declare k _ x _ => k.spelling ++ " " ++ x ++ " = "
  | assign x _ => x ++ " = "
  | update op _ _ x _ => x ++ " " ++ op.spelling ++ " "

/-- The statement that starts so and goes on with the expression. -/
def apply (e : Node) : Head → Node
  | giveBack => .giveBack e .nowhere
  | declare _ _ x _ => .declare x e .nowhere
  | assign x _ => .assign x e .nowhere
  | update _ bin _ x _ => .assign x (.binary bin (.ident x .nowhere) e .nowhere) .nowhere

/-- The symbols of a start. -/
def symbols : Head → List Symbol
  | giveBack => [.word Keyword.returnWord.spelling]
  | declare k _ x _ => [.word k.spelling, .word x, .mark Operator.assign.spelling]
  | assign x _ => [.word x, .mark Operator.assign.spelling]
  | update op _ _ x _ => [.word x, .mark op.spelling]

variable (head : Head)

theorem leads : ∀ x ∈ head.symbols, x.Leads := by
  have hname {x : Text} (hx : IsName x) : (Symbol.word x).Leads := .text hx.utf8 hx.word
  have hassign : (Symbol.mark Operator.assign.spelling).Leads := .sign .assign rfl
  cases head with
  | giveBack => exact List.forall_mem_singleton.mpr (.reserved .returnWord)
  | declare k hk x hx =>
    refine List.forall_mem_cons.mpr ⟨.reserved k, List.forall_mem_cons.mpr ⟨hname hx, ?_⟩⟩
    exact List.forall_mem_singleton.mpr hassign
  | assign x hx =>
    exact List.forall_mem_cons.mpr ⟨hname hx, List.forall_mem_singleton.mpr hassign⟩
  | update op bin hop x hx =>
    refine List.forall_mem_cons.mpr ⟨hname hx, List.forall_mem_singleton.mpr (.sign op ?_)⟩
    rw [Operator.stores, hop]
    exact Bool.or_true _

/-- A start stands in front of a text as its symbols do. -/
theorem text_append (source : Text) : head.text ++ source = Text.behind head.symbols source := by
  have hword {x : Text} (hx : x.isUtf8 = true) (t : Text) :
      (Symbol.word x).before t = x ++ " " ++ t := by
    rw [Symbol.before, Symbol.chars, Text.ofChars_chars hx]
  have hsign (op : Operator) (t : Text) :
      (Symbol.mark op.spelling).before t = op.spelling ++ " " ++ t := by
    rw [Symbol.before, Symbol.chars, Operator.chars_spelling]
    rfl
  have hreserved (k : Keyword) : k.spelling.isUtf8 = true := by
    cases k <;> decide
  have hassign : (" = " : Text) = " " ++ Operator.assign.spelling ++ " " := by decide
  -- each kind of start is written with a space behind each of its symbols
  cases head with
  | giveBack =>
    show ("return " : Text) ++ source = (Symbol.word Keyword.returnWord.spelling).before source
    rw [hword (hreserved .returnWord)]
    rfl
  | declare k hk x hx =>
    show k.spelling ++ " " ++ x ++ " = " ++ source = (Symbol.word k.spelling).before
      ((Symbol.word x).before ((Symbol.mark Operator.assign.spelling).before source))
    rw [hword (hreserved k), hword hx.utf8, hsign, hassign]
    simp only [List.append_assoc]
  | assign x hx =>
    show x ++ " = " ++ source
      = (Symbol.word x).before ((Symbol.mark Operator.assign.spelling).before source)
    rw [hword hx.utf8, hsign, hassign]
    simp only [List.append_assoc]
  | update op bin hop x hx =>
    show x ++ " " ++ op.spelling ++ " " ++ source
      = (Symbol.word x).before ((Symbol.mark op.spelling).before source)
    rw [hword hx.utf8, hsign]
    simp only [List.append_assoc]

/-! ## §2 Behind a start -/

variable {xs : List Symbol} {e : Node}

/-- Behind a start the symbols of an expression are a simple statement. -/
theorem simple (h : Derives 7 xs e.cleared) :
    Simple (head.symbols ++ xs) (head.apply e).cleared := by
  cases head with
  | giveBack => exact .giveBack xs e.cleared h
  | declare k hk x hx => exact .declare k hk x hx.free xs e.cleared h
  | assign x hx => exact .assign x hx.free xs e.cleared h
  | update op bin hop x hx => exact .update x hx.free op bin hop xs e.cleared h

/-- There are neither braces nor semicolons in a start. -/
theorem plain (h : Derives 7 xs e.cleared) : Grammar.Plain (head.symbols ++ xs) := by
  have hfree {y : Symbol} (hy : y = .mark ";" ∨ y = .mark "\x7b") : y ∉ head.symbols ++ xs := by
    intro hmem
    -- a start is made of leading symbols, and an expression has neither sign
    rcases List.mem_append.mp hmem with hmem | hmem
    · cases head.leads y hmem with
      | word w _ => rcases hy with hy | hy <;> cases hy
      | sign op hop =>
        revert hop
        rcases hy with hy | hy <;> cases op <;> revert hy <;> decide
    · have hin := h.inExpression y hmem
      rcases hy with rfl | rfl <;> revert hin <;> decide
  exact .of_not_mem (hfree (.inr rfl)) (hfree (.inl rfl))

end Head

/-! ## §3 The grammar -/

section

variable {source : Text} {p : Program} {e : Node} {xs : List Symbol}

/-- The grammar reads an expression behind a start of a statement. -/
theorem combinator_reads_behind (head : Head) {s : Stream} (hs : scanTerminals source = .ok s)
    (hread : readProgram .combinator source = .ok p) (hp : p.stmts = [e])
    (he : e.isStatement = false) (hsemicolon : .mark ";" ∉ s.left 0) :
    ∃ q, readProgram .combinator (head.text ++ source) = .ok q ∧
      q.stmts.map Node.cleared = [(head.apply e).cleared] := by
  have hstream : Grammar.parseStream s = .ok p := by
    have hparse := mapError_eq_ok.mp hread
    rwa [Grammar.parse_eq hs] at hparse
  have hderives := Grammar.derives_of_accepted (proper_of_scanTerminals hs) hstream hp he hsemicolon
  obtain ⟨s', hs', hleft⟩ := scanTerminals_behind head.leads hs
  -- behind the start the symbols are one simple statement
  have hsegmented : Segmented (s'.left 0) [(head.apply e).cleared] := by
    rw [hleft]
    exact .last _ _ (head.simple hderives)
  obtain ⟨q, hq⟩ := Grammar.parseStream_of_plain hsegmented (hleft ▸ head.plain hderives)
  refine ⟨q, mapError_eq_ok.mpr ?_, Grammar.stmts_of_segmented hsegmented hq⟩
  rw [head.text_append, Grammar.parse_eq hs']
  exact hq

/-! ## §4 The reducer -/

theorem Keyword.lexeme_spelling (k : Keyword) : (Symbol.word k.spelling).lexeme = .keyword k := by
  cases k <;> decide

theorem IsName.lexeme {x : Text} (h : IsName x) : (Symbol.word x).lexeme = .name x := by
  rw [Symbol.lexeme, ofWord_of_not_reserved h.free]

theorem Operator.tier?_of_compound? {op : Operator} {bin : BinaryOp}
    (h : op.compound? = some bin) : op.tier? = some .assignment ∧ op.fixity = .dual := by
  cases op <;> first | exact ⟨rfl, rfl⟩ | cases h

/-- The lexemes of a start. -/
def Head.lexemes : Head → List Lexeme
  | .giveBack => [.keyword .returnWord]
  | .declare k _ x _ => [.keyword k, .name x, .operator .assign .dual]
  | .assign x _ => [.name x, .operator .assign .dual]
  | .update op _ _ x _ => [.name x, .operator op .dual]

theorem Head.map_lexeme (head : Head) : head.symbols.map Symbol.lexeme = head.lexemes := by
  have hassign : (Symbol.mark Operator.assign.spelling).lexeme = .operator .assign .dual :=
    Symbol.lexeme_operator .assign
  cases head with
  | giveBack => rw [symbols, List.map_singleton, Keyword.lexeme_spelling, lexemes]
  | declare k hk x hx =>
    simp only [symbols, lexemes, List.map_cons, List.map_nil, Keyword.lexeme_spelling, hx.lexeme,
      hassign]
  | assign x hx => simp only [symbols, lexemes, List.map_cons, List.map_nil, hx.lexeme, hassign]
  | update op bin hop x hx =>
    have hop : (Symbol.mark op.spelling).lexeme = .operator op .dual := by
      rw [Symbol.lexeme_operator, (Operator.tier?_of_compound? hop).2]
    simp only [symbols, lexemes, List.map_cons, List.map_nil, hx.lexeme, hop]

/-- No sign is marked in a start, and no operand is at its end. -/
theorem Head.marked_append (head : Head) (ls : List Lexeme) :
    marked false (head.lexemes ++ ls) = head.lexemes ++ marked false ls := by
  cases head with
  | update op => cases op <;> rfl
  | _ => rfl

/-- A start and a phrase are a program. -/
theorem lower_of_head (head : Head) {tokens : List Token} {ls : List Lexeme}
    (hphrase : Phrase false ls) (htokens : tokens.map Token.lexeme = head.lexemes ++ ls) :
    ∃ groups forest p, foldGroups tokens = .ok groups ∧ reduce groups = .ok forest ∧
      lower forest = .ok p := by
  have hpaired : Paired [] (tokens.map Token.lexeme) := by
    have hall := hphrase.paired .nil
    rw [List.append_nil] at hall
    rw [htokens]
    cases head with
    | giveBack => exact .plain _ _ _ rfl hall
    | declare => exact .plain _ _ _ rfl (.plain _ _ _ rfl (.plain _ _ _ rfl hall))
    | assign | update => exact .plain _ _ _ rfl (.plain _ _ _ rfl hall)
  -- a name, a sign of assignment and the phrase
  have hstore {ts : List Token} {op : Operator} {x : Text} (htier : op.tier? = some .assignment)
      (hts : ts.map Token.lexeme = .name x :: .operator op .dual :: ls) :
      ∃ forest t n, Builds ts forest ∧ runPasses forest = .ok [t] ∧ lowerStatement t = .ok n := by
    obtain ⟨⟨_, i, level, loc⟩, _, rfl, rfl, hmore⟩ := List.map_eq_cons_iff.mp hts
    obtain ⟨⟨_, j, level', loc'⟩, us, rfl, rfl, hus⟩ := List.map_eq_cons_iff.mp hmore
    obtain ⟨forest, hbuilds, hrow⟩ := hphrase.builds hus
    obtain ⟨t, ht, hpasses⟩ := runPasses_assignment htier j level' loc' passes_name rfl hrow
    obtain ⟨n, hn⟩ := lowerStatement_assign ht
    exact ⟨_, _, n, (hbuilds.cons rfl).cons rfl, hpasses, hn⟩
  refine lower_of_builds hpaired fun ts hts => ?_
  rw [htokens] at hts
  cases head with
  | giveBack =>
    obtain ⟨⟨_, i, level, loc⟩, us, rfl, rfl, hus⟩ := List.map_eq_cons_iff.mp hts
    obtain ⟨forest, hbuilds, hrow⟩ := hphrase.builds hus
    obtain ⟨t, c, -, ht, hpasses, hbears⟩ := runPasses_keyword i level hrow
    obtain ⟨n, hn⟩ := lowerStatement_giveBack hbears ht
    exact ⟨_, c, n, hbuilds.cons rfl, hpasses, hn⟩
  | declare k hk x hx =>
    obtain ⟨⟨_, i, level, loc⟩, _, rfl, rfl, hmore⟩ := List.map_eq_cons_iff.mp hts
    obtain ⟨⟨_, i', level', loc'⟩, _, rfl, rfl, hlast⟩ := List.map_eq_cons_iff.mp hmore
    obtain ⟨⟨_, j, level'', loc''⟩, us, rfl, rfl, hus⟩ := List.map_eq_cons_iff.mp hlast
    obtain ⟨forest, hbuilds, hrow⟩ := hphrase.builds hus
    have htier : Operator.assign.tier? = some .assignment := rfl
    obtain ⟨t, ht, hpasses⟩ :=
      runPasses_assignment htier j level'' loc'' passes_keyword_name rfl hrow
    obtain ⟨n, hn⟩ := lowerStatement_declare hk ht
    exact ⟨_, _, n, ((hbuilds.cons rfl).cons rfl).cons rfl, hpasses, hn⟩
  | assign x hx => exact hstore rfl hts
  | update op bin hop x hx => exact hstore (Operator.tier?_of_compound? hop).1 hts

/-- Symbols that can be written have one segmentation, if nothing stops the grammar in it. -/
theorem Segmented.unique {ns ms : List Node} (h : Segmented xs ns) (h' : Segmented xs ms)
    (hplain : Grammar.Plain xs) (hwritable : ∀ x ∈ xs, x.Writable) : ns = ms := by
  have hsource : (spaced xs).glyphs = glyphsOf (spacedChars xs) := by
    rw [spaced_eq_ofChars, Text.glyphs_ofChars]
  obtain ⟨s, -, hleft⟩ := scanTerminals_of_spells hsource (spells_spaced hwritable) h.readable
  rw [← hleft] at h h' hplain
  -- both are what the grammar reads in the written symbols
  obtain ⟨p, hp⟩ := Grammar.parseStream_of_plain h hplain
  rw [← Grammar.stmts_of_segmented h hp, Grammar.stmts_of_segmented h' hp]

/-- The reducer reads an expression behind a start of a statement. -/
theorem reducer_reads_behind (head : Head) {tokens : List Token}
    (htokens : tokenize source = .ok tokens) (hread : readProgram .reducer source = .ok p)
    (hp : p.stmts = [e]) (he : e.isStatement = false)
    (hsemicolon : .mark ";" ∉ tokens.map (·.lexeme.symbol)) :
    ∃ q, readProgram .reducer (head.text ++ source) = .ok q ∧
      q.stmts.map Node.cleared = [(head.apply e).cleared] := by
  obtain ⟨xs, hraw, hderives, hrange, hwritable⟩ :=
    derives_of_reduced htokens hread hp he hsemicolon
  obtain ⟨ms, hms, hphrase⟩ := hderives.readsAs hrange []
  have hbehind : rawLexemes (head.text ++ source)
      = some ((head.symbols ++ xs).map Symbol.lexeme) := by
    rw [head.text_append, rawLexemes_behind head.leads, hraw, List.map_append]
    rfl
  obtain ⟨tokens', htokens', hlexemes⟩ := tokenize_eq_ok.mpr ⟨_, hbehind, rfl⟩
  -- the start leaves the marks of the expression as they are
  have hwhole : tokens'.map Token.lexeme = head.lexemes ++ ms := by
    rw [hlexemes, List.map_append, head.map_lexeme, head.marked_append]
    simpa [marked] using hms
  obtain ⟨groups, forest, q, hgroups, hforest, hlower⟩ := lower_of_head head hphrase hwhole
  refine ⟨q, readProgram_reducer.mpr ⟨tokens', groups, forest, htokens', hgroups, hforest, hlower⟩,
    ?_⟩
  -- what is read there is settled by the symbols
  have hscanned := scanned_of_rawLexemes hbehind
  obtain ⟨hkept, hproper⟩ := marked_keeps false hscanned
  rw [← hlexemes] at hkept hproper
  have hall : ∀ x ∈ head.symbols ++ xs, x.Writable :=
    List.forall_mem_append.mpr ⟨fun x hx => (head.leads x hx).writable, hwritable⟩
  have hsymbols : tokens'.map (·.lexeme.symbol) = head.symbols ++ xs := by
    rw [List.map_map, List.map_map] at hkept
    rw [← List.map_id (head.symbols ++ xs)]
    exact hkept.trans (List.map_congr_left fun x hx => (hall x hx).symbol_lexeme)
  have hsegmented := segmented_of_lower (fun t ht => hproper _ (List.mem_map_of_mem ht)) hgroups
    hforest hlower
  rw [hsymbols] at hsegmented
  exact hsegmented.unique (.last _ _ (head.simple hderives)) (head.plain hderives) hall

end

/-! ## §5 Both strategies -/

/-- The symbols that a strategy scans in a source: those of its terminals or of its tokens. -/
def Strategy.symbols (source : Text) : Strategy → List Symbol
  | .combinator => ((scanTerminals source).toOption.map (·.left 0)).getD []
  | .reducer => ((tokenize source).toOption.map (·.map (·.lexeme.symbol))).getD []
  | .unknown _ => []

/-- **Starts of statements do not disturb expressions.** A source without semicolons that is read as
one statement, and that an expression, is read behind `return`, a declaration or a sign of
assignment as the statement with the same expression, apart from places. -/
theorem readProgram_behind_head {strategy : Strategy} {source : Text} {p : Program} {e : Node}
    (hread : readProgram strategy source = .ok p) (hp : p.stmts = [e])
    (he : e.isStatement = false) (hsemicolon : .mark ";" ∉ strategy.symbols source) (head : Head) :
    ∃ q n, readProgram strategy (head.text ++ source) = .ok q ∧ q.stmts = [n] ∧
      n.cleared = (head.apply e).cleared := by
  -- the two strategies read the source in ways of their own
  obtain ⟨q, hq, hstmts⟩ : ∃ q, readProgram strategy (head.text ++ source) = .ok q ∧
      q.stmts.map Node.cleared = [(head.apply e).cleared] := by
    cases strategy with
    | combinator =>
      obtain ⟨s, hs⟩ : ∃ s, scanTerminals source = .ok s := by
        obtain ⟨s, hs, -⟩ := bind_eq_ok.mp (mapError_eq_ok.mp hread)
        exact ⟨s, mapError_eq_ok.mp hs⟩
      refine combinator_reads_behind head hs hread hp he ?_
      rwa [Strategy.symbols, hs] at hsemicolon
    | reducer =>
      obtain ⟨tokens, -, -, htokens, -⟩ := readProgram_reducer.mp hread
      refine reducer_reads_behind head htokens hread hp he ?_
      rwa [Strategy.symbols, htokens] at hsemicolon
    | unknown => cases hread
  obtain ⟨n, hn, hcleared⟩ := List.map_eq_singleton_iff.mp hstmts
  exact ⟨q, n, hq, hn, hcleared⟩

/-- A power with a sign before it, a comment and a string with a semicolon, in a declaration. -/
theorem readProgram_behind_let :
    let source : Text := "-a ** f('x;', !b) - 2 /* ; */ < d"
    ∀ strategy ∈ [Strategy.combinator, .reducer], ∃ p e q n,
      readProgram strategy source = .ok p ∧ p.stmts = [e] ∧
        readProgram strategy ("let y = " ++ source) = .ok q ∧ q.stmts = [n] ∧
          n.cleared = (Node.declare "y" e .nowhere).cleared := by
  intro source strategy hstrategy
  have hone : ∀ strategy ∈ [Strategy.combinator, .reducer],
      (readProgram strategy source).map (·.stmts.map Node.isStatement) = .ok [false] := by
    decide +kernel
  have hfree : ∀ strategy ∈ [Strategy.combinator, .reducer],
      .mark ";" ∉ strategy.symbols source := by decide +kernel
  obtain ⟨p, hread, hforms⟩ := exists_of_map_eq_ok (hone strategy hstrategy)
  obtain ⟨e, hp, he⟩ := List.map_eq_singleton_iff.mp hforms
  have hname : IsName "y" := by decide +kernel
  obtain ⟨q, n, hq, hn, hcleared⟩ := readProgram_behind_head hread hp he (hfree strategy hstrategy)
    (.declare .letWord (.inl rfl) "y" hname)
  exact ⟨p, e, q, n, hread, hp, hq, hn, hcleared⟩

end Scriptlet
