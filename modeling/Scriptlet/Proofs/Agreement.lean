import Scriptlet.Frontend
import Scriptlet.Proofs.Lowering
import Scriptlet.Proofs.Sameness
import Scriptlet.Proofs.Terminals
import Scriptlet.Proofs.Tokens

/-!
# The two ways to read a program agree

A source without comments that the reducer accepts is spelled by the symbols of its tokens, and
these are segmented into the statements that the reducer finds. The terminals of the grammar have
the same symbols. So the grammar, if it accepts the source, finds the same statements; and it does
accept it where no braces and no empty segments are in its way.

## Contents

- §1 symbols of statements
- §2 what the reducer accepts
- §3 what the grammar reads
- §4 agreement
-/

namespace Scriptlet

/-! ## §1 Symbols of statements -/

/-- The symbols of expressions are known to the grammar. -/
theorem Symbol.readable_of_inExpression {x : Symbol} (h : x.inExpression = true) :
    x.readable = true := by
  cases x with
  | mark t =>
    -- the operators that the grammar lacks stand in no expression
    refine List.all_eq_true.mpr fun op hop => bne_iff_ne.mpr ?_
    rintro rfl
    revert h
    revert op
    decide
  | _ => rfl

theorem Derives.readable {k : Nat} {xs : List Symbol} {n : Node} (h : Derives k xs n) :
    ∀ x ∈ xs, x.readable = true :=
  fun x hx => Symbol.readable_of_inExpression (h.inExpression x hx)

theorem Simple.readable {xs : List Symbol} {n : Node} (h : Simple xs n) :
    ∀ x ∈ xs, x.readable = true := by
  -- each form is put together from words, signs and expressions
  cases h with
  | giveNothing => exact List.forall_mem_singleton.mpr rfl
  | giveBack _ _ h => exact List.forall_mem_cons.mpr ⟨rfl, h.readable⟩
  | declare _ _ _ _ _ _ h =>
    refine List.forall_mem_cons.mpr ⟨rfl, List.forall_mem_cons.mpr ⟨rfl, ?_⟩⟩
    exact List.forall_mem_cons.mpr ⟨by decide, h.readable⟩
  | assign _ _ _ _ h =>
    refine List.forall_mem_cons.mpr ⟨rfl, ?_⟩
    exact List.forall_mem_cons.mpr ⟨by decide, h.readable⟩
  | update _ _ op bin hop _ _ h =>
    have hreadable : (Symbol.mark op.spelling).readable = true := by
      cases op <;> first | decide | cases hop
    refine List.forall_mem_cons.mpr ⟨rfl, ?_⟩
    exact List.forall_mem_cons.mpr ⟨hreadable, h.readable⟩
  | expression _ _ h => exact h.readable

/-- Whatever the reducer accepts is made of symbols that the grammar knows. -/
theorem Segmented.readable {xs : List Symbol} {ns : List Node} (h : Segmented xs ns) :
    ∀ x ∈ xs, x.readable = true := by
  -- semicolons and braces are symbols of the grammar, and so is all between them
  induction h with
  | nil => simp
  | skip _ _ _ ih => exact List.forall_mem_cons.mpr ⟨by decide, ih⟩
  | last _ _ h => exact h.readable
  | next _ _ _ _ h _ ih =>
    refine List.forall_mem_append.mpr ⟨h.readable, ?_⟩
    exact List.forall_mem_cons.mpr ⟨by decide, ih⟩
  | blockLast _ _ _ ih => exact forall_mem_between (by decide) (by decide) ih
  | blockNext _ _ _ _ _ _ ih ih' =>
    refine List.forall_mem_append.mpr ⟨forall_mem_between (by decide) (by decide) ih, ?_⟩
    exact List.forall_mem_cons.mpr ⟨by decide, ih'⟩

/-- Statements are made of symbols that the grammar knows. -/
theorem Stated.readable {xs : List Symbol} {n : Node} (h : Stated xs n) :
    ∀ x ∈ xs, x.readable = true := by
  -- what is common to the forms: a body in braces, and a condition in parentheses in front of one
  have hbody {parts : List (List Symbol × Node)} (ih : ∀ a ∈ parts, ∀ x ∈ a.1, x.readable = true) :
      ∀ x ∈ .mark "\x7b" :: (parts.flatMap Prod.fst ++ [.mark "\x7d"]), x.readable = true := by
    refine forall_mem_between (by decide) (by decide) fun x hx => ?_
    obtain ⟨a, ha, hx⟩ := List.mem_flatMap.mp hx
    exact ih a ha x hx
  have hcond {cs ys : List Symbol} {c : Node} (hc : Derives 7 cs c)
      (hys : ∀ x ∈ ys, x.readable = true) :
      ∀ x ∈ .mark "(" :: (cs ++ [.mark ")"]) ++ ys, x.readable = true :=
    List.forall_mem_append.mpr ⟨forall_mem_between (by decide) (by decide) hc.readable, hys⟩
  induction h with
  | simple _ _ h =>
    exact List.forall_mem_append.mpr ⟨h.readable, List.forall_mem_singleton.mpr (by decide)⟩
  | block _ _ ih => exact hbody ih
  | choice _ _ hc _ _ _ ih | loop _ _ hc _ _ _ ih =>
    exact List.forall_mem_cons.mpr ⟨rfl, hcond hc ih⟩
  | choiceElse _ _ hc _ _ _ _ _ _ _ ihx ihy =>
    refine List.forall_mem_cons.mpr ⟨rfl, hcond hc ?_⟩
    exact List.forall_mem_append.mpr ⟨ihx, List.forall_mem_cons.mpr ⟨rfl, ihy⟩⟩
  | function _ _ _ params _ _ _ ih | main params _ _ _ ih =>
    have hnames : ∀ xs ∈ params.map fun p => [Symbol.word p], ∀ x ∈ xs, x.readable = true :=
      List.forall_mem_map.mpr fun p _ => List.forall_mem_singleton.mpr rfl
    have hparams : ∀ x ∈ Symbol.mark "(" ::
        (commas (params.map fun p => [Symbol.word p]) ++ [Symbol.mark ")"]), x.readable = true :=
      forall_mem_between (by decide) (by decide) (forall_mem_commas (by decide) hnames)
    refine List.forall_mem_cons.mpr ⟨rfl, List.forall_mem_cons.mpr ⟨rfl, ?_⟩⟩
    exact List.forall_mem_append.mpr ⟨hparams, hbody ih⟩

/-! ## §2 What the reducer accepts -/

/-- The steps on the way from a source to its program. -/
theorem readProgram_reducer {source : Text} {q : Program} :
    readProgram .reducer source = .ok q ↔
      ∃ tokens groups forest, tokenize source = .ok tokens ∧ foldGroups tokens = .ok groups ∧
        reduce groups = .ok forest ∧ lower forest = .ok q := by
  constructor
  · intro h
    obtain ⟨forest, hforest, hq⟩ := bind_eq_ok.mp h
    obtain ⟨groups, hgroups, hforest⟩ := bind_eq_ok.mp (mapError_eq_ok.mp hforest)
    obtain ⟨tokens, htokens, hgroups⟩ := bind_eq_ok.mp hgroups
    exact ⟨tokens, groups, forest, mapError_eq_ok.mp htokens, mapError_eq_ok.mp hgroups,
      mapError_eq_ok.mp hforest, mapError_eq_ok.mp hq⟩
  · rintro ⟨tokens, groups, forest, htokens, hgroups, hforest, hq⟩
    -- no step changes what the one before it gives, only how its errors are called
    have hgroupsOf : groupsOf source = .ok groups :=
      bind_eq_ok.mpr ⟨tokens, mapError_eq_ok.mpr htokens, mapError_eq_ok.mpr hgroups⟩
    have hforestOf : forestOf source = .ok forest :=
      bind_eq_ok.mpr ⟨groups, hgroupsOf, mapError_eq_ok.mpr hforest⟩
    exact bind_eq_ok.mpr ⟨forest, mapError_eq_ok.mpr hforestOf, mapError_eq_ok.mpr hq⟩

/-- A source without comments that the reducer accepts is spelled by segments with the statements of
its program. -/
theorem segmented_of_reducer {source : Text} {marks : List Mark} {tokens : List Token}
    {q : Program} (hmarks : Mark.ofText source = .ok marks)
    (hfree : stripComments .code marks = .ok marks) (htokens : tokenize source = .ok tokens)
    (hq : readProgram .reducer source = .ok q) :
    ∃ cs, source.glyphs = glyphsOf cs ∧ Spells cs (tokens.map (·.lexeme.symbol)) ∧
      Segmented (tokens.map (·.lexeme.symbol)) (q.stmts.map Node.cleared) := by
  obtain ⟨tokens', groups, forest, htokens', hgroups, hforest, hlower⟩ := readProgram_reducer.mp hq
  -- the tokens that are given are those that the reducer read
  obtain rfl : tokens = tokens' := Except.ok.inj (htokens.symm.trans htokens')
  obtain ⟨cs, hglyphs, hspells, hproper⟩ := spells_of_tokenize hmarks hfree htokens
  exact ⟨cs, hglyphs, hspells, segmented_of_lower hproper hgroups hforest hlower⟩

/-! ## §3 What the grammar reads -/

/-- A source that has terminals is parsed by them. -/
theorem Grammar.parse_eq {source : Text} {s : Stream} (hs : scanTerminals source = .ok s) :
    Grammar.parse source = Grammar.parseStream s := by
  rw [Grammar.parse, hs]
  rfl

/-- The grammar reads the symbols that are spelled. -/
theorem parse_of_spells {source : Text} {cs : List Char} {xs : List Symbol}
    (hsource : source.glyphs = glyphsOf cs) (hspells : Spells cs xs)
    (hreadable : ∀ x ∈ xs, x.readable = true) :
    ∃ s : Stream, s.left 0 = xs ∧ Grammar.parse source = Grammar.parseStream s := by
  obtain ⟨s, hs, hleft⟩ := scanTerminals_of_spells hsource hspells hreadable
  exact ⟨s, hleft, Grammar.parse_eq hs⟩

/-- The token is a semicolon. -/
def Token.isSemicolon (t : Token) : Bool :=
  match t.lexeme with
  | .operator .semicolon _ => true
  | _ => false

/-- The token is an opening or closing brace. -/
def Token.isBrace (t : Token) : Bool :=
  match t.lexeme with
  | .delimiter .brace _ => true
  | _ => false

/-- No operator is spelled like a delimiter. -/
theorem Operator.spelling_ne_delimiter (op : Operator) (f : Family) (s : Side) :
    op.spelling ≠ Text.ofChar (f.char s) := by
  cases op <;> cases f <;> cases s <;> decide

theorem Token.isSemicolon_of_symbol {t : Token} (h : t.lexeme.symbol = .mark ";") :
    t.isSemicolon = true := by
  obtain ⟨l, index, level, loc⟩ := t
  -- only operators are spelled by a semicolon, since delimiters are other signs
  cases l with
  | operator op fixity =>
    have hspelling : op.spelling = ";" := Symbol.mark.inj h
    obtain rfl : op = .semicolon := by
      clear h
      revert hspelling
      cases op <;> decide
    rfl
  | delimiter f s =>
    exact absurd (Symbol.mark.inj h).symm (Operator.semicolon.spelling_ne_delimiter f s)
  | _ => cases h

theorem Token.isBrace_of_symbol {t : Token} (h : t.lexeme.symbol = .mark "\x7b") :
    t.isBrace = true := by
  obtain ⟨l, index, level, loc⟩ := t
  -- only delimiters are spelled by a brace, and of those only the left one of its family
  cases l with
  | operator op fixity =>
    exact absurd (Symbol.mark.inj h) (op.spelling_ne_delimiter .brace .left)
  | delimiter f s =>
    obtain rfl : f = .brace := by
      have hchar : Text.ofChar (f.char s) = "\x7b" := Symbol.mark.inj h
      clear h
      revert hchar
      cases f <;> cases s <;> decide
    rfl
  | _ => cases h

/-- Tokens without braces, a first semicolon and double semicolons have plain symbols. -/
theorem plain_of_tokens {tokens : List Token}
    (hbrace : ∀ t ∈ tokens, t.isBrace = false)
    (hfirst : tokens.head?.any Token.isSemicolon = false)
    (hdouble : tokens.IsChain fun a b => a.isSemicolon = true → b.isSemicolon = false) :
    Grammar.Plain (tokens.map (·.lexeme.symbol)) := by
  refine ⟨fun hmem => ?_, fun hhead => ?_, ?_⟩
  · obtain ⟨t, ht, hsymbol⟩ := List.mem_map.mp hmem
    -- a symbol is a brace only if its token is, and the same goes for semicolons
    have hopen := Token.isBrace_of_symbol hsymbol
    rw [hbrace t ht] at hopen
    cases hopen
  · rw [List.head?_map] at hhead
    obtain ⟨t, ht, hsymbol⟩ := Option.map_eq_some_iff.mp hhead
    rw [ht, Option.any_some, Token.isSemicolon_of_symbol hsymbol] at hfirst
    cases hfirst
  · refine (List.isChain_map _).mpr (hdouble.imp fun a b hab ha hb => ?_)
    have hsemicolon := Token.isSemicolon_of_symbol hb
    rw [hab (Token.isSemicolon_of_symbol ha)] at hsemicolon
    cases hsemicolon

/-! ## §4 Agreement -/

/-- What both ways read in a source without comments has the same statements, apart from places,
and these are the same as themselves. -/
theorem stmts_of_readers {source : Text} {marks : List Mark} {p q : Program}
    (hmarks : Mark.ofText source = .ok marks) (hfree : stripComments .code marks = .ok marks)
    (hp : readProgram .combinator source = .ok p) (hq : readProgram .reducer source = .ok q) :
    p.stmts.map Node.cleared = q.stmts.map Node.cleared ∧
      ∀ n ∈ q.stmts.map Node.cleared, n.same n = true := by
  obtain ⟨tokens, _, _, htokens, _⟩ := readProgram_reducer.mp hq
  obtain ⟨cs, hglyphs, hspells, hsegmented⟩ := segmented_of_reducer hmarks hfree htokens hq
  obtain ⟨s, hleft, hparse⟩ := parse_of_spells hglyphs hspells hsegmented.readable
  have hstream : Grammar.parseStream s = .ok p := hparse ▸ mapError_eq_ok.mp hp
  exact ⟨Grammar.stmts_of_segmented (hleft ▸ hsegmented) hstream, hsegmented.same_self⟩

/-- **Agreement**: if both ways read a source from which no comment is removed, they read the same
program. -/
theorem readProgram_same {source : Text} {marks : List Mark} {p q : Program}
    (hmarks : Mark.ofText source = .ok marks) (hfree : stripComments .code marks = .ok marks)
    (hp : readProgram .combinator source = .ok p) (hq : readProgram .reducer source = .ok q) :
    p.toNode.same q.toNode = true := by
  obtain ⟨hstmts, hself⟩ := stmts_of_readers hmarks hfree hp hq
  exact Node.sameAll_of_cleared hstmts rfl hself

/-- A declaration with a sign and a power, and a block with slashes in a string. -/
theorem readProgram_same_signs :
    let source : Text := "let x = -2 ** y; \x7b f('//', !x); \x7d"
    ∃ p q, readProgram .combinator source = .ok p ∧ readProgram .reducer source = .ok q ∧
      p.toNode.same q.toNode = true := by
  intro source
  obtain ⟨marks, hmarks⟩ := exists_eq_ok (show (Mark.ofText source).isOk = true by decide +kernel)
  have hfree : stripComments .code marks = .ok marks := by
    have h : (Mark.ofText source >>= stripComments .code) = Mark.ofText source := by decide +kernel
    rwa [hmarks] at h
  obtain ⟨p, hp⟩ := exists_eq_ok
    (show (readProgram .combinator source).isOk = true by decide +kernel)
  obtain ⟨q, hq⟩ := exists_eq_ok (show (readProgram .reducer source).isOk = true by decide +kernel)
  exact ⟨p, q, hp, hq, readProgram_same hmarks hfree hp hq⟩

/-- **Containment**: what the reducer reads, without comments, braces and empty statements, the
grammar reads too. -/
theorem combinator_reads_of_reducer {source : Text} {marks : List Mark} {tokens : List Token}
    {q : Program} (hmarks : Mark.ofText source = .ok marks)
    (hfree : stripComments .code marks = .ok marks) (htokens : tokenize source = .ok tokens)
    (hbrace : ∀ t ∈ tokens, t.isBrace = false)
    (hfirst : tokens.head?.any Token.isSemicolon = false)
    (hdouble : tokens.IsChain fun a b => a.isSemicolon = true → b.isSemicolon = false)
    (hq : readProgram .reducer source = .ok q) :
    ∃ p, readProgram .combinator source = .ok p := by
  -- the symbols of the source fall into segments, and both readers see these symbols
  obtain ⟨cs, hglyphs, hspells, hsegmented⟩ := segmented_of_reducer hmarks hfree htokens hq
  obtain ⟨s, hleft, hparse⟩ := parse_of_spells hglyphs hspells hsegmented.readable
  -- without braces and empty statements the segments are the statements of the grammar
  have hplain := plain_of_tokens hbrace hfirst hdouble
  rw [← hleft] at hsegmented hplain
  obtain ⟨p, hp⟩ := Grammar.parseStream_of_plain hsegmented hplain
  exact ⟨p, mapError_eq_ok.mpr (hparse.trans hp)⟩

/-- Three statements, the last without a semicolon. -/
theorem combinator_reads_of_reducer_three :
    let source : Text := "var x = -1; x += assert(y) / '/*'; return x"
    ∃ p q, readProgram .reducer source = .ok q ∧ readProgram .combinator source = .ok p := by
  intro source
  obtain ⟨marks, hmarks⟩ := exists_eq_ok (show (Mark.ofText source).isOk = true by decide +kernel)
  have hfree : stripComments .code marks = .ok marks := by
    have h : (Mark.ofText source >>= stripComments .code) = Mark.ofText source := by decide +kernel
    rwa [hmarks] at h
  have htokens : tokenize source = .ok ((tokenize source).toOption.getD []) := by decide +kernel
  obtain ⟨q, hq⟩ := exists_eq_ok (show (readProgram .reducer source).isOk = true by decide +kernel)
  obtain ⟨p, hp⟩ := combinator_reads_of_reducer hmarks hfree htokens (by decide +kernel)
    (by decide +kernel) (by decide +kernel) hq
  exact ⟨p, q, hq, hp⟩

end Scriptlet
