import Scriptlet.Proofs.Accepted
import Scriptlet.Proofs.Agreement
import Scriptlet.Proofs.Relocation

/-!
# What the reducer has read is derivable and can be written

The scanner completes a lexeme only when it is one, whatever comments have been removed on the way:
words are words, numbers are numerals, and each lexeme is the one that its symbol is scanned as. So
the symbols of any tokens can be written again, with a space between them.

A statement that is none of the forms that statements have of their own was lowered as an
expression. Where a whole source without semicolons is one such statement, the symbols of its tokens
derive it, and its numbers are in range, since each of them was read.

## Contents

- §1 lexemes as they are scanned
- §2 what is pending
- §3 lexemes of texts
- §4 numbers that were read
- §5 sources that are one expression
-/

namespace Scriptlet

/-! ## §1 Lexemes as they are scanned -/

/-- A symbol that can be written is that of its lexeme. -/
theorem Symbol.Writable.symbol_lexeme {x : Symbol} (h : x.Writable) : x.lexeme.symbol = x := by
  cases h with
  | word w _ => exact (Lexeme.ofWord_proper _).1
  | number | string => rfl
  | operator op =>
    rw [Symbol.lexeme_operator]
    rfl
  | delimiter f s =>
    rw [Symbol.lexeme_delimiter]
    rfl

/-- The lexeme is what its symbol is scanned as, and the symbol can be written. -/
structure Lexeme.Scanned (x : Lexeme) : Prop where
  writable : x.symbol.Writable
  lexeme : x.symbol.lexeme = x

namespace Lexeme

/-- Words are scanned to names and keywords. -/
theorem Scanned.ofWord {w : List Char} (h : IsWord w) :
    (Lexeme.ofWord (Text.ofChars w)).Scanned := by
  obtain ⟨hsymbol, -⟩ := ofWord_proper (Text.ofChars w)
  refine ⟨?_, ?_⟩
  · rw [hsymbol]
    exact .word w h
  · rw [hsymbol, Symbol.lexeme]

theorem Scanned.number {w : List Char} (h : Numeral w) :
    (Lexeme.number (Text.ofChars w)).Scanned :=
  ⟨.number w h, rfl⟩

/-- The scanner says of a string that it is null if it has read no character between the quotes. -/
theorem Scanned.string (cs : List Char) :
    (Lexeme.string (Text.ofChars cs.reverse) cs.isEmpty).Scanned := by
  refine ⟨.string _ ?_, ?_⟩
  · rw [Text.isUtf8, Text.glyphs_ofChars]
    simp
  · rw [Lexeme.symbol, Symbol.lexeme, Text.isEmpty_ofChars, List.isEmpty_reverse]

theorem Scanned.operator (op : Operator) : (Lexeme.operator op op.fixity).Scanned :=
  ⟨.operator op, Symbol.lexeme_operator op⟩

theorem Scanned.delimiter (f : Family) (s : Side) : (Lexeme.delimiter f s).Scanned :=
  ⟨.delimiter f s, Symbol.lexeme_delimiter f s⟩

/-- What is scanned is a proper lexeme. -/
theorem Scanned.proper {x : Lexeme} (h : x.Scanned) : x.Proper := by
  cases x with
  | name t =>
    obtain ⟨-, hproper⟩ := ofWord_proper t
    have hname : Lexeme.ofWord t = .name t := h.lexeme
    rwa [hname] at hproper
  | number t =>
    cases h.writable with
    | number w hw => exact ⟨w, hw, rfl⟩
  | _ => trivial

end Lexeme

/-! ## §2 What is pending -/

/-- What is pending is the start of what it says. -/
def Pending.Sound : Pending → Prop
  | .word cs _ => IsWord cs.reverse
  | .number cs pointed _ => Numeral cs.reverse ∧ (pointed = true ↔ '.' ∈ cs)
  | _ => True

/-- What is complete was scanned, and what is pending is the start of what it says. -/
structure Scan.Sound (s : Scan) : Prop where
  done : ∀ x ∈ s.done, x.1.Scanned
  pending : s.pending.Sound

/-- What goes on stays the start of what it says. -/
theorem Pending.Sound.continues {m : Mark} {p q : Pending} (hp : p.Sound)
    (h : p.Continues m q) : q.Sound := by
  cases h with
  | word cs loc h =>
    show IsWord (m.char :: cs).reverse
    rw [List.reverse_cons]
    exact IsWord.push hp (wordChar_of_markClass h).2
  | number cs pointed loc h =>
    cases Mark.seen_of_markClass h with
    | digit _ hc =>
      -- a digit is no point, so the number has as many points as before
      obtain ⟨hnumeral, hpointed⟩ := hp
      have hpoint : m.char ≠ '.' := by
        intro heq
        rw [heq] at hc
        cases hc
      refine ⟨?_, by simp [hpointed, hpoint.symm]⟩
      rw [List.reverse_cons]
      exact hnumeral.push hc
  | point cs loc h hpoint =>
    obtain ⟨hnumeral, hpointed⟩ := hp
    refine ⟨?_, by simp⟩
    rw [List.reverse_cons]
    exact hnumeral.point (by simpa using hpointed)
  | operators => trivial

/-- What a mark begins is sound. -/
theorem Mark.Begins.sound {m : Mark} {p : Pending} (h : m.Begins p) : p.Sound := by
  cases h with
  | word h =>
    cases Mark.seen_of_markClass h with
    | letter _ hc => exact ⟨m.char, [], rfl, hc, by simp⟩
  | number h =>
    cases Mark.seen_of_markClass h with
    | digit _ hc =>
      have hpoint : m.char ≠ '.' := fun heq => by simp [heq, isDecimalDigit] at hc
      exact ⟨.whole [m.char] (by simp) (List.forall_mem_singleton.mpr hc), by simp [hpoint.symm]⟩
  | operators | string => trivial

/-- Operators that are split from a run are scanned ones. -/
theorem scanned_of_splitOperators {passed : Nat} {ms : List Mark} {ps : List Placed}
    (h : splitOperators passed ms = .ok ps) : ∀ x ∈ ps, x.1.Scanned := by
  induction ms generalizing passed ps with
  | nil =>
    cases passed <;> cases h <;> simp
  | cons m ms ih =>
    cases passed with
    | succ passed => exact ih h
    | zero =>
      rw [splitOperators] at h
      split at h
      · cases h
      -- only the mark where an operator starts gives a lexeme
      · next op _ =>
        obtain ⟨more, hmore, heq⟩ := bind_eq_ok.mp h
        cases heq
        exact List.forall_mem_cons.mpr ⟨.operator op, ih hmore⟩

namespace Scan

variable {s s' : Scan} {p : Pending} {m : Mark}

/-- A flush keeps what is scanned sound. -/
theorem Sound.flush (hs : s.Sound) (h : s.flush = .ok s') : s'.Sound := by
  obtain ⟨done, pending⟩ := s
  -- each kind that can be pending becomes a lexeme of its own kind
  cases pending with
  | nothing | string =>
    cases h
    exact hs
  | word cs loc =>
    cases h
    exact ⟨List.forall_mem_cons.mpr ⟨.ofWord hs.pending, hs.done⟩, trivial⟩
  | number cs pointed loc =>
    cases h
    exact ⟨List.forall_mem_cons.mpr ⟨.number hs.pending.1, hs.done⟩, trivial⟩
  | operators ms =>
    obtain ⟨ops, hops, heq⟩ := bind_eq_ok.mp h
    cases heq
    refine ⟨List.forall_mem_append.mpr ⟨fun x hx => ?_, hs.done⟩, trivial⟩
    exact scanned_of_splitOperators hops x (List.mem_reverse.mp hx)

theorem Sound.flushTo (hs : s.Sound) (hp : p.Sound) (h : s.flushTo p = .ok s') : s'.Sound := by
  obtain ⟨t, ht, heq⟩ := bind_eq_ok.mp h
  cases heq
  exact ⟨(hs.flush ht).done, hp⟩

/-- A step in code keeps what is scanned sound. -/
theorem Sound.stepCode (hs : s.Sound) (h : s.stepCode m = .ok s') : s'.Sound := by
  cases codeStep_of_stepCode h with
  | continues hp => exact ⟨hs.done, hs.pending.continues hp⟩
  | begins _ hp hto => exact hs.flushTo hp.sound hto
  | delimiter _ hflush =>
    have hflushed := hs.flush hflush
    exact ⟨List.forall_mem_cons.mpr ⟨.delimiter _ _, hflushed.done⟩, hflushed.pending⟩
  | blank _ hflush => exact hs.flush hflush

theorem Sound.step (hs : s.Sound) (h : s.step m = .ok s') : s'.Sound := by
  unfold Scan.step at h
  split at h
  · next q cs loc hp =>
    split at h
    · cases h
      exact ⟨List.forall_mem_cons.mpr ⟨.string cs, hs.done⟩, trivial⟩
    · cases h
      exact ⟨hs.done, trivial⟩
  · exact hs.stepCode h

/-- A row of steps keeps what is scanned sound, by induction on the marks. -/
theorem Sound.foldlM {ms : List Mark} (hs : s.Sound) (h : ms.foldlM Scan.step s = .ok s') :
    s'.Sound := by
  induction ms generalizing s with
  | nil =>
    cases h
    exact hs
  | cons m ms ih =>
    obtain ⟨t, ht, hmore⟩ := bind_eq_ok.mp h
    exact ih (hs.step ht) hmore

/-- All lexemes of a sound scan are scanned ones. -/
theorem Sound.finish {ps : List Placed} (hs : s.Sound) (h : s.finish = .ok ps) :
    ∀ x ∈ ps, x.1.Scanned := by
  unfold Scan.finish at h
  split at h
  · cases h
  · obtain ⟨t, ht, heq⟩ := bind_eq_ok.mp h
    cases heq
    exact fun x hx => (hs.flush ht).done x (List.mem_reverse.mp hx)

end Scan

/-! ## §3 Lexemes of texts -/

section

variable {source : Text} {raw : List Lexeme}

/-- The lexemes of marks without comments are as their symbols are scanned. -/
theorem scanned_of_scanMarks {kept : List Mark} {ps : List Placed} (h : scanMarks kept = .ok ps) :
    ∀ x ∈ ps, x.1.Scanned := by
  obtain ⟨s, hs, hfinish⟩ := bind_eq_ok.mp h
  have hstart : Scan.start.Sound := ⟨by simp [Scan.start], trivial⟩
  exact (hstart.foldlM hs).finish hfinish

/-- The lexemes of a text are as their symbols are scanned. -/
theorem scanned_of_rawLexemes (h : rawLexemes source = some raw) : ∀ x ∈ raw, x.Scanned := by
  obtain ⟨marks, -, h⟩ := Option.bind_eq_some_iff.mp h
  obtain ⟨kept, -, h⟩ := Option.bind_eq_some_iff.mp h
  obtain ⟨ps, hps, rfl⟩ := Option.map_eq_some_iff.mp h
  exact List.forall_mem_map.mpr (scanned_of_scanMarks (toOption_eq_some.mp hps))

/-- Marking signs changes neither symbols nor names and numbers. -/
theorem marked_keeps (after : Bool) (h : ∀ x ∈ raw, x.Scanned) :
    (marked after raw).map Lexeme.symbol = raw.map Lexeme.symbol ∧
      ∀ x ∈ marked after raw, x.Proper := by
  induction raw generalizing after with
  | nil => exact ⟨rfl, by simp [marked]⟩
  | cons x raw ih =>
    obtain ⟨hx, hraw⟩ := List.forall_mem_cons.mp h
    -- only an operator is marked, and its symbol is its spelling
    cases x with
    | operator op fixity =>
      obtain ⟨hsymbols, hproper⟩ := ih _ hraw
      rw [marked]
      refine ⟨?_, List.forall_mem_cons.mpr ⟨trivial, hproper⟩⟩
      rw [List.map_cons, hsymbols]
      rfl
    | _ =>
      obtain ⟨hsymbols, hproper⟩ := ih _ hraw
      rw [marked]
      · refine ⟨?_, List.forall_mem_cons.mpr ⟨hx.proper, hproper⟩⟩
        rw [List.map_cons, hsymbols, List.map_cons]
      · simp

/-- The tokens of a text are its lexemes with their signs marked, which changes no symbol. -/
theorem lexemes_of_tokenize {tokens : List Token} (h : tokenize source = .ok tokens) :
    ∃ raw, rawLexemes source = some raw ∧ marked false raw = tokens.map Token.lexeme ∧
      (∀ x ∈ raw, x.Scanned) ∧ tokens.map (·.lexeme.symbol) = raw.map Lexeme.symbol ∧
        ∀ t ∈ tokens, t.lexeme.Proper := by
  obtain ⟨raw, hraw, hmarked⟩ := tokenize_eq_ok.mp ⟨tokens, h, rfl⟩
  have hscanned := scanned_of_rawLexemes hraw
  obtain ⟨hkept, hproper⟩ := marked_keeps false hscanned
  rw [hmarked] at hkept hproper
  refine ⟨raw, hraw, hmarked, hscanned, ?_, List.forall_mem_map.mp hproper⟩
  rw [← hkept, List.map_map]
  rfl

/-- The symbols of the tokens of a text can be written. -/
theorem writable_of_tokenize {tokens : List Token} (h : tokenize source = .ok tokens) :
    ∀ x ∈ tokens.map (·.lexeme.symbol), x.Writable := by
  obtain ⟨raw, -, -, hscanned, hsymbols, -⟩ := lexemes_of_tokenize h
  rw [hsymbols]
  exact List.forall_mem_map.mpr fun x hx => (hscanned x hx).writable

/-- The lexemes of a text are those that its symbols are scanned as. -/
theorem map_lexeme_of_scanned (h : ∀ x ∈ raw, x.Scanned) :
    (raw.map Lexeme.symbol).map Symbol.lexeme = raw := by
  rw [List.map_map]
  exact (List.map_congr_left fun x hx => (h x hx).lexeme).trans (List.map_id raw)

end

/-! ## §4 Numbers that were read -/

section

open Scriptlet.Tree

variable {t : Tree} {n : Node}

theorem mem_yieldAll {ts : List Tree} {x : Symbol} (ht : t ∈ ts) (hx : x ∈ t.yield) :
    x ∈ yieldAll ts := by
  obtain ⟨before, behind, rfl⟩ := List.append_of_mem ht
  rw [yieldAll_append, yieldAll]
  simp [hx]

/-- A token that is lowered is in range. -/
theorem inRange_of_lowerToken {u : Token} (h : lowerToken u = .ok n) :
    InRange [u.lexeme.symbol] := by
  refine List.forall_mem_singleton.mpr ?_
  -- names are in range whatever they are, numbers by the range of their values
  unfold lowerToken at h
  split at h
  · next text hx =>
    split at h
    · next v hv =>
      rw [hx, Lexeme.symbol, Symbol.inRange, hv]
      rfl
    · cases h
  · next v hx =>
    rw [hx]
    rfl
  · next name hx =>
    rw [hx]
    rfl
  · cases h

/-- Arguments that are lowered are in range. -/
theorem inRange_of_lowerArgs {callee : Text} {loc : Location} {cs : List Tree} {ns : List Node}
    (h : lowerArgs callee loc cs = .ok ns)
    (hcs : ∀ c ∈ cs, ∀ m, lowerExpr c = .ok m → InRange c.yield) : InRange (yieldAll cs) := by
  cases lowersArgs_of_lowerArgs h with
  | @one c m hm =>
    rw [yieldAll, yieldAll, List.append_nil]
    exact hcs c (by simp) m hm
  | @more c sep rest m ms hcomma hm hms =>
    have hrest := inRange_of_lowerArgs hms fun d hd =>
      hcs d (List.mem_cons_of_mem _ (List.mem_cons_of_mem _ hd))
    -- the arguments are separated by commas, which have no range to keep
    rw [yieldAll, yieldAll, yield_of_isOperator hcomma]
    refine List.forall_mem_append.mpr ⟨hcs c (by simp) m hm, ?_⟩
    exact List.forall_mem_cons.mpr ⟨rfl, hrest⟩

/-- The numbers of a tree that is lowered to an expression are in range, since each was read. -/
theorem inRange_of_lowerExpr (ht : t.Ranked) (h : lowerExpr t = .ok n) : InRange t.yield := by
  induction ht generalizing n with
  | leaf u _ =>
    cases lowersTo_of_lowerExpr h with
    | token h => exact inRange_of_lowerToken h
  | group f cs loc _ ih =>
    rw [yield]
    cases lowersTo_of_lowerExpr h with
    | @group c _ _ h =>
      rw [yieldAll, yieldAll, List.append_nil]
      exact forall_mem_between rfl rfl (ih c (by simp) h)
  | leading op x loc _ _ ih =>
    rw [yield]
    cases lowersTo_of_lowerExpr h with
    | negate _ hm | not _ hm | plus _ hm => exact List.forall_mem_cons.mpr ⟨rfl, ih hm⟩
  | call x cs at_ loc hx _ _ ih =>
    have hargs : InRange (yieldAll cs) := by
      cases lowersTo_of_lowerExpr h with
      | callNone => exact fun x hx => by cases hx
      | call _ _ _ _ _ _ hns => exact inRange_of_lowerArgs hns fun c hc _ => ih c hc
    have hname : InRange x.yield := by
      cases lowersTo_of_lowerExpr h with
      | callNone | call => exact List.forall_mem_singleton.mpr rfl
    rw [yield, yield]
    exact List.forall_mem_append.mpr ⟨hname, forall_mem_between rfl rfl hargs⟩
  | chainLeft tier op x y loc _ _ _ _ _ _ ihx ihy
  | chainRight tier op x y loc _ _ _ _ _ _ ihx ihy =>
    rw [yield]
    cases lowersTo_of_lowerExpr h with
    | between _ _ _ hleft hright =>
      exact List.forall_mem_append.mpr ⟨ihx hleft, List.forall_mem_cons.mpr ⟨rfl, ihy hright⟩⟩
  | keyword | trailing | member | index | function => cases lowersTo_of_lowerExpr h

/-! ## §5 Sources that are one expression -/

/-- A statement without a form of its own was lowered as an expression. -/
theorem lowerExpr_of_lowerStatement (h : lowerStatement t = .ok n) (hn : n.isStatement = false) :
    lowerExpr t = .ok n := by
  have hform {P : Prop} (hform : n.isStatement = true) : P := by
    rw [hn] at hform
    cases hform
  rw [lowerStatement.eq_def] at h
  -- every other form of a statement is one by itself
  split at h
  · obtain ⟨stmts, -, h⟩ := bind_eq_ok.mp h
    cases h
    exact hform rfl
  · cases lowersSimple_of_lowerSimple h with
    | giveBack => exact hform rfl
    | declare _ _ hdeclare =>
      obtain ⟨_, _, _, _, _, _, _, _, _, rfl⟩ := exists_of_lowerDeclaration hdeclare
      exact hform rfl
    | assignment _ hassign =>
      cases lowersAssignment_of_lowerAssignment hassign with
      | assign | update => exact hform rfl
    | expression h => exact h

/-- Without semicolons a single statement is a single tree. -/
theorem eq_singleton_of_lowerStatements {ts : List Tree} (h : lowerStatements ts = .ok [n])
    (hsemicolon : ∀ t ∈ ts, t.isOperator .semicolon = false) :
    ∃ t, ts = [t] ∧ lowerStatement t = .ok n := by
  match ts, h with
  | [], h => cases h
  -- without a semicolon a second tree is juxtaposed to the first, which is refused
  | [t], h =>
    rw [lowerStatements, hsemicolon t (by simp)] at h
    obtain ⟨m, hm, heq⟩ := bind_eq_ok.mp h
    cases heq
    exact ⟨t, rfl, hm⟩
  | t :: next :: rest, h =>
    rw [lowerStatements, hsemicolon t (by simp), hsemicolon next (by simp)] at h
    cases h

end

/-- **What is reduced to one expression is derivable**: without semicolons, the symbols of the
tokens of a source whose only statement has no form of its own derive that statement. They can be
written, and scanned again they are the lexemes of the source. -/
theorem derives_of_reduced {source : Text} {p : Program} {e : Node} {tokens : List Token}
    (htokens : tokenize source = .ok tokens) (hread : readProgram .reducer source = .ok p)
    (hp : p.stmts = [e]) (he : e.isStatement = false)
    (hsemicolon : .mark ";" ∉ tokens.map (·.lexeme.symbol)) :
    ∃ xs, rawLexemes source = some (xs.map Symbol.lexeme) ∧ Derives 7 xs e.cleared ∧
      InRange xs ∧ ∀ x ∈ xs, x.Writable := by
  obtain ⟨raw, hraw, -, hscanned, hsymbols, hproper⟩ := lexemes_of_tokenize htokens
  obtain ⟨tokens', groups, forest, htokens', hgroups, hforest, hlower⟩ :=
    readProgram_reducer.mp hread
  obtain rfl : tokens = tokens' := Except.ok.inj (htokens.symm.trans htokens')
  -- the forest keeps the symbols, so none of its trees is a semicolon
  obtain ⟨hleaves, hgrouped⟩ := yieldAll_of_foldGroups hgroups hproper
  obtain ⟨hyield, hranked⟩ := reduce_keeps hforest hleaves
  obtain ⟨stmts, hstmts, heq⟩ := bind_eq_ok.mp hlower
  cases heq
  obtain rfl : stmts = [e] := hp
  have hfree : ∀ t ∈ forest, t.isOperator .semicolon = false := by
    intro t ht
    refine Bool.eq_false_iff.mpr fun hop => hsemicolon ?_
    rw [← hgrouped, ← hyield]
    refine mem_yieldAll ht ?_
    rw [yield_of_isOperator hop]
    exact List.mem_singleton.mpr rfl
  obtain ⟨t, rfl, ht⟩ := eq_singleton_of_lowerStatements hstmts hfree
  have hexpr := lowerExpr_of_lowerStatement ht he
  have hwhole : t.yield = raw.map Lexeme.symbol := by
    rw [← hsymbols, ← hgrouped, ← hyield, Tree.yieldAll, Tree.yieldAll, List.append_nil]
  refine ⟨raw.map Lexeme.symbol, ?_, ?_, ?_,
    List.forall_mem_map.mpr fun x hx => (hscanned x hx).writable⟩
  · rw [map_lexeme_of_scanned hscanned]
    exact hraw
  · rw [← hwhole]
    exact (lowerExpr_derives (hranked t (by simp)) hexpr).loosest
  · rw [← hwhole]
    exact inRange_of_lowerExpr (hranked t (by simp)) hexpr

end Scriptlet
