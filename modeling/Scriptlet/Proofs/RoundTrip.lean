import Scriptlet.Proofs.Agreement
import Scriptlet.Proofs.Rendering

/-!
# Written programs are read back

The symbols of a written tree derive it, and the text of the symbols spells them. So the grammar,
which reads everything derivable in exactly one way, reads the tree back. The reducer reads
expressions back too: their tokens are a phrase, which it reduces to a program, and what it finds
there agrees with the grammar.

## Contents

- §1 expressions
- §2 programs
-/

namespace Scriptlet

/-! ## §1 Expressions -/

/-- There are neither braces nor semicolons in expressions. -/
theorem Derives.plain {k : Nat} {xs : List Symbol} {n : Node} (h : Derives k xs n) :
    Grammar.Plain xs := by
  apply Grammar.Plain.of_not_mem
  · exact fun hmem => absurd (h.inExpression _ hmem) (by decide)
  · exact fun hmem => absurd (h.inExpression _ hmem) (by decide)

/-- The grammar reads a text of the symbols of an expression as that expression. -/
theorem combinator_reads_spaced {k : Nat} {xs : List Symbol} {n : Node} (h : Derives k xs n)
    (hk : k ≤ 7) (hwritable : ∀ x ∈ xs, x.Writable) :
    ∃ p, readProgram .combinator (spaced xs) = .ok p ∧ p.stmts.map Node.cleared = [n] := by
  have hsegmented : Segmented xs [n] := .last _ _ (.expression _ _ (h.mono hk))
  have hsource : (spaced xs).glyphs = glyphsOf (spacedChars xs) := by
    rw [spaced_eq_ofChars, Text.glyphs_ofChars]
  obtain ⟨s, hleft, hparse⟩ := parse_of_spells hsource (spells_spaced hwritable) h.readable
  -- without braces and semicolons nothing stops the grammar before the end
  have hplain := h.plain
  rw [← hleft] at hsegmented hplain
  obtain ⟨p, hp⟩ := Grammar.parseStream_of_plain hsegmented hplain
  exact ⟨p, mapError_eq_ok.mpr (hparse.trans hp), Grammar.stmts_of_segmented hsegmented hp⟩

/-- The reducer reads a text of the symbols of an expression if its numbers are in range. -/
theorem reducer_reads_spaced {k : Nat} {xs : List Symbol} {n : Node} (h : Derives k xs n)
    (hrange : InRange xs) (hwritable : ∀ x ∈ xs, x.Writable) :
    ∃ q, readProgram .reducer (spaced xs) = .ok q := by
  obtain ⟨marks, tokens, _, _, htokens, hlexemes⟩ := tokenize_spaced hwritable
  obtain ⟨ms, hms, hphrase⟩ := h.readsAs hrange []
  have hwhole : tokens.map Token.lexeme = ms := by
    rw [hlexemes]
    simpa [marked] using hms
  obtain ⟨groups, forest, q, hgroups, hforest, hlower⟩ := lower_of_phrase (hwhole ▸ hphrase)
  exact ⟨q, readProgram_reducer.mpr ⟨tokens, groups, forest, htokens, hgroups, hforest, hlower⟩⟩

/-- **Expressions are read back**: both ways read the text of an expression, if its numbers are in
range, as one statement that is the same as the expression. -/
theorem readProgram_written {numeral : Float → Text} {e : Node} (h : Expressible numeral e)
    (hrange : InRange (e.written numeral)) :
    ∀ strategy ∈ [Strategy.combinator, .reducer], ∃ p s,
      readProgram strategy (spaced (e.written numeral)) = .ok p ∧ p.stmts = [s] ∧
        s.same e = true := by
  -- one statement equal to the expression up to places is the same as it
  have hone : ∀ p : Program, p.stmts.map Node.cleared = [e.cleared] →
      ∃ s, p.stmts = [s] ∧ s.same e = true := by
    intro p hp
    obtain ⟨s, hs, heq⟩ := List.map_eq_singleton_iff.mp hp
    exact ⟨s, hs, Node.same_of_cleared heq h.derives.same_self⟩
  obtain ⟨p, hp, hstmts⟩ := combinator_reads_spaced h.derives h.level_le h.writable
  obtain ⟨q, hq⟩ := reducer_reads_spaced h.derives hrange h.writable
  obtain ⟨marks, _, hmarks, hfree, _⟩ := tokenize_spaced h.writable
  -- what the reducer finds is known from its agreement with the grammar
  obtain ⟨hagree, _⟩ := stmts_of_readers hmarks hfree hp hq
  intro strategy hstrategy
  rcases List.mem_pair.mp hstrategy with rfl | rfl
  · obtain ⟨s, hs, hsame⟩ := hone p hstmts
    exact ⟨p, s, hp, hs, hsame⟩
  · obtain ⟨s, hs, hsame⟩ := hone q (hagree.symm.trans hstmts)
    exact ⟨q, s, hq, hs, hsame⟩

/-- Powers group to the right, differences to the left, and a sign is tighter than a power. -/
theorem readProgram_written_powers :
    let name (t : Text) : Node := .ident t .nowhere
    let call : Node := .call "f" [.string "\"\\" .nowhere, .assert (name "a") .nowhere] .nowhere
    let e : Node := .binary .power
      (.binary .subtract (name "a") (.binary .subtract (name "b") (.number 2.5 .nowhere) .nowhere)
        .nowhere)
      (.binary .power (.unary .negate (name "c") .nowhere) call .nowhere) .nowhere
    let source : Text := "( a - ( b - 2.5 ) ) ** - c ** f ( \"\\\"\\\\\" , assert ( a ) )"
    ∀ strategy ∈ [Strategy.combinator, .reducer], ∃ p s,
      readProgram strategy source = .ok p ∧ p.stmts = [s] ∧ s.same e = true := by
  intro name call e source
  have hnames : ∀ t ∈ (["a", "b", "c", "f"] : List Text), IsName t := by decide +kernel
  have hname : ∀ t ∈ (["a", "b", "c", "f"] : List Text),
      Expressible (fun _ => "2.5") (name t) := fun t ht => .ident t _ (hnames t ht)
  have hnumber : Expressible (fun _ => "2.5") (.number 2.5 .nowhere) := by
    refine .number 2.5 _ ⟨"2.5".toList, ?_, by decide +kernel⟩ (by decide +kernel)
    exact .pointed ['2'] ['5'] (by simp) (List.forall_mem_singleton.mpr (by decide))
      (List.forall_mem_singleton.mpr (by decide))
  have hcall : Expressible (fun _ => "2.5") call := by
    refine .call _ _ _ (hnames "f" (by simp)) (fun hf => absurd hf (by decide)) ?_
    refine List.forall_mem_cons.mpr ⟨.string _ _ (by decide +kernel), ?_⟩
    exact List.forall_mem_singleton.mpr (.assert _ _ (hname "a" (by simp)))
  have he : Expressible (fun _ => "2.5") e := by
    refine .binary _ _ _ _ (by decide) (.binary _ _ _ _ (by decide) (hname "a" (by simp)) ?_) ?_
    · exact .binary _ _ _ _ (by decide) (hname "b" (by simp)) hnumber
    · exact .binary _ _ _ _ (by decide) (.unary _ _ _ (.inr rfl) (hname "c" (by simp))) hcall
  have hsource : spaced (e.written fun _ => "2.5") = source := by decide +kernel
  rw [← hsource]
  exact readProgram_written he (by unfold InRange; decide +kernel)

/-! ## §2 Programs -/

/-- **Programs are read back**: the grammar reads the text of statements as a program that is the
same as the block of them. -/
theorem parse_written {style : Style} {ss : List Node} (h : ∀ s ∈ ss, Formed style s)
    (loc : Location) :
    ∃ p, Grammar.parse (spaced (Node.writtenStmts style ss)) = .ok p ∧
      p.toNode.same (.block ss loc) = true := by
  -- the statements of the program one by one, each with its symbols
  have hparts : ∀ a ∈ style.parts ss, Stated a.1 a.2 :=
    List.forall_mem_map.mpr fun s hs => (h s hs).stated
  have hall : ∀ {P : Symbol → Prop}, (∀ s ∈ ss, ∀ x ∈ s.writtenStmt style, P x) →
      ∀ x ∈ Node.writtenStmts style ss, P x := by
    intro P hP x hx
    rw [Node.writtenStmts_eq_flatMap] at hx
    obtain ⟨s, hs, hx⟩ := List.mem_flatMap.mp hx
    exact hP s hs x hx
  have hsource : (spaced (Node.writtenStmts style ss)).glyphs
      = glyphsOf (spacedChars (Node.writtenStmts style ss)) := by
    rw [spaced_eq_ofChars, Text.glyphs_ofChars]
  obtain ⟨s, hleft, hparse⟩ := parse_of_spells hsource
    (spells_spaced (hall fun s hs => (h s hs).writable)) (hall fun s hs => (h s hs).stated.readable)
  rw [← style.parts_fst] at hleft
  obtain ⟨p, hp, hstmts⟩ := Grammar.parseStream_of_stated hleft hparts
  rw [style.parts_snd] at hstmts
  refine ⟨p, hparse.trans hp, Node.sameAll_of_cleared hstmts rfl ?_⟩
  exact List.forall_mem_map.mpr fun s hs => (h s hs).stated.same_self

/-- Functions with branches, of which one is missing, and a loop without braces. -/
theorem parse_written_branches :
    let n : Node := .ident "n" .nowhere
    let step : Node := .assign "n" (.binary .subtract n (.number 1 .nowhere) .nowhere) .nowhere
    let repeated : Node := .block [.loop n step .nowhere, .giveBack .missing .nowhere] .nowhere
    let f : Node := .function "f" ["n", "m"]
      [.choice n (.giveBack n .nowhere) repeated .nowhere, .choice n step .missing .nowhere]
      .nowhere .nowhere
    let start : Node := .main [.declare "n" (.call "f" [n, n] .nowhere) .nowhere, n] .nowhere
    let source : Text := "function f ( n , m ) \x7b if ( n ) return n ; " ++
      "else \x7b while ( n ) n = n - 1 ; return ; \x7d if ( n ) n = n - 1 ; \x7d " ++
      "function main ( ) \x7b let n = f ( n , n ) ; n ; \x7d"
    ∃ p, Grammar.parse source = .ok p ∧ p.toNode.same (.block [f, start] .nowhere) = true := by
  intro n step repeated f start source
  let style : Style := ⟨fun _ => "1", .letWord, .inl rfl⟩
  have hnames : ∀ t ∈ (["n", "m", "f"] : List Text), IsName t := by decide +kernel
  have hn : Expressible style.numeral n := .ident _ _ (hnames "n" (by simp))
  have hone : Expressible style.numeral (.number 1 .nowhere) := by
    refine .number 1 _ ⟨['1'], ?_, by decide +kernel⟩ (by decide +kernel)
    exact .whole _ (by simp) (List.forall_mem_singleton.mpr (by decide))
  have hstep : Formed style step :=
    .assign _ _ _ (hnames "n" (by simp)) (.binary _ _ _ _ (by decide) hn hone)
  have hrepeated : Formed style repeated := by
    refine .block _ _ (List.forall_mem_cons.mpr ⟨.loop _ _ _ hn hstep, ?_⟩)
    exact List.forall_mem_singleton.mpr (.giveNothing _)
  have hf : Formed style f := by
    refine .function _ _ _ _ _ (hnames "f" (by simp)) (by decide) ?_ ?_
    · exact List.forall_mem_cons.mpr ⟨hnames "n" (by simp),
        List.forall_mem_singleton.mpr (hnames "m" (by simp))⟩
    · refine List.forall_mem_cons.mpr ⟨?_, ?_⟩
      · exact .choiceElse _ _ _ _ hn (.giveBack _ _ hn) rfl hrepeated
      · exact List.forall_mem_singleton.mpr (.choice _ _ _ hn hstep)
  have hcall : Expressible style.numeral (.call "f" [n, n] .nowhere) :=
    .call _ _ _ (hnames "f" (by simp)) (fun hf => absurd hf (by decide)) (by simpa using hn)
  have hstart : Formed style start := by
    refine .main _ _ (List.forall_mem_cons.mpr ⟨?_, ?_⟩)
    · exact .declare _ _ _ (hnames "n" (by simp)) hcall
    · exact List.forall_mem_singleton.mpr (.expression _ hn)
  have hsource : spaced (Node.writtenStmts style [f, start]) = source := by decide +kernel
  rw [← hsource]
  exact parse_written (List.forall_mem_cons.mpr ⟨hf, List.forall_mem_singleton.mpr hstart⟩) _

end Scriptlet
