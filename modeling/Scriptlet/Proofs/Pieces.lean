import Scriptlet.Proofs.Spaced

/-!
# What the rules cut a source into

The scanner for terminals cuts a source into *pieces*: blanks, comments and terminals, each as long
as its rule allows. A comment between two terminals keeps them apart, even where the one would go on
with the other if the comment were not there. This module says which pieces the characters at a
place start with, and when a source uses no comment in that way.

## Contents

- §1 pieces, and comments that keep terminals apart
- §2 scanning one piece
- §3 the piece at a place
- §4 terminals that go on
-/

namespace Scriptlet

/-! ## §1 Pieces -/

/-- The pieces of glyphs of which the first `passed` belong to a piece already taken. -/
def pieces : Nat → List Glyph → List (ScanRule × List Glyph)
  | _, [] => []
  | passed + 1, _ :: rest => pieces passed rest
  | 0, g :: rest =>
    match firstRule? (g :: rest) with
    | none => []
    | some (rule, n) => (rule, (g :: rest).take n) :: pieces (n - 1) rest

/-- What stands between the terminal before a place and the place. -/
inductive Gap where
  /-- White space, or there is no terminal before. -/
  | wide
  /-- Nothing. -/
  | touching (t : List Glyph)
  /-- Comments only. -/
  | commented (t : List Glyph)

/-- The rules match something else at the terminal if the glyph follows it. -/
def goesOn (t : List Glyph) (g : Glyph) : Bool := firstRule? (t ++ [g]) != firstRule? t

namespace Gap

/-- The gap with a comment behind it. -/
def widened : Gap → Gap
  | .touching t => .commented t
  | gap => gap

/-- Only comments keep the terminal before from going on with the glyphs. -/
def hides : Gap → List Glyph → Bool
  | .commented t, g :: _ => goesOn t g
  | _, _ => false

end Gap

/-- Behind the gap no comment has a backslash, and none hides that a terminal goes on. -/
def plainComments : Gap → List (ScanRule × List Glyph) → Bool
  | _, [] => true
  | _, (.space, _) :: rest => plainComments .wide rest
  | gap, (.comment, c) :: rest => !c.contains (.char '\\') && plainComments gap.widened rest
  | gap, (.terminal _, t) :: rest => !gap.hides t && plainComments (.touching t) rest
  | gap, (.openComment, _) :: rest | gap, (.openString, _) :: rest => plainComments gap rest

/-! ## §2 Scanning one piece -/

/-- The place behind characters. -/
def placeBehind (loc : Location) (cs : List Char) : Location :=
  (glyphsOf cs).foldl Location.after loc

theorem placeBehind_cons (loc : Location) (c : Char) (cs : List Char) :
    placeBehind loc (c :: cs) = placeBehind (loc.after (.char c)) cs := rfl

theorem placeBehind_append (loc : Location) (cs ds : List Char) :
    placeBehind loc (cs ++ ds) = placeBehind (placeBehind loc cs) ds := by
  rw [placeBehind, glyphsOf, List.map_append, List.foldl_append]
  rfl

/-- Glyphs that are passed over are in no piece. -/
theorem pieces_passed (gs rest : List Glyph) : pieces gs.length (gs ++ rest) = pieces 0 rest := by
  induction gs with
  | nil => rfl
  | cons g gs ih => rw [List.length_cons, List.cons_append, pieces, ih]

section

variable {rule : ScanRule} {w cs : List Char}

/-- A piece and those behind it. -/
theorem pieces_cons (hw : w ≠ []) (hrule : firstRule? (glyphsOf (w ++ cs)) = some (rule, w.length)) :
    pieces 0 (glyphsOf (w ++ cs)) = (rule, glyphsOf w) :: pieces 0 (glyphsOf cs) := by
  obtain ⟨c, more, rfl⟩ := List.exists_cons_of_ne_nil hw
  have hpassed := pieces_passed (glyphsOf more) (glyphsOf cs)
  have htake : (glyphsOf (c :: more ++ cs)).take (c :: more).length = glyphsOf (c :: more) := by
    rw [glyphsOf, List.map_append, List.take_left' (by simp)]
  rw [List.length_map, ← List.map_append] at hpassed
  rw [List.cons_append, glyphsOf, List.map_cons] at hrule htake ⊢
  rw [List.length_cons] at htake
  rw [pieces, hrule]
  simp only [List.length_cons, htake, Nat.add_sub_cancel, hpassed]

/-- A terminal stands where its piece begins. -/
theorem scanFrom_terminal {kind : TerminalKind} (loc : Location) (hw : w ≠ [])
    (hrule : firstRule? (glyphsOf (w ++ cs)) = some (.terminal kind, w.length)) :
    scanFrom loc 0 (glyphsOf (w ++ cs)) = (do
      let (more, ending) ← scanFrom (placeBehind loc w) 0 (glyphsOf cs)
      return (⟨kind, Text.ofChars w, loc⟩ :: more, ending)) := by
  obtain ⟨c, more, rfl⟩ := List.exists_cons_of_ne_nil hw
  -- the rule takes the whole word, so the scan passes over the rest of it
  have hpassed := scanFrom_passed (loc.after (.char c)) (glyphsOf more) (glyphsOf cs)
  rw [List.length_map, ← List.map_append] at hpassed
  have htext : Glyph.text ((glyphsOf (c :: more ++ cs)).take (c :: more).length)
      = Text.ofChars (c :: more) := by
    rw [glyphsOf, List.map_append, List.take_left' (by simp)]
    exact text_glyphsOf (c :: more)
  rw [← htext]
  rw [List.cons_append, glyphsOf, List.map_cons] at hrule ⊢
  rw [scanFrom, hrule]
  simp only [List.length_cons, Nat.add_sub_cancel, hpassed]
  rfl

/-- Blanks and comments move the place and give no terminal. -/
theorem scanFrom_dropped (loc : Location) (hw : w ≠ []) (hdrop : rule = .space ∨ rule = .comment)
    (hrule : firstRule? (glyphsOf (w ++ cs)) = some (rule, w.length)) :
    scanFrom loc 0 (glyphsOf (w ++ cs)) = scanFrom (placeBehind loc w) 0 (glyphsOf cs) := by
  obtain ⟨c, more, rfl⟩ := List.exists_cons_of_ne_nil hw
  have hpassed := scanFrom_passed (loc.after (.char c)) (glyphsOf more) (glyphsOf cs)
  rw [List.length_map, ← List.map_append] at hpassed
  rw [List.cons_append, glyphsOf, List.map_cons] at hrule ⊢
  rw [scanFrom, hrule]
  rcases hdrop with rfl | rfl <;>
    simp only [List.length_cons, Nat.add_sub_cancel, hpassed] <;> rfl

end

/-- Where scanning goes on a rule matches that spoils nothing. -/
theorem firstRule?_of_scanFrom {loc : Location} {c : Char} {cs : List Char}
    {r : List Terminal × Location} (h : scanFrom loc 0 (glyphsOf (c :: cs)) = .ok r) :
    ∃ rule n, firstRule? (glyphsOf (c :: cs)) = some (rule, n) ∧ rule ≠ .openComment ∧
      rule ≠ .openString := by
  rw [glyphsOf, List.map_cons, scanFrom] at h
  rw [glyphsOf, List.map_cons]
  cases hrule : firstRule? (.char c :: cs.map .char) with
  | none =>
    rw [hrule] at h
    cases h
  | some found =>
    obtain ⟨rule, n⟩ := found
    refine ⟨rule, n, rfl, ?_, ?_⟩
    · rintro rfl
      rw [hrule] at h
      cases h
    · rintro rfl
      rw [hrule] at h
      cases h

/-! ## §3 The piece at a place -/

/-- Characters start with those of a class, as many as there are. -/
theorem exists_run (p : Char → Bool) (cs : List Char) : ∃ w rest, cs = w ++ rest ∧
    (∀ c ∈ w, p c = true) ∧ ∀ c, rest.head? = some c → p c = false := by
  induction cs with
  | nil => exact ⟨[], [], rfl, by simp, by simp⟩
  | cons c cs ih =>
    cases hc : p c with
    | false => exact ⟨[], c :: cs, rfl, by simp, by simp [hc]⟩
    | true =>
      obtain ⟨w, rest, rfl, hw, hrest⟩ := ih
      exact ⟨c :: w, rest, rfl, by simpa [hc] using hw, hrest⟩

/-- A digit starts a number, as long as can be. -/
theorem exists_numeral {c : Char} (hc : isDecimalDigit c = true) (cs : List Char) :
    ∃ w rest, c :: cs = w ++ rest ∧ Numeral w ∧
      ∀ d, rest.head? = some d → isDecimalDigit d = false ∧ (d = '.' → '.' ∈ w) := by
  obtain ⟨more, rest, rfl, hmore, hrest⟩ := exists_run isDecimalDigit cs
  have hds : ∀ d ∈ c :: more, isDecimalDigit d = true := by simpa [hc] using hmore
  -- a point behind the first digits belongs to the number
  by_cases hpoint : rest.head? = some '.'
  · obtain ⟨behind, rfl⟩ := List.head?_eq_some_iff.mp hpoint
    obtain ⟨fs, rest, rfl, hfs, hrest⟩ := exists_run isDecimalDigit behind
    refine ⟨(c :: more) ++ '.' :: fs, rest, by simp, .pointed _ fs (by simp) hds hfs, ?_⟩
    intro d hd
    exact ⟨hrest d hd, fun _ => by simp⟩
  · refine ⟨c :: more, rest, rfl, .whole _ (by simp) hds, ?_⟩
    intro d hd
    refine ⟨hrest d hd, ?_⟩
    rintro rfl
    exact absurd hd hpoint

/-- A run of characters ends before the first that does not belong to it. -/
theorem takeWhile_run {p : Char → Bool} {w rest : List Char} (hw : ∀ c ∈ w, p c = true)
    (hrest : ∀ c, rest.head? = some c → p c = false) : (w ++ rest).takeWhile p = w := by
  rw [List.takeWhile_append_of_pos hw]
  cases rest with
  | nil => simp
  | cons c rest => simp [hrest c rfl]

/-- A run of blanks is one piece. -/
theorem firstRule?_space {w cs : List Char} (hne : w ≠ []) (hw : ∀ c ∈ w, isSpaceChar c = true)
    (hstop : ∀ c, cs.head? = some c → isSpaceChar c = false) :
    firstRule? (glyphsOf (w ++ cs)) = some (.space, w.length) := by
  have hspace : ScanRule.space.length? (glyphsOf (w ++ cs)) = some w.length := by
    have hsome : (w.length == 0) = false := by simpa using hne
    simp only [ScanRule.length?, runLength_append hw hstop, hsome, Bool.false_eq_true, if_false]
  simp only [firstRule?, scanRules, List.findSome?, hspace, Option.map_some]

/-- Where a comment opens it is found, or its end is missed. -/
theorem firstRule?_comment {cs : List Char} (h : opensComment cs = true) :
    firstRule? (glyphsOf cs) =
      match commentLength? (glyphsOf cs) with
      | some n => some (.comment, n)
      | none => some (.openComment, cs.length) := by
  obtain ⟨c, more, rfl, rfl⟩ : ∃ c more, cs = c :: more ∧ c = '/' := by
    cases cs with
    | nil => cases h
    | cons c more =>
      by_cases hc : c = '/'
      · exact ⟨c, more, rfl, hc⟩
      · rw [opensComment_of_ne hc] at h
        cases h
  have hspace : ScanRule.space.length? (glyphsOf ('/' :: more)) = none := space_none (by decide)
  have hcomment : ScanRule.comment.length? (glyphsOf ('/' :: more))
      = commentLength? (glyphsOf ('/' :: more)) := rfl
  simp only [firstRule?, scanRules, List.findSome?, hspace, hcomment, Option.map_none]
  cases hlength : commentLength? (glyphsOf ('/' :: more)) with
  | some n => rfl
  | none =>
    -- a comment to the end of the line always has an end
    have hopen : ScanRule.openComment.length? (glyphsOf ('/' :: more))
        = some (('/' :: more).length) := by
      unfold commentLength? at hlength
      split at hlength
      · cases hlength
      · split at hlength
        · next hblock => rw [ScanRule.length?, if_pos hblock, List.length_map]
        · next hline hblock =>
          rw [startsWithChars_glyphsOf] at hline hblock
          simp [opensComment, hline, hblock] at h
    simp only [hopen, Option.map_some, Option.map_none]

theorem blockEnd?_le {gs : List Glyph} {n : Nat} (h : blockEnd? gs = some n) : n ≤ gs.length := by
  fun_induction blockEnd? gs generalizing n with
  | case1 | case2 => cases h
  | case3 a b rest hend =>
    cases h
    simp
  | case4 a b rest hend ih =>
    obtain ⟨m, hm, rfl⟩ := Option.map_eq_some_iff.mp h
    have hle := ih hm
    simp only [List.length_cons] at hle ⊢
    omega

theorem commentLength?_bounds {gs : List Glyph} {n : Nat} (h : commentLength? gs = some n) :
    0 < n ∧ n ≤ gs.length := by
  unfold commentLength? at h
  -- a comment up to the end of the line, then one up to a star and a slash
  split at h
  · next hline =>
    cases h
    refine ⟨?_, (List.takeWhile_prefix _).length_le⟩
    obtain ⟨rest, rfl⟩ := List.isPrefixOf_iff_prefix.mp hline
    simp [Glyph.is, char_beq]
  · split at h
    · next hblock =>
      obtain ⟨m, hm, rfl⟩ := Option.map_eq_some_iff.mp h
      have hle := blockEnd?_le hm
      obtain ⟨rest, rfl⟩ := List.isPrefixOf_iff_prefix.mp hblock
      simp only [List.length_drop, List.length_append, List.length_map, List.length_cons,
        List.length_nil] at hle ⊢
      omega
    · cases h

/-- A quoted string that is scanned has a body and a value. -/
theorem quoted_of_quoteEnd? {q : Char} {cs : List Char} {n : Nat}
    (h : quoteEnd? q (glyphsOf cs) = some n) :
    ∃ body value rest, cs = body ++ q :: rest ∧ Quoted q body value := by
  rcases cs with _ | ⟨c, cs⟩
  · cases h
  · rw [quoteEnd?.eq_def] at h
    simp only [List.map_cons, Glyph.is, char_beq] at h
    split at h
    · next hc => exact ⟨[], [], cs, by rw [beq_iff_eq.mp hc]; rfl, .nil⟩
    · next hquote =>
      split at h
      · next hslash =>
        -- the character behind a backslash is passed over with it
        rcases cs with _ | ⟨d, cs⟩
        · cases h
        · obtain ⟨m, hm, _⟩ := Option.map_eq_some_iff.mp h
          obtain ⟨body, value, rest, rfl, hbody⟩ := quoted_of_quoteEnd? hm
          refine ⟨'\\' :: d :: body, escapedChar d :: value, rest, ?_, .escaped d body value hbody⟩
          rw [beq_iff_eq.mp hslash]
          rfl
      · next hslash =>
        obtain ⟨m, hm, _⟩ := Option.map_eq_some_iff.mp h
        obtain ⟨body, value, rest, rfl, hbody⟩ := quoted_of_quoteEnd? hm
        have hq : c ≠ q := by simpa using hquote
        have hs : c ≠ '\\' := by simpa using hslash
        exact ⟨c :: body, c :: value, rest, rfl, .plain c body value hq hs hbody⟩

/-- A literal is found, or its end is missed. -/
theorem firstRule?_literal {q : Char} (hq : Mark.isQuoteChar q = true) (more : List Glyph) :
    firstRule? (.char q :: more) =
      match quoteEnd? q more with
      | some n => some (.terminal .string, n + 1)
      | none => some (.openString, more.length + 1) := by
  have hstring : (ScanRule.terminal .string).length? (.char q :: more)
      = (quoteEnd? q more).map (· + 1) := by
    simp only [ScanRule.length?, openingQuote?, hq, if_true, Option.bind_some, List.drop_succ_cons,
      List.drop_zero]
  have hopen : ScanRule.openString.length? (.char q :: more) = some (more.length + 1) := by
    simp only [ScanRule.length?, openingQuote?, hq, if_true, Option.map_some, List.length_cons]
  -- no quote starts anything else
  have hothers : ∀ rule ∈ [ScanRule.space, .comment, .openComment, .terminal .number],
      rule.length? (.char q :: more) = none := by
    simp only [Mark.isQuoteChar, Bool.or_eq_true, beq_iff_eq] at hq
    simp only [List.forall_mem_cons, List.not_mem_nil, false_implies, implies_true, and_true]
    rcases hq with (rfl | rfl) | rfl <;> exact ⟨rfl, rfl, rfl, rfl⟩
  simp only [List.forall_mem_cons, List.not_mem_nil, false_implies, implies_true, and_true]
    at hothers
  obtain ⟨hspace, hcomment, hblock, hnumber⟩ := hothers
  simp only [firstRule?, scanRules, List.findSome?, hspace, hcomment, hblock, hnumber, hstring,
    hopen, Option.map_none]
  cases quoteEnd? q more <;> rfl

/-- A literal is found where a quote stands, or its end is missed. -/
theorem firstRule?_quote {q : Char} (hq : Mark.isQuoteChar q = true) (cs : List Char) :
    (∃ body value rest, cs = body ++ q :: rest ∧ Quoted q body value) ∨
      ∃ n, firstRule? (glyphsOf (q :: cs)) = some (.openString, n) := by
  cases hend : quoteEnd? q (glyphsOf cs) with
  | some n => exact .inl (quoted_of_quoteEnd? hend)
  | none =>
    have hrule := firstRule?_literal hq (glyphsOf cs)
    rw [hend] at hrule
    exact .inr ⟨_, hrule⟩

/-- Where no rule matches by the first character. -/
theorem firstRule?_none {c : Char} {cs : List Char} (hword : isWordChar c = false)
    (hblank : isSpaceChar c = false) (hquote : Mark.isQuoteChar c = false)
    (hcomment : opensComment (c :: cs) = false)
    (hoperator : (ScanRule.terminal .operator).length? (glyphsOf (c :: cs)) = none)
    (hpunct : punctuation.contains c = false) : firstRule? (glyphsOf (c :: cs)) = none := by
  obtain ⟨hstart, hdigit⟩ := Bool.or_eq_false_iff.mp hword
  have hrule : (ScanRule.terminal .punct).length? (glyphsOf (c :: cs)) = none := by
    simp only [ScanRule.length?, List.map_cons, hpunct, Bool.false_eq_true, if_false]
  simp only [firstRule?, scanRules, List.findSome?, space_none hblank, comment_none hcomment,
    openComment_none hcomment, number_none hdigit, string_none hquote, openString_none hquote,
    ident_none hstart, hoperator, hrule, Option.map_none]

/-- Every operator character starts an operator. -/
theorem exists_leading? {c : Char} (hc : c ∈ operatorChars) (cs : List Char) :
    ∃ op rest, c :: cs = op.chars ++ rest ∧ Operator.leading? (op.chars ++ rest) = some op := by
  obtain ⟨op, hop⟩ := Operator.exists_leading? hc cs
  obtain ⟨rest, hrest⟩ := Operator.prefix_of_leading? hop
  exact ⟨op, rest, hrest.symm, hrest ▸ hop⟩

/-- No rule finds an operator that the grammar does not know. -/
theorem firstRule?_foreign {op : Operator} {cs : List Char} (hop : op ∈ foreignOperators)
    (h : Operator.leading? (op.chars ++ cs) = some op) :
    firstRule? (glyphsOf (op.chars ++ cs)) = none := by
  have hforeign : ∃ c ∈ SignClass.operator.members, op.chars = [c] ∧ c ≠ '/' ∧
      [c] ∉ terminalOperators ∧ punctuation.contains c = false := by
    simp only [foreignOperators, List.mem_cons, List.not_mem_nil, or_false] at hop
    rcases hop with rfl | rfl | rfl | rfl | rfl <;>
      exact ⟨_, by decide, rfl, by decide, by decide, by decide⟩
  obtain ⟨c, hc, hchars, hslash, hnot, hpunct⟩ := hforeign
  have hoperator : (ScanRule.terminal .operator).length? (glyphsOf (c :: cs)) = none := by
    have hknown : ∀ ds ∈ terminalOperators, ∃ other ∈ Operator.table, other.chars = ds := by decide
    have hnone : terminalOperators.find? (fun ds => startsWithChars ds (glyphsOf (c :: cs)))
        = none := by
      refine List.find?_eq_none.mpr fun ds hds hstarts => hnot ?_
      -- an operator of the grammar that fits is no longer than the one that was found
      rw [startsWithChars_glyphsOf, List.isPrefixOf_iff_prefix] at hstarts
      obtain ⟨other, _, rfl⟩ := hknown ds hds
      rw [hchars, List.singleton_append] at h
      have hle := Operator.length_le_of_leading? h hstarts
      rw [hchars] at hle
      have hone : other.chars.length = 1 := by
        have hpos := List.length_pos_iff.mpr other.chars_ne_nil
        simp only [List.length_singleton] at hle
        omega
      obtain ⟨d, hd⟩ := List.length_eq_one_iff.mp hone
      rw [hd] at hstarts hds
      rwa [(List.cons_prefix_cons.mp hstarts).1] at hds
    simp only [ScanRule.length?, hnone, Option.map_none]
  rw [hchars, List.singleton_append]
  exact firstRule?_none (SignClass.not_wordChar hc) (SignClass.not_blank hc (by decide))
    (SignClass.not_quote hc (by decide)) (opensComment_of_ne hslash) hoperator hpunct

/-- Nor does any match at a character that no token has. -/
theorem firstRule?_stray {c : Char} {cs : List Char} (hword : isWordChar c = false)
    (h : ∀ k : SignClass, c ∉ k.members) : firstRule? (glyphsOf (c :: cs)) = none := by
  -- every sign a rule knows is of one of the classes
  have hheads : ∀ ds ∈ terminalOperators, ds.head?.any operatorChars.contains = true := by decide
  have hslash : c ≠ '/' := by
    rintro rfl
    exact h .operator (by decide)
  have hpunct : punctuation.contains c = false := by
    have hall : (punctuation.all fun c => SignClass.operator.members.contains c ||
        SignClass.delimiter.members.contains c) = true := by decide
    refine Bool.eq_false_iff.mpr fun hmem => ?_
    have hclass := List.all_eq_true.mp hall c (List.contains_iff_mem.mp hmem)
    rcases (Bool.or_eq_true _ _).mp hclass with hc | hc
    · exact h _ (List.contains_iff_mem.mp hc)
    · exact h _ (List.contains_iff_mem.mp hc)
  refine firstRule?_none hword ?_ ?_ (opensComment_of_ne hslash) (operator_none ?_) hpunct
  · exact Bool.eq_false_iff.mpr fun hb => h _ (SignClass.mem_blank.mp hb)
  · exact Bool.eq_false_iff.mpr fun hq => h _ (SignClass.mem_quote.mp hq)
  · intro ds hds heq
    have hhead := hheads ds hds
    rw [heq, Option.any_some] at hhead
    exact h .operator (SignClass.mem_operator.mp hhead)

/-- What stands at a place of a source that is scanned, if no comment opens there: one terminal or
white space, as long as can be. -/
inductive Starts : List Char → Prop where
  | blanks (w cs : List Char) (hne : w ≠ []) (hw : ∀ c ∈ w, isSpaceChar c = true)
      (hstop : ∀ c, cs.head? = some c → isSpaceChar c = false) : Starts (w ++ cs)
  | word (w cs : List Char) (hw : IsWord w)
      (hstop : ∀ c, cs.head? = some c → isWordChar c = false) : Starts (w ++ cs)
  | number (w cs : List Char) (hw : Numeral w)
      (hstop : ∀ c, cs.head? = some c → isDecimalDigit c = false ∧ (c = '.' → '.' ∈ w)) :
      Starts (w ++ cs)
  | string (q : Char) (body value cs : List Char) (hq : Mark.isQuoteChar q = true)
      (hbody : Quoted q body value) : Starts (q :: (body ++ q :: cs))
  | operator (op : Operator) (cs : List Char) (hop : op ∉ foreignOperators)
      (hlead : Operator.leading? (op.chars ++ cs) = some op) : Starts (op.chars ++ cs)
  | delimiter (f : Family) (side : Side) (cs : List Char) : Starts (f.char side :: cs)

/-- Where a scan succeeds, a comment or a piece of text begins. -/
theorem starts_of_scanFrom {loc : Location} {c : Char} {cs : List Char}
    {r : List Terminal × Location} (h : scanFrom loc 0 (glyphsOf (c :: cs)) = .ok r) :
    opensComment (c :: cs) = true ∨ Starts (c :: cs) := by
  obtain ⟨rule, n, hrule, _, hopen⟩ := firstRule?_of_scanFrom h
  cases hcomment : opensComment (c :: cs) with
  | true => exact .inl rfl
  | false =>
    right
    -- the class of the first character decides which piece the text starts with
    by_cases hstart : isWordStart c = true
    · obtain ⟨more, rest, rfl, hmore, hrest⟩ := exists_run isWordChar cs
      exact .word (c :: more) rest ⟨c, more, rfl, hstart, hmore⟩ hrest
    by_cases hdigit : isDecimalDigit c = true
    · obtain ⟨w, rest, hcs, hw, hrest⟩ := exists_numeral hdigit cs
      exact hcs ▸ .number w rest hw hrest
    by_cases hoperator : c ∈ SignClass.operator.members
    · obtain ⟨op, rest, hcs, hlead⟩ := exists_leading? hoperator cs
      rw [hcs] at hrule ⊢
      refine .operator op rest (fun hforeign => ?_) hlead
      rw [firstRule?_foreign hforeign hlead] at hrule
      cases hrule
    by_cases hdelimiter : c ∈ SignClass.delimiter.members
    · obtain ⟨f, side, rfl⟩ := SignClass.mem_delimiter.mp hdelimiter
      exact .delimiter f side cs
    by_cases hquote : c ∈ SignClass.quote.members
    · have hq := SignClass.mem_quote.mpr hquote
      rcases firstRule?_quote hq cs with ⟨body, value, rest, rfl, hbody⟩ | ⟨m, hstring⟩
      · exact .string c body value rest hq hbody
      · rw [hstring] at hrule
        cases hrule
        exact absurd rfl hopen
    by_cases hblank : c ∈ SignClass.blank.members
    · obtain ⟨more, rest, rfl, hmore, hrest⟩ := exists_run isSpaceChar cs
      refine .blanks (c :: more) rest (by simp) ?_ hrest
      simpa [SignClass.mem_blank.mpr hblank] using hmore
    · -- no other character is part of anything
      have hword : isWordChar c = false := by simp [isWordChar, hstart, hdigit]
      rw [firstRule?_stray hword fun k => by cases k <;> assumption] at hrule
      cases hrule

/-- A slash that is an operator opens no comment. -/
theorem divide_of_opensComment {op : Operator} {cs : List Char}
    (h : opensComment (op.chars ++ cs) = false) :
    op = .divide → ∀ c, cs.head? = some c → c ≠ '/' ∧ c ≠ '*' := by
  rintro rfl c hc
  obtain ⟨more, rfl⟩ := List.head?_eq_some_iff.mp hc
  constructor <;> rintro rfl <;> simp [opensComment, Operator.chars, List.isPrefixOf] at h

/-! ## §4 Terminals that go on -/

section

variable {w : List Char} {c : Char}

/-- A piece goes on when one more glyph changes what is scanned. -/
theorem goesOn_eq_false : goesOn (glyphsOf w) (.char c) = false ↔
    firstRule? (glyphsOf (w ++ [c])) = firstRule? (glyphsOf w) := by
  have happend : glyphsOf w ++ [.char c] = glyphsOf (w ++ [c]) := by simp
  rw [goesOn, happend]
  exact bne_eq_false_iff_eq

/-- A word that does not go on is followed by none of its characters. -/
theorem not_wordChar_of_goesOn (hw : IsWord w) (h : goesOn (glyphsOf w) (.char c) = false) :
    isWordChar c = false := by
  refine Bool.eq_false_iff.mpr fun hc => ?_
  have hlonger := @firstRule?_word _ [] (hw.push hc) (by simp)
  have hword := @firstRule?_word _ [] hw (by simp)
  rw [List.append_nil] at hlonger hword
  rw [goesOn_eq_false, hlonger, hword] at h
  simp at h

/-- A numeral that does not go on is followed by no digit, and by no point that it could take. -/
theorem not_digit_of_goesOn (hw : Numeral w) (h : goesOn (glyphsOf w) (.char c) = false) :
    isDecimalDigit c = false ∧ (c = '.' → '.' ∈ w) := by
  -- one character more would be a longer number, and scanning would have gone on
  have hlonger : ¬ Numeral (w ++ [c]) := by
    intro hnumeral
    have hlonger := @firstRule?_number _ [] hnumeral (by simp)
    have hnumber := @firstRule?_number _ [] hw (by simp)
    rw [List.append_nil] at hlonger hnumber
    rw [goesOn_eq_false, hlonger, hnumber] at h
    simp at h
  constructor
  · exact Bool.eq_false_iff.mpr fun hc => hlonger (hw.push hc)
  · rintro rfl
    by_contra hpoint
    exact hlonger (hw.point hpoint)

theorem firstRule?_alone {op : Operator} (hop : op ∉ foreignOperators) :
    ∃ kind, firstRule? (glyphsOf op.chars) = some (.terminal kind, op.chars.length) := by
  have hlead : Operator.leading? (op.chars ++ []) = some op := by
    rw [List.append_nil]
    exact op.leading?_chars
  obtain ⟨kind, _, hrule⟩ := firstRule?_operator hlead (by simp) hop
  rw [List.append_nil] at hrule
  exact ⟨kind, hrule⟩

/-- An operator that does not go on is scanned alone by the other scanner too. -/
theorem leading?_of_goesOn {op : Operator} (hop : op ∉ foreignOperators)
    (h : goesOn (glyphsOf op.chars) (.char c) = false) :
    Operator.leading? (op.chars ++ [c]) = some op := by
  -- a character that no operator has ends one, whatever came before
  by_cases hc : c ∈ operatorChars
  · obtain ⟨d, more, hchars⟩ := List.exists_cons_of_ne_nil op.chars_ne_nil
    have hd : d ∈ operatorChars := Operator.mem_operatorChars (hchars ▸ List.mem_cons_self)
    obtain ⟨longer, rest, hsplit, hlead⟩ := exists_leading? hd (more ++ [c])
    rw [← List.cons_append, ← hchars] at hsplit
    rw [← hsplit] at hlead
    have hle := Operator.length_le_of_leading? hlead (List.prefix_append op.chars [c])
    have hself := List.prefix_append op.chars [c]
    have hprefix : longer.chars <+: op.chars ++ [c] := ⟨rest, hsplit.symm⟩
    have hshorter := List.prefix_of_prefix_length_le hself hprefix hle
    rcases Nat.lt_or_ge op.chars.length longer.chars.length with hlt | hge
    · -- a longer operator is all of the characters, and the rules would find it
      have hlength := hprefix.length_le
      rw [List.length_append, List.length_singleton] at hlength
      have hall : longer.chars = op.chars ++ [c] :=
        hprefix.eq_of_length (by rw [List.length_append, List.length_singleton]; omega)
      have hforeign : ∀ o ∈ foreignOperators, o.chars.length = 1 := by decide
      have hlonger : longer ∉ foreignOperators := by
        intro hmem
        have hpos := List.length_pos_iff.mpr op.chars_ne_nil
        rw [hforeign longer hmem] at hlt
        omega
      obtain ⟨kind, hrule⟩ := firstRule?_alone hop
      obtain ⟨kind', hrule'⟩ := firstRule?_alone hlonger
      rw [goesOn_eq_false, ← hall, hrule, hrule', Option.some.injEq, Prod.mk.injEq] at h
      omega
    · have hsame : op.chars = longer.chars := hshorter.eq_of_length (by omega)
      have heq := op.leading?_chars
      rw [hsame, longer.leading?_chars] at heq
      rw [hlead, heq]
  · rw [leading?_append (by simpa using hc)]
    exact op.leading?_chars

end

end Scriptlet
