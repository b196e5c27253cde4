import Mathlib.Data.List.Find
import Scriptlet.Proofs.Pieces
import Scriptlet.Proofs.Yield

/-!
# Texts that go on behind a line end

No character, no name, no number and no operator goes past the end of a line; only blanks, comments
and string literals do. So what stands before a line end is read and scanned alike whatever comes
behind it: behind a source that ends in a line end, more text adds terminals and changes none. What
cannot be scanned before the line end cannot be scanned with more text either, unless a comment or a
literal is open there.

## Contents

- §1 glyphs
- §2 what rules see before a line end
- §3 how much rules match
- §4 the rule that is found
- §5 scanning on
- §6 terminals of texts that go on
- §7 what terminals are
-/

namespace Scriptlet

/-! ## §1 Glyphs -/

namespace Text

variable {b : UInt8} {pre : Text}

/-- A character that starts before a line end ends before it. -/
theorem scalar?_line {t : Text} {c : Char} {n : Nat} :
    scalar? (b :: (pre ++ newline :: t)) = some (c, n) ↔
      ∃ more, b :: pre = ofChar c ++ more ∧ n = (ofChar c).length := by
  constructor
  · intro h
    obtain ⟨rest, hrest, hn⟩ := eq_ofChar_of_scalar? h
    refine Exists.imp (fun _ hmore => ⟨hmore, hn⟩) ?_
    have hline := newline_not_mem_tail c
    obtain ⟨a, bytes, hbytes⟩ := List.exists_cons_of_ne_nil (ofChar_ne_nil c)
    rw [hbytes, List.cons_append] at hrest
    rw [hbytes] at hline ⊢
    obtain ⟨rfl, hbehind⟩ := List.cons.inj hrest
    rcases List.append_eq_append_iff.mp hbehind with ⟨extra, hextra, hmore⟩ | ⟨more, hmore, _⟩
    · cases extra with
      | nil => exact ⟨[], by simp [hextra]⟩
      | cons x extra =>
        -- the character would have the line end among its further bytes
        obtain ⟨rfl, _⟩ := List.cons.inj hmore
        exact absurd (by simp [hextra]) hline
    · exact ⟨more, by rw [hmore, List.cons_append]⟩
  · rintro ⟨more, hmore, rfl⟩
    rw [← List.cons_append, hmore, List.append_assoc]
    exact scalar?_ofChar c _

theorem glyphs_newline (t : Text) : glyphs (newline :: t) = .char '\n' :: t.glyphs :=
  glyphs_ofChar_append '\n' t

theorem glyphsFrom_line {passed : Nat} (h : passed ≤ pre.length) :
    ∃ gs, ∀ t : Text, glyphsFrom passed (pre ++ newline :: t) = gs ++ .char '\n' :: t.glyphs := by
  induction pre generalizing passed with
  | nil =>
    obtain rfl : passed = 0 := Nat.le_zero.mp h
    exact ⟨[], glyphs_newline⟩
  | cons b pre ih =>
    cases passed with
    | succ passed => exact ih (Nat.le_of_succ_le_succ h)
    | zero =>
      -- what stands at the head does not depend on what is behind the line end
      cases hhead : scalar? (b :: (pre ++ [newline])) with
      | none =>
        obtain ⟨gs, hgs⟩ := ih (Nat.zero_le _)
        refine ⟨.stray b :: gs, fun t => ?_⟩
        have hnone : scalar? (b :: (pre ++ newline :: t)) = none := by
          refine Option.eq_none_iff_forall_not_mem.mpr fun read hread => ?_
          rw [scalar?_line.mpr (scalar?_line.mp hread)] at hhead
          cases hhead
        rw [List.cons_append, glyphsFrom, hnone]
        exact congrArg _ (hgs t)
      | some read =>
        obtain ⟨c, n⟩ := read
        obtain ⟨more, hmore, rfl⟩ := scalar?_line.mp hhead
        have hlength := congrArg List.length hmore
        rw [List.length_cons, List.length_append] at hlength
        have hle : (ofChar c).length - 1 ≤ pre.length := by omega
        obtain ⟨gs, hgs⟩ := ih hle
        refine ⟨.char c :: gs, fun t => ?_⟩
        rw [List.cons_append, glyphsFrom, scalar?_line.mpr ⟨more, hmore, rfl⟩]
        exact congrArg _ (hgs t)

/-- What stands before a line end is read alike whatever comes behind it. -/
theorem glyphs_line (pre : Text) :
    ∃ gs, ∀ t : Text, glyphs (pre ++ newline :: t) = gs ++ .char '\n' :: t.glyphs :=
  glyphsFrom_line (Nat.zero_le _)

end Text

/-! ## §2 What rules see before a line end -/

/-- The character that ends a line. -/
abbrev lineEnd : Glyph := .char '\n'

section

variable {p : Char → Bool} {gs : List Glyph} (hs : List Glyph)

theorem takeWhile_line {q : Glyph → Bool} (hq : q lineEnd = false) :
    (gs ++ lineEnd :: hs).takeWhile q = gs.takeWhile q := by
  induction gs with
  | nil => simp [hq]
  | cons g gs ih => rw [List.cons_append, List.takeWhile_cons, ih, List.takeWhile_cons]

/-- A run of a class ends before the end of the line. -/
theorem runLength_line (hp : p '\n' = false) : runLength p (gs ++ lineEnd :: hs) = runLength p gs :=
  congrArg List.length (takeWhile_line hs hp)

theorem runLength_le (p : Char → Bool) (gs : List Glyph) : runLength p gs ≤ gs.length :=
  (List.takeWhile_prefix _).length_le

theorem startsWithChars_line {cs : List Char} (hcs : '\n' ∉ cs) :
    startsWithChars cs (gs ++ lineEnd :: hs) = startsWithChars cs gs := by
  unfold startsWithChars
  induction cs generalizing gs with
  | nil => rfl
  | cons c cs ih =>
    -- no line end is among the characters, so the line end itself decides nothing
    obtain ⟨hc, hmore⟩ := not_or.mp (mt List.mem_cons.mpr hcs)
    cases gs with
    | nil =>
      have hfirst : (Glyph.char c == lineEnd) = false := by simpa using Ne.symm hc
      show (Glyph.char c == lineEnd && _) = false
      rw [hfirst, Bool.false_and]
    | cons g gs => rw [List.map_cons, List.cons_append, List.isPrefixOf, List.isPrefixOf, ih hmore]

theorem numberLength?_line : numberLength? (gs ++ lineEnd :: hs) = numberLength? gs := by
  have hrun := runLength_le isDecimalDigit gs
  simp only [numberLength?, runLength_line hs (p := isDecimalDigit) rfl,
    List.drop_append_of_le_length hrun]
  -- behind the digits stands a point, something else or the line end
  cases gs.drop (runLength isDecimalDigit gs) with
  | nil => rfl
  | cons g rest =>
    rcases g with c | b
    · by_cases hc : c = '.'
      · subst hc
        simp only [List.cons_append, runLength_line hs (p := isDecimalDigit) rfl]
      · simp only [List.cons_append]
        split <;> simp_all
    · rfl

theorem openingQuote?_line : openingQuote? (gs ++ lineEnd :: hs) = openingQuote? gs := by
  cases gs with
  | nil => rfl
  | cons g gs => cases g <;> rfl

theorem identLength?_line : identLength? (gs ++ lineEnd :: hs) = identLength? gs := by
  match gs with
  | [] => rfl
  | .stray b :: gs => rfl
  | .char c :: gs =>
    simp only [List.cons_append, identLength?,
      runLength_line hs (p := fun d => isWordStart d || isDecimalDigit d) rfl]

theorem operatorLength?_line :
    (ScanRule.terminal .operator).length? (gs ++ lineEnd :: hs)
      = (ScanRule.terminal .operator).length? gs := by
  have hops : ∀ cs ∈ terminalOperators, '\n' ∉ cs := by decide
  refine congrArg (Option.map List.length) (List.find?_congr fun cs hcs => ?_)
  exact startsWithChars_line hs (hops cs hcs)

theorem punctLength?_line :
    (ScanRule.terminal .punct).length? (gs ++ lineEnd :: hs)
      = (ScanRule.terminal .punct).length? gs := by
  match gs with
  | [] => rfl
  | .stray b :: gs => rfl
  | .char c :: gs => rfl

/-- A comment that is closed stays closed. -/
theorem blockEnd?_append {n : Nat} (h : blockEnd? gs = some n) : blockEnd? (gs ++ hs) = some n := by
  fun_induction blockEnd? gs generalizing n with
  | case1 | case2 => cases h
  | case3 a b rest hend =>
    rw [← h, List.cons_append, List.cons_append, blockEnd?, if_pos hend]
  | case4 a b rest hend ih =>
    obtain ⟨m, hm, rfl⟩ := Option.map_eq_some_iff.mp h
    have hmore := ih hm
    rw [List.cons_append] at hmore
    rw [List.cons_append, List.cons_append, blockEnd?, if_neg hend, hmore, Option.map_some]

theorem quoteEnd?_append {q : Char} {n : Nat} (h : quoteEnd? q gs = some n) :
    quoteEnd? q (gs ++ hs) = some n := by
  -- the cases of the search: nothing left, the quote, a slash at the end, a slash and any other
  fun_induction quoteEnd? q gs generalizing n with
  | case1 => cases h
  | case2 g rest hq => rw [← h, List.cons_append, quoteEnd?.eq_def]; simp only [hq, if_true]
  | case3 g hq hslash => cases h
  | case4 g hq hslash x rest ih =>
    obtain ⟨m, hm, rfl⟩ := Option.map_eq_some_iff.mp h
    rw [List.cons_append, List.cons_append, quoteEnd?.eq_def]
    simp only [hq, hslash, if_true, ih hm, Option.map_some]
    simp
  | case5 g rest hq hslash ih =>
    obtain ⟨m, hm, rfl⟩ := Option.map_eq_some_iff.mp h
    rw [List.cons_append, quoteEnd?.eq_def]
    simp only [hq, hslash, ih hm, Option.map_some]
    simp

end

/-! ## §3 How much rules match -/

theorem quoteEnd?_le {q : Char} {gs : List Glyph} {n : Nat} (h : quoteEnd? q gs = some n) :
    n ≤ gs.length := by
  fun_induction quoteEnd? q gs generalizing n with
  | case1 | case3 => cases h
  | case2 g rest hq =>
    cases h
    simp
  | case4 g hq hslash x rest ih =>
    obtain ⟨m, hm, rfl⟩ := Option.map_eq_some_iff.mp h
    have hle := ih hm
    simp only [List.length_cons]
    omega
  | case5 g rest hq hslash ih =>
    obtain ⟨m, hm, rfl⟩ := Option.map_eq_some_iff.mp h
    have hle := ih hm
    simp only [List.length_cons]
    omega

theorem numberLength?_le {gs : List Glyph} {n : Nat} (h : numberLength? gs = some n) :
    n ≤ gs.length := by
  have hwhole := runLength_le isDecimalDigit gs
  simp only [numberLength?] at h
  split at h
  · cases h
  · split at h
    · next rest hdrop =>
      -- a point belongs to the number, and the digits behind it
      have hlength := congrArg List.length hdrop
      have hrest := runLength_le isDecimalDigit rest
      rw [List.length_drop, List.length_cons] at hlength
      cases h
      omega
    · cases h
      exact hwhole

/-- No rule matches more than there is. -/
theorem ScanRule.length?_le {rule : ScanRule} {gs : List Glyph} {n : Nat}
    (h : rule.length? gs = some n) : n ≤ gs.length := by
  -- the terminals come last, each with the bound of its own length
  cases rule with
  | space =>
    simp only [ScanRule.length?] at h
    split at h
    · cases h
    · cases h
      exact runLength_le _ gs
  | comment => exact (commentLength?_bounds h).2
  | openComment =>
    simp only [ScanRule.length?] at h
    split at h <;> cases h
    exact Nat.le_refl _
  | openString =>
    obtain ⟨q, _, rfl⟩ := Option.map_eq_some_iff.mp h
    exact Nat.le_refl _
  | terminal kind =>
    cases kind with
    | number => exact numberLength?_le h
    | string =>
      obtain ⟨q, hq, h⟩ := Option.bind_eq_some_iff.mp h
      obtain ⟨m, hm, rfl⟩ := Option.map_eq_some_iff.mp h
      cases gs with
      | nil => cases hq
      | cons g gs => exact Nat.succ_le_succ (quoteEnd?_le hm)
    | ident =>
      simp only [ScanRule.length?, identLength?] at h
      split at h
      · next c rest =>
        split at h <;> cases h
        have hrest := runLength_le (fun d => isWordStart d || isDecimalDigit d) rest
        simp only [List.length_cons]
        omega
      · cases h
    | operator =>
      obtain ⟨cs, hcs, rfl⟩ := Option.map_eq_some_iff.mp h
      have hstarts : startsWithChars cs gs = true :=
        List.find?_some (p := (startsWithChars · gs)) hcs
      obtain ⟨rest, rfl⟩ := List.isPrefixOf_iff_prefix.mp hstarts
      simp
    | punct =>
      simp only [ScanRule.length?] at h
      split at h
      · split at h <;> cases h
        simp
      · cases h
    | ending => cases h

/-- The rule that is found is one that matches. -/
theorem length?_of_firstRule? {gs : List Glyph} {rule : ScanRule} {n : Nat}
    (h : firstRule? gs = some (rule, n)) : rule ∈ scanRules ∧ rule.length? gs = some n := by
  obtain ⟨r, hr, hlength⟩ := List.exists_of_findSome?_eq_some h
  obtain ⟨m, hm, heq⟩ := Option.map_eq_some_iff.mp hlength
  cases heq
  exact ⟨hr, hm⟩

/-! ## §4 The rule that is found -/

section

variable {gs : List Glyph}

/-- Blanks end before what is no blank. -/
theorem runLength_stop (hblank : ∃ g ∈ gs, g.isBlank = false) (hs : List Glyph) :
    runLength isSpaceChar (gs ++ hs) = runLength isSpaceChar gs := by
  rw [runLength_blank, runLength_blank]
  congr 1
  -- the blank run ends inside the text, so what is behind is never reached
  induction gs with
  | nil => simp at hblank
  | cons g gs ih =>
    rw [List.cons_append, List.takeWhile_cons, List.takeWhile_cons]
    split
    · next hg =>
      refine congrArg _ (ih ?_)
      obtain ⟨x, hx, hxb⟩ := hblank
      rcases List.mem_cons.mp hx with rfl | hx
      · rw [hg] at hxb
        cases hxb
      · exact ⟨x, hx, hxb⟩
    · rfl

/-- A comment up to a star and a slash is found, or its end is missed. -/
theorem firstRule?_block (more : List Glyph) :
    firstRule? (.char '/' :: .char '*' :: more) =
      match blockEnd? more with
      | some n => some (.comment, n + 2)
      | none => some (.openComment, more.length + 2) := by
  have hcomment : ScanRule.comment.length? (.char '/' :: .char '*' :: more)
      = (blockEnd? more).map (· + 2) := rfl
  have hopen : ScanRule.openComment.length? (.char '/' :: .char '*' :: more)
      = some (more.length + 2) := rfl
  have hspace : ScanRule.space.length? (.char '/' :: .char '*' :: more) = none := rfl
  simp only [firstRule?, scanRules, List.findSome?, hspace, hcomment, hopen, Option.map_none]
  cases blockEnd? more <;> rfl

/-- The rule misses the end of what it matches. -/
def ScanRule.isOpen : ScanRule → Bool
  | .openComment | .openString => true
  | _ => false

/-- The rule found before a line end is open, or what comes behind the line end is not seen: a
comment up to a star and a slash. -/
theorem firstRule?_line_block (more : List Glyph) :
    (∃ rule n, firstRule? (.char '/' :: .char '*' :: more ++ [lineEnd]) = some (rule, n) ∧
        rule.isOpen = true) ∨
      ∀ hs, firstRule? (.char '/' :: .char '*' :: more ++ lineEnd :: hs) =
        firstRule? (.char '/' :: .char '*' :: more ++ [lineEnd]) := by
  have h := firstRule?_block (more ++ [lineEnd])
  cases hend : blockEnd? (more ++ [lineEnd]) with
  | none =>
    rw [hend] at h
    exact .inl ⟨.openComment, (more ++ [lineEnd]).length + 2, h, rfl⟩
  | some n =>
    rw [hend] at h
    refine .inr fun hs => ?_
    have hlong : blockEnd? (more ++ lineEnd :: hs) = some n := by
      simpa using blockEnd?_append hs hend
    have h' := firstRule?_block (more ++ lineEnd :: hs)
    rw [hlong] at h'
    exact h'.trans h.symm

/-- What comes behind the line end is not seen either, or the rule is open, where a literal starts. -/
theorem firstRule?_line_literal {q : Char} (hq : Mark.isQuoteChar q = true) (more : List Glyph) :
    (∃ rule n, firstRule? (.char q :: more ++ [lineEnd]) = some (rule, n) ∧ rule.isOpen = true) ∨
      ∀ hs, firstRule? (.char q :: more ++ lineEnd :: hs) =
        firstRule? (.char q :: more ++ [lineEnd]) := by
  have h := firstRule?_literal hq (more ++ [lineEnd])
  cases hend : quoteEnd? q (more ++ [lineEnd]) with
  | none =>
    rw [hend] at h
    exact .inl ⟨.openString, (more ++ [lineEnd]).length + 1, h, rfl⟩
  | some n =>
    rw [hend] at h
    refine .inr fun hs => ?_
    have hlong : quoteEnd? q (more ++ lineEnd :: hs) = some n := by
      simpa using quoteEnd?_append hs hend
    have h' := firstRule?_literal hq (more ++ lineEnd :: hs)
    rw [hlong] at h'
    exact h'.trans h.symm

/-- Blanks, comments and literals apart, all rules see what stands before a line end and no more. -/
theorem firstRule?_line_plain (hstop : ∃ g ∈ gs, g.isBlank = false)
    (hblock : ¬startsWithChars ['/', '*'] gs = true) (hquote : openingQuote? gs = none)
    (hs : List Glyph) : firstRule? (gs ++ lineEnd :: hs) = firstRule? gs := by
  have hspace : ScanRule.space.length? (gs ++ lineEnd :: hs) = ScanRule.space.length? gs := by
    simp only [ScanRule.length?, runLength_stop hstop]
  have hline : startsWithChars ['/', '/'] (gs ++ lineEnd :: hs)
      = startsWithChars ['/', '/'] gs := startsWithChars_line hs (by decide)
  have hstar : startsWithChars ['/', '*'] (gs ++ lineEnd :: hs)
      = startsWithChars ['/', '*'] gs := startsWithChars_line hs (by decide)
  have hcomment : ScanRule.comment.length? (gs ++ lineEnd :: hs)
      = ScanRule.comment.length? gs := by
    simp only [ScanRule.length?, commentLength?, hline, hstar, hblock]
    rw [takeWhile_line hs rfl]
    rfl
  have hopen : ScanRule.openComment.length? (gs ++ lineEnd :: hs)
      = ScanRule.openComment.length? gs := by
    rw [ScanRule.length?, ScanRule.length?, hstar, if_neg hblock, if_neg hblock]
  have hnumber : (ScanRule.terminal .number).length? (gs ++ lineEnd :: hs)
      = (ScanRule.terminal .number).length? gs := numberLength?_line hs
  have hident : (ScanRule.terminal .ident).length? (gs ++ lineEnd :: hs)
      = (ScanRule.terminal .ident).length? gs := identLength?_line hs
  have hnone : openingQuote? (gs ++ lineEnd :: hs) = none := (openingQuote?_line hs).trans hquote
  have hstring : (ScanRule.terminal .string).length? (gs ++ lineEnd :: hs)
      = (ScanRule.terminal .string).length? gs := by
    simp only [ScanRule.length?, hnone, hquote, Option.bind_none]
  have hopenString : ScanRule.openString.length? (gs ++ lineEnd :: hs)
      = ScanRule.openString.length? gs := by
    simp only [ScanRule.length?, hnone, hquote, Option.map_none]
  simp only [firstRule?, scanRules, List.findSome?, hspace, hcomment, hopen, hnumber, hstring,
    hopenString, hident, operatorLength?_line, punctLength?_line]

/-- **The rule found before a line end** is the same whatever comes behind the line end, unless
there are only blanks or the end of a comment or literal is missed. -/
theorem firstRule?_line (gs : List Glyph) :
    (∀ g ∈ gs, g.isBlank = true) ∨
      (∃ rule n, firstRule? (gs ++ [lineEnd]) = some (rule, n) ∧ rule.isOpen = true) ∨
      ∀ hs, firstRule? (gs ++ lineEnd :: hs) = firstRule? (gs ++ [lineEnd]) := by
  by_cases hblank : ∀ g ∈ gs, g.isBlank = true
  · exact .inl hblank
  right
  -- blanks, comments and literals are the rules that go past the end of the line
  have hstop : ∃ g ∈ gs, g.isBlank = false := by simpa using hblank
  by_cases hblock : startsWithChars ['/', '*'] gs = true
  · obtain ⟨more, rfl⟩ := List.isPrefixOf_iff_prefix.mp hblock
    exact firstRule?_line_block more
  cases hquote : openingQuote? gs with
  | some q =>
    obtain ⟨more, rfl, hq⟩ : ∃ more, gs = .char q :: more ∧ Mark.isQuoteChar q = true := by
      unfold openingQuote? at hquote
      split at hquote
      · split at hquote <;> cases hquote
        next hq => exact ⟨_, rfl, hq⟩
      · cases hquote
    exact firstRule?_line_literal hq more
  | none =>
    have hsees := firstRule?_line_plain hstop hblock hquote
    exact .inr fun hs => (hsees hs).trans (hsees []).symm

end

/-! ## §5 Scanning on -/

theorem scanFrom_blanks_append {gs : List Glyph} (hgs : ∀ g ∈ gs, g.isBlank = true)
    (loc : Location) (hs : List Glyph) :
    scanFrom loc 0 (gs ++ hs) = scanFrom (gs.foldl Location.after loc) 0 hs := by
  rw [← scanFrom_runLength, runLength_blanks hgs, scanFrom_passed_add, scanFrom_runLength]

/-- A terminal is found and put before those behind it. -/
theorem scanFrom_of_terminal {g : Glyph} {gs : List Glyph} {kind : TerminalKind} {n : Nat}
    (h : firstRule? (g :: gs) = some (.terminal kind, n)) (loc : Location) :
    scanFrom loc 0 (g :: gs) = (scanFrom (loc.after g) (n - 1) gs).map fun read =>
      (⟨kind, Glyph.text ((g :: gs).take n), loc⟩ :: read.1, read.2) := by
  rw [scanFrom, h]
  simp only
  cases scanFrom (loc.after g) (n - 1) gs <;> rfl

/-- What a scan up to a line end comes to, and what the scan comes to that goes on behind it: the
terminals are read and scanning goes on where it stopped, or nothing can be scanned with more text
either, or the end of a comment or literal is missed. -/
def GoesOnBehind (short : Except ScanError (List Terminal × Location))
    (long : List Glyph → Except ScanError (List Terminal × Location)) : Prop :=
  match short with
  | .ok (items, fin) =>
    ∀ hs, long hs = (scanFrom fin 0 hs).map fun read => (items ++ read.1, read.2)
  | .error e => e.fault = .openComment ∨ e.fault = .openString ∨ ∀ hs, (long hs).isOk = false

/-- A terminal at the head of both scans. -/
theorem GoesOnBehind.cons {short : Except ScanError (List Terminal × Location)}
    {long : List Glyph → Except ScanError (List Terminal × Location)}
    (h : GoesOnBehind short long) (x : Terminal) :
    GoesOnBehind (short.map fun read => (x :: read.1, read.2))
      fun hs => (long hs).map fun read => (x :: read.1, read.2) := by
  match short, h with
  | .ok (items, fin), h =>
    intro hs
    simp only [h hs]
    cases scanFrom fin 0 hs <;> rfl
  | .error e, h =>
    -- an error stays one, behind the terminal as well
    refine Or.imp_right (Or.imp_right fun h hs => ?_) h
    have hs' := h hs
    cases hlong : long hs with
    | ok read =>
      rw [hlong] at hs'
      cases hs'
    | error e =>
      show (Except.map _ (long hs)).isOk = false
      rw [hlong]
      rfl

theorem goesOnBehind_blanks {gs : List Glyph} (hgs : ∀ g ∈ gs, g.isBlank = true) (loc : Location) :
    GoesOnBehind (scanFrom loc 0 (gs ++ [lineEnd])) fun hs =>
      scanFrom loc 0 (gs ++ lineEnd :: hs) := by
  -- the line end is blank too, and so are all the glyphs up to it
  have hall : ∀ g ∈ gs ++ [lineEnd], g.isBlank = true := by
    refine List.forall_mem_append.mpr ⟨hgs, ?_⟩
    exact List.forall_mem_singleton.mpr rfl
  have hline := scanFrom_blanks_append hall loc []
  rw [List.append_nil] at hline
  rw [hline]
  intro hs
  have hmore := scanFrom_blanks_append hall loc hs
  rw [List.append_assoc] at hmore
  refine hmore.trans ?_
  cases scanFrom ((gs ++ [lineEnd]).foldl Location.after loc) 0 hs <;> rfl

/-- Where both scans find the same piece they go on in the same way behind its first glyph. -/
theorem goesOnBehind_piece {g : Glyph} {gs : List Glyph} {loc : Location}
    (hsame : ∀ hs, firstRule? (g :: (gs ++ lineEnd :: hs)) = firstRule? (g :: (gs ++ [lineEnd])))
    (hmore : ∀ n ≤ gs.length + 1, GoesOnBehind (scanFrom (loc.after g) n (gs ++ [lineEnd])) fun hs =>
      scanFrom (loc.after g) n (gs ++ lineEnd :: hs)) :
    GoesOnBehind (scanFrom loc 0 (g :: (gs ++ [lineEnd]))) fun hs =>
      scanFrom loc 0 (g :: (gs ++ lineEnd :: hs)) := by
  cases hrule : firstRule? (g :: (gs ++ [lineEnd])) with
  | none =>
    rw [scanFrom, hrule]
    refine .inr (.inr fun hs => ?_)
    show (scanFrom loc 0 (g :: (gs ++ lineEnd :: hs))).isOk = false
    rw [scanFrom, hsame, hrule]
    rfl
  | some found =>
    obtain ⟨rule, n⟩ := found
    have hn := ScanRule.length?_le (length?_of_firstRule? hrule).2
    simp only [List.length_cons, List.length_append, List.length_nil] at hn
    replace hmore := hmore (n - 1) (by omega)
    cases rule with
    | space | comment =>
      have hlong : (fun hs => scanFrom loc 0 (g :: (gs ++ lineEnd :: hs)))
          = fun hs => scanFrom (loc.after g) (n - 1) (gs ++ lineEnd :: hs) := by
        funext hs
        rw [scanFrom, hsame, hrule]
      rw [hlong, scanFrom, hrule]
      exact hmore
    | openComment =>
      rw [scanFrom, hrule]
      exact .inl rfl
    | openString =>
      rw [scanFrom, hrule]
      exact .inr (.inl rfl)
    | terminal kind =>
      -- the text of the terminal ends before the line does
      have htext (hs : List Glyph) : (g :: (gs ++ lineEnd :: hs)).take n
          = (g :: (gs ++ [lineEnd])).take n := by
        have hle : n ≤ (g :: (gs ++ [lineEnd])).length := by simpa using hn
        have htake : (g :: (gs ++ [lineEnd]) ++ hs).take n = (g :: (gs ++ [lineEnd])).take n :=
          List.take_append_of_le_length hle
        rw [← htake]
        simp
      have hlong : (fun hs => scanFrom loc 0 (g :: (gs ++ lineEnd :: hs)))
          = fun hs => (scanFrom (loc.after g) (n - 1) (gs ++ lineEnd :: hs)).map fun read =>
            (⟨kind, Glyph.text ((g :: (gs ++ [lineEnd])).take n), loc⟩ :: read.1, read.2) := by
        funext hs
        rw [scanFrom_of_terminal ((hsame hs).trans hrule), htext]
      rw [hlong, scanFrom_of_terminal hrule]
      exact hmore.cons _

/-- **Scanning behind a line end.** -/
theorem scanFrom_line {gs : List Glyph} {passed : Nat} (h : passed ≤ gs.length + 1)
    (loc : Location) :
    GoesOnBehind (scanFrom loc passed (gs ++ [lineEnd]))
      fun hs => scanFrom loc passed (gs ++ lineEnd :: hs) := by
  -- glyph by glyph; only at the first glyph of a piece a rule is looked for
  induction gs generalizing passed loc with
  | nil =>
    cases passed with
    | zero => exact goesOnBehind_blanks (by simp) loc
    | succ passed =>
      obtain rfl : passed = 0 := by simpa using h
      intro hs
      show scanFrom (loc.after lineEnd) 0 hs = _
      cases scanFrom (loc.after lineEnd) 0 hs <;> rfl
  | cons g gs ih =>
    cases passed with
    | succ passed => exact ih (Nat.le_of_succ_le_succ h) (loc.after g)
    | zero =>
      rcases firstRule?_line (g :: gs) with hgs | ⟨rule, n, hrule, hopen⟩ | hsame
      · exact goesOnBehind_blanks hgs loc
      · -- the end of a comment or literal is missed
        rw [List.cons_append] at hrule
        rw [List.cons_append, scanFrom, hrule]
        cases rule with
        | openComment => exact .inl rfl
        | openString => exact .inr (.inl rfl)
        | _ => cases hopen
      · exact goesOnBehind_piece hsame fun n hn => ih hn (loc.after g)

/-! ## §6 Terminals of texts that go on -/

section

variable {source : Text} {s : Stream}

/-- A source that ends a line, apart from the line end. -/
theorem exists_line (h : source.getLast? = some Text.newline) :
    ∃ gs, ∀ t : Text, Text.glyphs (source ++ t) = gs ++ lineEnd :: t.glyphs := by
  obtain ⟨pre, rfl⟩ := List.getLast?_eq_some_iff.mp h
  obtain ⟨gs, hgs⟩ := Text.glyphs_line pre
  refine ⟨gs, fun t => ?_⟩
  rw [List.append_assoc]
  exact hgs t

theorem goesOnBehind_source (h : source.getLast? = some Text.newline) :
    GoesOnBehind (scanFrom .start 0 source.glyphs) fun hs =>
      scanFrom .start 0 (source.glyphs ++ hs) := by
  obtain ⟨gs, hgs⟩ := exists_line h
  have hsource : source.glyphs = gs ++ [lineEnd] := by
    have := hgs []
    rwa [List.append_nil] at this
  have hline : GoesOnBehind (scanFrom .start 0 (gs ++ [lineEnd])) fun hs =>
      scanFrom .start 0 (gs ++ lineEnd :: hs) := scanFrom_line (Nat.zero_le _) .start
  rw [hsource]
  simpa using hline

theorem glyphs_append (h : source.getLast? = some Text.newline) (t : Text) :
    Text.glyphs (source ++ t) = source.glyphs ++ t.glyphs := by
  obtain ⟨gs, hgs⟩ := exists_line h
  have hsource := hgs []
  rw [List.append_nil] at hsource
  rw [hgs, hsource, List.append_assoc]
  rfl

theorem scanTerminals_eq (t : Text) :
    scanTerminals t = (scanFrom .start 0 t.glyphs).map fun read => ⟨read.1.toArray, read.2⟩ := by
  rw [scanTerminals]
  cases scanFrom .start 0 t.glyphs <;> rfl

/-- **More text behind a line** adds its terminals and changes none. -/
theorem scanTerminals_append (hline : source.getLast? = some Text.newline)
    (h : scanTerminals source = .ok s) (t : Text) :
    scanTerminals (source ++ t) = (scanFrom s.ending 0 t.glyphs).map fun read =>
      ⟨s.items ++ read.1.toArray, read.2⟩ := by
  obtain ⟨⟨items, fin⟩, hscan, hs⟩ := bind_eq_ok.mp h
  cases hs
  have hgoes := goesOnBehind_source hline
  rw [hscan] at hgoes
  have hlong : scanFrom .start 0 (source.glyphs ++ t.glyphs) = _ := hgoes t.glyphs
  rw [scanTerminals_eq, glyphs_append hline, hlong]
  cases scanFrom fin 0 t.glyphs <;> simp [Except.map]

/-- What cannot be scanned is not mended by more text, unless a comment or literal is open. -/
theorem scanTerminals_append_error {e : ScanError} (hline : source.getLast? = some Text.newline)
    (h : scanTerminals source = .error e) (hcomment : e.fault ≠ .openComment)
    (hstring : e.fault ≠ .openString) (t : Text) : ∃ e', scanTerminals (source ++ t) = .error e' := by
  have hscan : scanFrom .start 0 source.glyphs = .error e := by
    rw [scanTerminals_eq] at h
    cases hscan : scanFrom .start 0 source.glyphs with
    | error e' =>
      rw [hscan] at h
      cases h
      rfl
    | ok read =>
      rw [hscan] at h
      cases h
  -- the two open ends are excluded, so the text behind does not matter
  have hgoes := goesOnBehind_source hline
  rw [hscan] at hgoes
  have hfails : (scanFrom .start 0 (source.glyphs ++ t.glyphs)).isOk = false :=
    (hgoes.resolve_left hcomment).resolve_left hstring t.glyphs
  rw [scanTerminals_eq, glyphs_append hline]
  cases hlong : scanFrom .start 0 (source.glyphs ++ t.glyphs) with
  | error e' => exact ⟨e', rfl⟩
  | ok read =>
    rw [hlong] at hfails
    cases hfails

end

/-! ## §7 What terminals are -/

/-- The terminal is not the end of the source, and if it is a number it is written like one. -/
structure Terminal.Proper (x : Terminal) : Prop where
  kind : x.kind ≠ .ending
  numeral : x.kind = .number → IsNumeral x.text

theorem exists_take_runLength (p : Char → Bool) (gs : List Glyph) :
    ∃ w, (∀ c ∈ w, p c = true) ∧ gs.take (runLength p gs) = glyphsOf w ∧
      w.length = runLength p gs := by
  unfold runLength
  -- a stray byte ends the run, and so does a character without the property
  induction gs with
  | nil => exact ⟨[], by simp, rfl, rfl⟩
  | cons g gs ih =>
    obtain ⟨w, hw, htake, hlength⟩ := ih
    match g with
    | .stray b => exact ⟨[], by simp, rfl, rfl⟩
    | .char c =>
      cases hc : p c with
      | true =>
        refine ⟨c :: w, List.forall_mem_cons.mpr ⟨hc, hw⟩, ?_, ?_⟩
        · simp [hc, htake]
        · simp [hc, hlength]
      | false => exact ⟨[], by simp, by simp [hc], by simp [hc]⟩

theorem numeral_of_numberLength? {gs : List Glyph} {n : Nat} (h : numberLength? gs = some n) :
    ∃ w, Numeral w ∧ gs.take n = glyphsOf w := by
  obtain ⟨w, hw, htake, hlength⟩ := exists_take_runLength isDecimalDigit gs
  simp only [numberLength?] at h
  split at h
  · cases h
  · next hsome =>
    have hne : w ≠ [] := by
      rintro rfl
      rw [List.length_nil] at hlength
      simp [← hlength] at hsome
    split at h
    -- behind a point the number goes on with what digits there are
    · next rest hdrop =>
      cases h
      obtain ⟨v, hv, hmore, _⟩ := exists_take_runLength isDecimalDigit rest
      refine ⟨w ++ '.' :: v, .pointed w v hne hw hv, ?_⟩
      rw [Nat.add_assoc, List.take_add, htake, hdrop, Nat.add_comm 1, List.take_succ_cons, hmore]
      simp
    · cases h
      exact ⟨w, .whole w hne hw, htake⟩

/-- A terminal is what the rule of its kind matches. -/
theorem exists_length?_of_scanFrom {loc fin : Location} {passed : Nat} {gs : List Glyph}
    {items : List Terminal} (h : scanFrom loc passed gs = .ok (items, fin)) : ∀ x ∈ items,
      ∃ hs n, (ScanRule.terminal x.kind).length? hs = some n ∧ x.text = Glyph.text (hs.take n) := by
  induction gs generalizing loc passed items with
  | nil =>
    cases passed <;> cases h <;> simp
  | cons g gs ih =>
    cases passed with
    | succ passed => exact ih h
    | zero =>
      rw [scanFrom] at h
      split at h
      · cases h
      · cases h
      · cases h
      · next kind n hrule =>
        -- a rule matched at the head, so its length is known, and what is behind is scanned on
        obtain ⟨⟨more, fin'⟩, hmore, hread⟩ := bind_eq_ok.mp h
        cases hread
        exact List.forall_mem_cons.mpr
          ⟨⟨g :: gs, n, (length?_of_firstRule? hrule).2, rfl⟩, ih hmore⟩
      · exact ih h
      · exact ih h

theorem proper_of_length? {x : Terminal} {gs : List Glyph} {n : Nat}
    (h : (ScanRule.terminal x.kind).length? gs = some n) (htext : x.text = Glyph.text (gs.take n)) :
    x.Proper := by
  refine ⟨?_, ?_⟩
  · intro hkind
    rw [hkind] at h
    cases h
  · intro hkind
    rw [hkind] at h
    obtain ⟨w, hw, htake⟩ := numeral_of_numberLength? h
    exact ⟨w, hw, by rw [htext, htake, text_glyphsOf]⟩

theorem proper_of_scanFrom {loc fin : Location} {passed : Nat} {gs : List Glyph}
    {items : List Terminal} (h : scanFrom loc passed gs = .ok (items, fin)) :
    ∀ x ∈ items, x.Proper := fun x hx => by
  obtain ⟨hs, n, hlength, htext⟩ := exists_length?_of_scanFrom h x hx
  exact proper_of_length? hlength htext

/-- The terminals of a source are proper. -/
theorem proper_of_scanTerminals {source : Text} {s : Stream} (h : scanTerminals source = .ok s) :
    ∀ x ∈ s.items.toList, x.Proper := by
  obtain ⟨⟨items, fin⟩, hscan, hs⟩ := bind_eq_ok.mp h
  cases hs
  exact proper_of_scanFrom hscan

theorem word_of_identLength? {gs : List Glyph} {n : Nat} (h : identLength? gs = some n) :
    ∃ w, IsWord w ∧ gs.take n = glyphsOf w := by
  unfold identLength? at h
  split at h
  · next c rest =>
    split at h
    · next hc =>
      cases h
      obtain ⟨w, hw, htake, _⟩ :=
        exists_take_runLength (fun d => isWordStart d || isDecimalDigit d) rest
      refine ⟨c :: w, ⟨c, w, rfl, hc, hw⟩, ?_⟩
      rw [Nat.add_comm, List.take_succ_cons, htake]
      rfl
    · cases h
  · cases h

/-- The names of a source are words. -/
theorem word_of_scanTerminals {source : Text} {s : Stream} (h : scanTerminals source = .ok s) :
    ∀ x ∈ s.items.toList, x.kind = .ident → ∃ w, IsWord w ∧ x.text = Text.ofChars w := by
  obtain ⟨⟨items, fin⟩, hscan, hs⟩ := bind_eq_ok.mp h
  cases hs
  intro x hx hkind
  obtain ⟨hs, n, hlength, htext⟩ := exists_length?_of_scanFrom hscan x hx
  rw [hkind] at hlength
  obtain ⟨w, hw, htake⟩ := word_of_identLength? hlength
  exact ⟨w, hw, by rw [htext, htake, text_glyphsOf]⟩

end Scriptlet
