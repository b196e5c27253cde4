import Mathlib.Data.List.Chain
import Mathlib.Data.List.Forall2
import Scriptlet.Proofs.Comments
import Scriptlet.Proofs.Spelling

/-!
# The tokens of a text without comments spell it

The tokenizer pairs escapes, removes comments and reads the marks that are left one at a time. If
nothing was removed, the tokens spell the source. The proof follows the marks with both states at
once: the comment mode, which says that no slash is followed by another slash or a star, and what
is pending, whose characters together with those to come spell the tokens to come.

Outside string literals a mark is read in one of four ways (`Scan.CodeStep`): what is pending goes
on with it, it begins something, or it ends what is pending as a delimiter or a blank. What a step
preserves is proved along these ways, here and for the other invariants of the scanner.

## Contents

- §1 what is pending
- §2 splitting runs of operators
- §3 completing what is pending
- §4 one mark
- §5 whole texts
-/

namespace Scriptlet

/-! ## §1 What is pending -/

/-- A slash in the run is followed by neither a slash nor a star. -/
def NoComment (run : List Char) : Prop :=
  run.IsChain fun a b => a = '/' → b ≠ '/' ∧ b ≠ '*'

namespace Pending

/-- What is pending is the start of what it says. -/
def Good : Pending → Prop
  | .nothing | .string _ _ _ => True
  | .word cs _ => IsWord cs.reverse
  | .number cs pointed _ => Numeral cs.reverse ∧ (pointed = true ↔ '.' ∈ cs)
  | .operators marks => (∀ m ∈ marks, m.escaped = false ∧ m.char ∈ operatorChars) ∧
      NoComment (marks.reverse.map Mark.char)

/-- The mode of comment removal where something is pending. -/
def mode : Pending → CommentMode
  | .string q _ _ => .quoted q
  | .operators (m :: _) => if m.isPlain '/' then .slash m else .code
  | _ => .code

/-- What is pending together with the characters to come spells the symbols to come. -/
def Resumes (cs : List Char) (xs : List Symbol) : Pending → Prop
  | .nothing => Spells cs xs
  | .word w _ => Spells (w.reverse ++ cs) xs
  | .number w _ _ => Spells (w.reverse ++ cs) xs
  | .operators marks => Spells (marks.reverse.map Mark.char ++ cs) xs
  | .string q value _ => ∃ body more cs' xs', cs = body ++ q :: cs' ∧ Quoted q body more ∧
      xs = .string (Text.ofChars (value.reverse ++ more)) :: xs' ∧ Spells cs' xs'

/-- The characters do not continue what is pending. -/
def StopsAt (cs : List Char) : Pending → Prop
  | .nothing => True
  | .word _ _ => ∀ c, cs.head? = some c → isWordChar c = false
  | .number w _ _ => ∀ c, cs.head? = some c → isDecimalDigit c = false ∧ (c = '.' → '.' ∈ w)
  | .operators _ => ∀ c, cs.head? = some c → c ∉ operatorChars
  | .string _ _ _ => False

theorem stopsAt_nil {p : Pending} (h : ∀ q value loc, p ≠ .string q value loc) : p.StopsAt [] := by
  cases p with
  | string q value loc => exact absurd rfl (h q value loc)
  | nothing => trivial
  | _ => exact fun c hc => by cases hc

/-- Outside string literals comments are removed as in code, or behind a slash. -/
theorem mode_cases {p : Pending} (h : ∀ q value loc, p ≠ .string q value loc) :
    p.mode = .code ∨ ∃ m, p.mode = .slash m := by
  cases p with
  | string q value loc => exact absurd rfl (h q value loc)
  | operators marks =>
    -- only a run that ends with a slash may turn out to be a comment
    cases marks with
    | nil => exact .inl rfl
    | cons m marks =>
      rw [mode]
      split
      · exact .inr ⟨m, rfl⟩
      · exact .inl rfl
  | _ => exact .inl rfl

end Pending

namespace Scan

variable {s : Scan}

/-- Outside string literals a mark is read as in code. -/
theorem step_eq (h : ∀ q value loc, s.pending ≠ .string q value loc) (m : Mark) :
    s.step m = s.stepCode m := by
  unfold step
  split
  · next q value loc hp => exact absurd hp (h q value loc)
  · rfl

/-- At the end of a source that is not inside a string literal, what is pending is completed. -/
theorem finish_eq (h : ∀ q value loc, s.pending ≠ .string q value loc) :
    s.finish = s.flush >>= fun flushed => .ok flushed.done.reverse := by
  unfold finish
  split
  · next q value loc hp => exact absurd hp (h q value loc)
  · rfl

/-- Behind a flush nothing is pending, except that a string literal is not flushed. -/
theorem pending_of_flush {s s' : Scan} (h : s.flush = .ok s') :
    s'.pending = .nothing ∨ ∃ q cs loc, s.pending = .string q cs loc := by
  unfold flush at h
  split at h
  · next hpending =>
    cases h
    exact .inl hpending
  · next q cs loc hpending => exact .inr ⟨q, cs, loc, hpending⟩
  · cases h
    exact .inl rfl
  · cases h
    exact .inl rfl
  · obtain ⟨ops, _, heq⟩ := bind_eq_ok.mp h
    cases heq
    exact .inl rfl

end Scan

/-! ## §2 Splitting runs of operators -/

/-- Characters behind a run that are no operator characters make no difference to the longest
operator at its start. -/
theorem leading?_append {run cs : List Char}
    (hcs : ∀ c, cs.head? = some c → c ∉ operatorChars) :
    Operator.leading? (run ++ cs) = Operator.leading? run := by
  unfold Operator.leading?
  congr 1
  funext op
  rw [Bool.eq_iff_iff, List.isPrefixOf_iff_prefix, List.isPrefixOf_iff_prefix]
  refine ⟨?_, List.prefix_append_of_prefix⟩
  rintro ⟨rest, hrest⟩
  -- an operator that fits the longer text either fits the run or has a character behind it
  rcases List.append_eq_append_iff.mp hrest with ⟨more, hmore, _⟩ | ⟨more, hmore, hcs'⟩
  · exact ⟨more, hmore.symm⟩
  · cases more with
    | nil => exact ⟨[], by rw [hmore, List.append_nil, List.append_nil]⟩
    | cons c more =>
      have hc : c ∈ op.chars := by rw [hmore]; simp
      exact absurd (Operator.mem_operatorChars hc) (hcs c (by rw [hcs']; rfl))

theorem splitOperators_passed (passed : Nat) (marks : List Mark) :
    splitOperators passed marks = splitOperators 0 (marks.drop passed) := by
  induction marks generalizing passed with
  | nil => simp [splitOperators]
  | cons m marks ih =>
    cases passed with
    | zero => rfl
    | succ passed => rw [splitOperators, ih, List.drop_succ_cons]

/-- The operators of a run spell it, whatever follows that is no part of it. -/
theorem spells_of_splitOperators {marks : List Mark} {ops : List Placed} {cs : List Char}
    {xs : List Symbol} (h : splitOperators 0 marks = .ok ops)
    (hno : NoComment (marks.map Mark.char)) (hcs : ∀ c, cs.head? = some c → c ∉ operatorChars)
    (hxs : Spells cs xs) :
    Spells (marks.map Mark.char ++ cs) (ops.map (·.1.symbol) ++ xs) ∧ ∀ x ∈ ops, x.1.Proper := by
  match marks, h with
  | [], h =>
    cases h
    exact ⟨hxs, by simp⟩
  | m :: marks, h =>
    rw [splitOperators] at h
    split at h
    · cases h
    · next op hop =>
      obtain ⟨more, hmore, heq⟩ := bind_eq_ok.mp h
      cases heq
      -- the operator is the start of the run, and the rest of the run goes on behind it
      obtain ⟨behind, hbehind⟩ := Operator.prefix_of_leading? hop
      have hdrop : (marks.drop (op.chars.length - 1)).map Mark.char = behind := by
        obtain ⟨c, tail, hchars⟩ := List.exists_cons_of_ne_nil op.chars_ne_nil
        rw [hchars, List.cons_append, List.map_cons] at hbehind
        rw [List.map_drop, ← (List.cons.inj hbehind).2, hchars, List.length_cons,
          Nat.add_sub_cancel, List.drop_left]
      -- what follows the run starts with no operator character, so the longest operator is the same
      have hlead : Operator.leading? (op.chars ++ (behind ++ cs)) = some op := by
        rw [← List.append_assoc, leading?_append hcs, hbehind, hop]
      have hcomment : op = .divide → ∀ c, (behind ++ cs).head? = some c → c ≠ '/' ∧ c ≠ '*' := by
        rintro rfl c hc
        cases behind with
        | nil =>
          have hother := hcs c hc
          constructor <;> rintro rfl <;> exact hother (by decide)
        | cons d behind =>
          obtain rfl : d = c := by simpa using hc
          rw [← hbehind] at hno
          exact (List.isChain_cons_cons.mp hno).1 rfl
      rw [splitOperators_passed] at hmore
      have hshorter : (marks.drop (op.chars.length - 1)).length < (m :: marks).length := by
        rw [List.length_drop, List.length_cons]
        omega
      have hnext : NoComment ((marks.drop (op.chars.length - 1)).map Mark.char) := by
        rw [hdrop]
        rw [← hbehind] at hno
        exact (List.isChain_append.mp hno).2.1
      obtain ⟨hspells, hproper⟩ := spells_of_splitOperators hmore hnext hcs hxs
      rw [hdrop] at hspells
      refine ⟨?_, fun x hx => ?_⟩
      · rw [← hbehind, List.append_assoc, List.map_cons, List.cons_append]
        exact .operator op _ _ hlead hcomment hspells
      · rcases List.mem_cons.mp hx with rfl | hx
        · trivial
        · exact hproper x hx
termination_by marks.length

/-! ## §3 Completing what is pending -/

/-- The lexeme of a word is the word, and one that is not reserved is a name. -/
theorem Lexeme.ofWord_proper (t : Text) :
    (Lexeme.ofWord t).symbol = .word t ∧ (Lexeme.ofWord t).Proper := by
  unfold Lexeme.ofWord
  split
  · next k hk =>
    unfold Keyword.ofText? at hk
    have hspelling := List.find?_some hk
    exact ⟨congrArg Symbol.word (by simpa using hspelling), trivial⟩
  · next hk => exact ⟨rfl, by rw [Lexeme.Proper, isReserved, hk]; rfl⟩

theorem Lexeme.kind_ofWord (t : Text) : (Lexeme.ofWord t).kind = .name := by
  unfold Lexeme.ofWord
  split <;> rfl

/-- The lexeme of a word has the text of the word. -/
theorem Lexeme.value_ofWord (t : Text) : (Lexeme.ofWord t).value = t := by
  unfold Lexeme.ofWord
  split
  · next k hk =>
    have hspelling := List.find?_some hk
    exact beq_iff_eq.mp hspelling
  · rfl

/-- What is complete spells what was pending. -/
theorem flush_spells {s s' : Scan} (h : s.flush = .ok s') (hgood : s.pending.Good)
    (hstring : ∀ q value loc, s.pending ≠ .string q value loc) :
    ∃ ps : List Placed, s' = ⟨ps.reverse ++ s.done, .nothing⟩ ∧ (∀ x ∈ ps, x.1.Proper) ∧
      ∀ cs xs, s.pending.StopsAt cs → Spells cs xs →
        s.pending.Resumes cs (ps.map (·.1.symbol) ++ xs) := by
  obtain ⟨done, pending⟩ := s
  -- each kind of lexeme is spelled by the characters that were collected for it
  cases pending with
  | nothing =>
    cases h
    exact ⟨[], rfl, by simp, fun _ _ _ h => h⟩
  | string q value loc => exact absurd rfl (hstring q value loc)
  | word w loc =>
    cases h
    obtain ⟨hsymbol, hproper⟩ := Lexeme.ofWord_proper (Text.ofChars w.reverse)
    refine ⟨[(.ofWord (Text.ofChars w.reverse), loc)], rfl, by simpa using hproper, ?_⟩
    intro cs xs hstop hxs
    rw [List.map_cons, hsymbol]
    exact .word w.reverse cs xs hgood hstop hxs
  | number w pointed loc =>
    cases h
    obtain ⟨hnumeral, _⟩ := hgood
    refine ⟨[(.number (Text.ofChars w.reverse), loc)], rfl, ?_, ?_⟩
    · simpa [Lexeme.Proper] using ⟨_, hnumeral, rfl⟩
    · intro cs xs hstop hxs
      refine .number w.reverse cs xs hnumeral (fun c hc => ?_) hxs
      exact ⟨(hstop c hc).1, fun hpoint => List.mem_reverse.mpr ((hstop c hc).2 hpoint)⟩
  | operators marks =>
    obtain ⟨ops, hops, heq⟩ := bind_eq_ok.mp h
    cases heq
    have hproper := (spells_of_splitOperators hops hgood.2 (by simp) Spells.nil).2
    exact ⟨ops, rfl, hproper, fun cs xs hstop hxs =>
      (spells_of_splitOperators hops hgood.2 hstop hxs).1⟩

/-! ## §4 One mark -/

/-- What the class of a mark says about it. -/
inductive Mark.Seen (m : Mark) : MarkClass → Prop where
  | letter (he : m.escaped = false) (hc : isWordStart m.char = true) : Seen m .letter
  | digit (he : m.escaped = false) (hc : isDecimalDigit m.char = true) : Seen m .digit
  | operator (he : m.escaped = false) (hc : m.char ∈ SignClass.operator.members) :
      Seen m .operator
  | delimiter (f : Family) (s : Side) (he : m.escaped = false) (hc : m.char = f.char s) :
      Seen m (.delimiter f s)
  | quote (he : m.escaped = false) (hc : m.char ∈ SignClass.quote.members) : Seen m .quote
  | blank (he : m.escaped = false) (hc : m.char ∈ SignClass.blank.members) : Seen m .blank
  | other : Seen m .other

theorem Mark.seen (m : Mark) : m.Seen m.markClass := by
  unfold markClass
  -- in the order of the tests, each of which knows that those before it failed
  split
  · exact .other
  · next he =>
    have he : m.escaped = false := Bool.not_eq_true _ ▸ he
    split
    · next hc => exact .letter he hc
    · split
      · next hc => exact .digit he hc
      · split
        · next hc => exact .operator he (SignClass.mem_operator.mp hc)
        · split
          · next f s hfamily =>
            unfold Family.ofChar? at hfamily
            have hchar := List.find?_some hfamily
            exact .delimiter f s he (beq_iff_eq.mp hchar).symm
          · split
            · next hc => exact .quote he (SignClass.mem_quote.mp hc)
            · split
              · next hc => exact .blank he (SignClass.mem_blank.mp hc)
              · exact .other

theorem Mark.seen_of_markClass {m : Mark} {k : MarkClass} (h : m.markClass = k) : m.Seen k :=
  h ▸ m.seen

/-- What the mark begins where nothing goes on with it. -/
inductive Mark.Begins (m : Mark) : Pending → Prop where
  | word (h : m.markClass = .letter) : Begins m (.word [m.char] m.loc)
  | number (h : m.markClass = .digit) : Begins m (.number [m.char] false m.loc)
  | operators (h : m.markClass = .operator) : Begins m (.operators [m])
  | string (h : m.markClass = .quote) : Begins m (.string m.char [] m.loc)

/-- What is pending goes on with the mark, and what is pending then. -/
inductive Pending.Continues (m : Mark) : Pending → Pending → Prop where
  | word (cs : List Char) (loc : Location) (h : m.markClass = .letter ∨ m.markClass = .digit) :
      Continues m (.word cs loc) (.word (m.char :: cs) loc)
  | number (cs : List Char) (pointed : Bool) (loc : Location) (h : m.markClass = .digit) :
      Continues m (.number cs pointed loc) (.number (m.char :: cs) pointed loc)
  /-- A number goes on with its first point. -/
  | point (cs : List Char) (loc : Location) (h : m.markClass = .operator) (hpoint : m.char = '.') :
      Continues m (.number cs false loc) (.number ('.' :: cs) true loc)
  | operators (marks : List Mark) (h : m.markClass = .operator) :
      Continues m (.operators marks) (.operators (m :: marks))

namespace Scan

variable {s s' : Scan} {m : Mark} {p : Pending}

/-- What reading a mark outside string literals can come to. -/
inductive CodeStep (s : Scan) (m : Mark) : Scan → Prop where
  | continues {p : Pending} (h : s.pending.Continues m p) : CodeStep s m { s with pending := p }
  | begins {p : Pending} {s' : Scan} (hno : ∀ q, ¬s.pending.Continues m q) (hp : m.Begins p)
      (h : s.flushTo p = .ok s') : CodeStep s m s'
  | delimiter {f : Family} {side : Side} {t : Scan} (hm : m.markClass = .delimiter f side)
      (h : s.flush = .ok t) : CodeStep s m { t with done := (.delimiter f side, m.loc) :: t.done }
  | blank {s' : Scan} (hm : m.markClass = .blank) (h : s.flush = .ok s') : CodeStep s m s'

theorem stepCode_of_continues (h : s.pending.Continues m p) :
    s.stepCode m = .ok { s with pending := p } := by
  obtain ⟨done, pending⟩ := s
  unfold stepCode
  cases h with
  | word cs loc h =>
    rcases h with h | h
    · rw [h]
    · rw [h]
  | number cs pointed loc h | operators marks h => rw [h]
  | point cs loc h hpoint =>
    rw [h, hpoint]
    rfl

theorem stepCode_of_begins (hno : ∀ q, ¬s.pending.Continues m q) (hp : m.Begins p) :
    s.stepCode m = s.flushTo p := by
  obtain ⟨done, pending⟩ := s
  unfold stepCode
  -- what goes on with the class of the mark is excluded, and everything else is flushed
  cases hp with
  | word h =>
    rw [h]
    cases pending with
    | word cs loc => exact absurd (.word cs loc (.inl h)) (hno _)
    | _ => rfl
  | number h =>
    rw [h]
    cases pending with
    | word cs loc => exact absurd (.word cs loc (.inr h)) (hno _)
    | number cs pointed loc => exact absurd (.number cs pointed loc h) (hno _)
    | _ => rfl
  | operators h =>
    rw [h]
    cases pending with
    | operators marks => exact absurd (.operators marks h) (hno _)
    | number cs pointed loc =>
      by_cases hpoint : m.char = '.' ∧ pointed = false
      · obtain ⟨hpoint, rfl⟩ := hpoint
        exact absurd (.point cs loc h hpoint) (hno _)
      · have hfalse : (m.char == '.' && !pointed) = false := by simpa using hpoint
        simp only [hfalse, Bool.false_eq_true, if_false]
    | _ => rfl
  | string h => rw [h]

/-- A mark that is read outside string literals makes one of the steps. -/
theorem codeStep_of_stepCode (h : s.stepCode m = .ok s') : s.CodeStep m s' := by
  by_cases hgo : ∃ q, s.pending.Continues m q
  · obtain ⟨q, hq⟩ := hgo
    rw [stepCode_of_continues hq] at h
    cases h
    exact .continues hq
  have hno := not_exists.mp hgo
  have hbegins {p : Pending} (hp : m.Begins p) : s.CodeStep m s' :=
    .begins hno hp (stepCode_of_begins hno hp ▸ h)
  cases hclass : m.markClass with
  | letter => exact hbegins (.word hclass)
  | digit => exact hbegins (.number hclass)
  | operator => exact hbegins (.operators hclass)
  | quote => exact hbegins (.string hclass)
  | delimiter f side =>
    rw [stepCode, hclass] at h
    obtain ⟨t, ht, heq⟩ := bind_eq_ok.mp h
    cases heq
    exact .delimiter hclass ht
  | blank =>
    rw [stepCode, hclass] at h
    exact .blank hclass h
  | other =>
    rw [stepCode, hclass] at h
    cases h

end Scan

/-- A mark takes the scanner from a state to another: the comment mode behind the mark is the one of
what is then pending, and the lexemes completed on the way spell what was pending before and the
mark. -/
structure Advances (s : Scan) (m : Mark) (mode : CommentMode) (s' : Scan) : Prop where
  good : s'.pending.Good
  mode_eq : s'.pending.mode = mode
  spells : ∃ ps : List Placed, s'.done = ps.reverse ++ s.done ∧ (∀ x ∈ ps, x.1.Proper) ∧
    ∀ cs xs, s'.pending.Resumes cs xs →
      s.pending.Resumes (m.raw ++ cs) (ps.map (·.1.symbol) ++ xs)

/-- Where what is pending ends, it is completed and the mark starts something new. -/
theorem advances_of_flush {s s' : Scan} {m : Mark} {mode : CommentMode} {p : Pending}
    {new : List Placed} (h : s.flush = .ok s') (hgood : s.pending.Good)
    (hstring : ∀ q value loc, s.pending ≠ .string q value loc)
    (hstop : ∀ cs, s.pending.StopsAt (m.raw ++ cs)) (hp : p.Good) (hmode : p.mode = mode)
    (hnew : ∀ x ∈ new, x.1.Proper)
    (hspells : ∀ cs xs, p.Resumes cs xs → Spells (m.raw ++ cs) (new.map (·.1.symbol) ++ xs)) :
    Advances s m mode ⟨new.reverse ++ s'.done, p⟩ := by
  -- the new lexemes stand behind those that were pending
  obtain ⟨ps, rfl, hproper, hresume⟩ := flush_spells h hgood hstring
  refine ⟨hp, hmode, ps ++ new, by simp, fun x hx => ?_, fun cs xs hcs => ?_⟩
  · rcases List.mem_append.mp hx with hx | hx
    · exact hproper x hx
    · exact hnew x hx
  · rw [List.map_append, List.append_assoc]
    exact hresume _ _ (hstop cs) (hspells cs xs hcs)

theorem advances_of_flushTo {s s' : Scan} {m : Mark} {mode : CommentMode} {p : Pending}
    (h : s.flushTo p = .ok s') (hgood : s.pending.Good)
    (hstring : ∀ q value loc, s.pending ≠ .string q value loc)
    (hstop : ∀ cs, s.pending.StopsAt (m.raw ++ cs)) (hp : p.Good) (hmode : p.mode = mode)
    (hspells : ∀ cs xs, p.Resumes cs xs → Spells (m.raw ++ cs) xs) : Advances s m mode s' := by
  obtain ⟨t, ht, heq⟩ := bind_eq_ok.mp h
  cases heq
  have hnone : ∀ x ∈ ([] : List Placed), x.1.Proper := by simp
  exact advances_of_flush ht hgood hstring hstop hp hmode hnone hspells

/-- A mark that makes what is pending longer completes nothing. -/
theorem advances_of_extend {s : Scan} {m : Mark} {mode : CommentMode} {p : Pending}
    (hp : p.Good) (hmode : p.mode = mode)
    (hresume : ∀ cs xs, p.Resumes cs xs → s.pending.Resumes (m.raw ++ cs) xs) :
    Advances s m mode { s with pending := p } :=
  ⟨hp, hmode, [], rfl, by simp, hresume⟩

/-- Outside string literals neither quotes nor slashes stand in the other classes. -/
theorem stepCode_eq_code {m : Mark} (hquote : Mark.isQuoteChar m.char = false)
    (hslash : m.char ≠ '/') : (CommentMode.stepCode m).1 = .code := by
  simp [CommentMode.stepCode, Mark.isQuote, Mark.isPlain, hquote, hslash]

namespace Pending

variable {p : Pending} {k : SignClass} {c : Char} {cs : List Char}

/-- A sign that is no part of an operator ends whatever is pending. -/
theorem stopsAt_sign (hstring : ∀ q value loc, p ≠ .string q value loc) (hc : c ∈ k.members)
    (hk : k ≠ .operator) : p.StopsAt (c :: cs) := by
  -- a point belongs to operators, and the sign is of another class
  have hpoint : c ≠ '.' := by
    rintro rfl
    exact SignClass.not_mem (l := .operator) hc hk (by decide)
  cases p with
  | nothing => trivial
  | string q value loc => exact absurd rfl (hstring q value loc)
  | word w loc =>
    rintro _ ⟨⟩
    exact SignClass.not_wordChar hc
  | number w pointed loc =>
    rintro _ ⟨⟩
    exact ⟨SignClass.not_digit hc, fun h => absurd h hpoint⟩
  | operators marks =>
    rintro _ ⟨⟩
    exact SignClass.not_mem (l := .operator) hc hk

/-- A character of a word ends a run of operators. -/
theorem stopsAt_wordChar {marks : List Mark} (hc : isWordChar c = true) :
    (Pending.operators marks).StopsAt (c :: cs) := by
  rintro _ ⟨⟩
  exact not_mem_of_wordChar (k := .operator) hc

end Pending

theorem IsWord.push {w : List Char} {c : Char} (h : IsWord w) (hc : isWordChar c = true) :
    IsWord (w ++ [c]) := by
  obtain ⟨d, more, rfl, hd, hmore⟩ := h
  refine ⟨d, more ++ [c], rfl, hd, fun e he => ?_⟩
  rcases List.mem_append.mp he with he | he
  · exact hmore e he
  · rw [List.mem_singleton.mp he]
    exact hc

theorem Numeral.push {w : List Char} {c : Char} (h : Numeral w) (hc : isDecimalDigit c = true) :
    Numeral (w ++ [c]) := by
  have hpush : ∀ ds : List Char, (∀ d ∈ ds, isDecimalDigit d = true) →
      ∀ d ∈ ds ++ [c], isDecimalDigit d = true := by
    intro ds hds d hd
    rcases List.mem_append.mp hd with hd | hd
    · exact hds d hd
    · rw [List.mem_singleton.mp hd]
      exact hc
  -- digits are added to the part of the numeral that was last
  cases h with
  | whole _ _ hds => exact .whole _ (by simp) (hpush w hds)
  | pointed ds fs hne hds hfs =>
    rw [List.append_assoc, List.cons_append]
    exact .pointed ds (fs ++ [c]) hne hds (hpush fs hfs)

/-- A number without a point may get one. -/
theorem Numeral.point {w : List Char} (h : Numeral w) (hpoint : '.' ∉ w) :
    Numeral (w ++ ['.']) := by
  cases h with
  | whole _ hne hds => exact .pointed w [] hne hds (by simp)
  | pointed ds fs => exact absurd (by simp) hpoint

/-- A run of operators goes on with a character that opens no comment behind its last one. -/
theorem NoComment.push {marks : List Mark} {m : Mark} (h : NoComment (marks.reverse.map Mark.char))
    (hm : ∀ l, marks.head? = some l → l.char = '/' → m.char ≠ '/' ∧ m.char ≠ '*') :
    NoComment ((m :: marks).reverse.map Mark.char) := by
  rw [List.reverse_cons, List.map_append]
  refine List.isChain_append.mpr ⟨h, by simp, fun a ha b hb => ?_⟩
  obtain rfl : b = m.char := by simpa using hb.symm
  rw [List.getLast?_map, List.getLast?_reverse] at ha
  obtain ⟨l, hl, rfl⟩ := Option.map_eq_some_iff.mp ha
  exact hm l hl

section Steps

variable {s s' : Scan} {m : Mark}

theorem wordChar_of_markClass (h : m.markClass = .letter ∨ m.markClass = .digit) :
    m.escaped = false ∧ isWordChar m.char = true := by
  rcases h with h | h
  · cases Mark.seen_of_markClass h with
    | letter he hc => exact ⟨he, by rw [isWordChar, hc, Bool.true_or]⟩
  · cases Mark.seen_of_markClass h with
    | digit he hc => exact ⟨he, by rw [isWordChar, hc, Bool.or_true]⟩

theorem mode_wordChar (hc : isWordChar m.char = true) : (CommentMode.stepCode m).1 = .code :=
  stepCode_eq_code (not_quote_of_wordChar hc) (ne_of_wordChar (k := .operator) hc (by decide))

/-- A character of operators is where a comment may open, so the mode behind it depends on it. -/
theorem mode_operators (hc : m.char ∈ operatorChars) (marks : List Mark) :
    (Pending.operators (m :: marks)).mode = (CommentMode.stepCode m).1 := by
  have hquote : m.isQuote = false := by
    simp [Mark.isQuote, SignClass.not_quote (k := .operator) hc]
  simp only [Pending.mode, CommentMode.stepCode, hquote]
  split <;> rfl

theorem operators_advances {marks : List Mark} (hp : s.pending = .operators marks)
    (hgood : s.pending.Good) (he : m.escaped = false) (hc : m.char ∈ operatorChars)
    (hslash : ∀ l, s.pending.mode = .slash l → m.isPlain '/' = false ∧ m.isPlain '*' = false) :
    Advances s m (CommentMode.stepCode m).1 { s with pending := .operators (m :: marks) } := by
  obtain ⟨done, pending⟩ := s
  subst hp
  refine advances_of_extend ⟨?_, hgood.2.push ?_⟩ (mode_operators hc marks) fun cs xs hcs => ?_
  · intro l hl
    rcases List.mem_cons.mp hl with rfl | hl
    · exact ⟨he, hc⟩
    · exact hgood.1 l hl
  · intro l hl hchar
    obtain ⟨more, rfl⟩ := List.head?_eq_some_iff.mp hl
    -- a slash at the end of the run puts the comment mode behind a slash
    have hplain : l.isPlain '/' = true := by
      simp [Mark.isPlain, hchar, (hgood.1 l (by simp)).1]
    obtain ⟨hne, hne'⟩ := hslash l (by simp [Pending.mode, hplain])
    simpa [Mark.isPlain, he] using And.intro hne hne'
  · simpa [Pending.Resumes, Mark.raw_of_plain he] using hcs

/-- A mark that what is pending goes on with takes the scanner on. -/
theorem advances_of_continues {p : Pending} (h : s.pending.Continues m p) (hgood : s.pending.Good)
    (hslash : ∀ l, s.pending.mode = .slash l → m.isPlain '/' = false ∧ m.isPlain '*' = false) :
    Advances s m (CommentMode.stepCode m).1 { s with pending := p } := by
  obtain ⟨done, pending⟩ := s
  cases h with
  | word w loc h =>
    obtain ⟨he, hword⟩ := wordChar_of_markClass h
    rw [mode_wordChar hword]
    refine advances_of_extend ?_ rfl fun cs xs hcs => ?_
    · rw [Pending.Good, List.reverse_cons]
      exact IsWord.push hgood hword
    · simpa [Pending.Resumes, Mark.raw_of_plain he] using hcs
  | number w pointed loc h =>
    cases Mark.seen_of_markClass h with
    | digit he hc =>
      obtain ⟨hnumeral, hpointed⟩ := hgood
      have hword : isWordChar m.char = true := by rw [isWordChar, hc, Bool.or_true]
      -- a digit is no point, so the number has as many points as before
      have hpoint : '.' ≠ m.char := (ne_of_wordChar (k := .operator) hword (by decide)).symm
      rw [mode_wordChar hword]
      refine advances_of_extend ⟨?_, ?_⟩ rfl fun cs xs hcs => ?_
      · rw [List.reverse_cons]
        exact hnumeral.push hc
      · rw [hpointed, List.mem_cons, or_iff_right hpoint]
      · simpa [Pending.Resumes, Mark.raw_of_plain he] using hcs
  | point w loc h hchar =>
    cases Mark.seen_of_markClass h with
    | operator he _ =>
      obtain ⟨hnumeral, hpointed⟩ := hgood
      have habsent : '.' ∉ w := fun hmem => by cases hpointed.mpr hmem
      have hcode : (CommentMode.stepCode m).1 = .code :=
        stepCode_eq_code (by rw [hchar]; decide) (by rw [hchar]; decide)
      refine advances_of_extend ⟨?_, by simp⟩ hcode.symm fun cs xs hcs => ?_
      · rw [List.reverse_cons]
        exact hnumeral.point (by simpa using habsent)
      · simpa [Pending.Resumes, Mark.raw_of_plain he, hchar] using hcs
  | operators marks h =>
    cases Mark.seen_of_markClass h with
    | operator he hc => exact operators_advances rfl hgood he hc hslash

/-- Where a mark begins something, nothing that is pending goes on with it. -/
theorem stopsAt_of_begins {p q : Pending} (hno : ∀ r, ¬p.Continues m r) (hq : m.Begins q)
    (hgood : p.Good) (hstring : ∀ q value loc, p ≠ .string q value loc) (cs : List Char) :
    p.StopsAt (m.char :: cs) := by
  cases hq with
  | string h =>
    cases Mark.seen_of_markClass h with
    | quote _ hc => exact Pending.stopsAt_sign hstring hc (by decide)
  | word h =>
    have hword := (wordChar_of_markClass (.inl h)).2
    cases p with
    | nothing => trivial
    | string q value loc => exact absurd rfl (hstring q value loc)
    | word w loc => exact absurd (.word w loc (.inl h)) (hno _)
    | number w pointed loc =>
      cases Mark.seen_of_markClass h with
      | letter _ hc =>
        rintro _ ⟨⟩
        exact ⟨not_digit_of_wordStart hc,
          fun hpoint => absurd hpoint (ne_of_wordChar (k := .operator) hword (by decide))⟩
    | operators marks => exact Pending.stopsAt_wordChar hword
  | number h =>
    cases p with
    | nothing => trivial
    | string q value loc => exact absurd rfl (hstring q value loc)
    | word w loc => exact absurd (.word w loc (.inr h)) (hno _)
    | number w pointed loc => exact absurd (.number w pointed loc h) (hno _)
    | operators marks => exact Pending.stopsAt_wordChar (wordChar_of_markClass (.inr h)).2
  | operators h =>
    cases Mark.seen_of_markClass h with
    | operator _ hc =>
      cases p with
      | nothing => trivial
      | string q value loc => exact absurd rfl (hstring q value loc)
      | word w loc =>
        rintro _ ⟨⟩
        exact SignClass.not_wordChar hc
      | number w pointed loc =>
        -- a point would go on with a number that has none
        rintro _ ⟨⟩
        refine ⟨SignClass.not_digit hc, fun hchar => hgood.2.mp ?_⟩
        cases pointed with
        | true => rfl
        | false => exact absurd (.point w loc h hchar) (hno _)
      | operators marks => exact absurd (.operators marks h) (hno _)

/-- A mark that begins something takes the scanner on: what was pending is complete. -/
theorem advances_of_begins {p : Pending} (hno : ∀ q, ¬s.pending.Continues m q) (hp : m.Begins p)
    (h : s.flushTo p = .ok s') (hgood : s.pending.Good)
    (hstring : ∀ q value loc, s.pending ≠ .string q value loc) :
    Advances s m (CommentMode.stepCode m).1 s' := by
  have hstop := stopsAt_of_begins hno hp hgood hstring
  cases hp with
  | word hm =>
    rw [mode_wordChar (wordChar_of_markClass (.inl hm)).2]
    cases Mark.seen_of_markClass hm with
    | letter he hc =>
      have hraw := Mark.raw_of_plain he
      refine advances_of_flushTo h hgood hstring (hraw ▸ hstop) ?_ rfl fun cs xs hcs => ?_
      · exact ⟨m.char, [], rfl, hc, by simp⟩
      · simpa [Pending.Resumes, hraw] using hcs
  | number hm =>
    have hword := (wordChar_of_markClass (.inr hm)).2
    rw [mode_wordChar hword]
    cases Mark.seen_of_markClass hm with
    | digit he hc =>
      have hraw := Mark.raw_of_plain he
      have hpoint : '.' ≠ m.char := (ne_of_wordChar (k := .operator) hword (by decide)).symm
      refine advances_of_flushTo h hgood hstring (hraw ▸ hstop) ?_ rfl fun cs xs hcs => ?_
      · exact ⟨.whole _ (by simp) (by simpa using hc), by simpa using hpoint⟩
      · simpa [Pending.Resumes, hraw] using hcs
  | operators hm =>
    cases Mark.seen_of_markClass hm with
    | operator he hc =>
      have hraw := Mark.raw_of_plain he
      refine advances_of_flushTo h hgood hstring (hraw ▸ hstop) ?_ (mode_operators hc [])
        fun cs xs hcs => ?_
      · exact ⟨by simpa using ⟨he, hc⟩, List.isChain_singleton _⟩
      · simpa [Pending.Resumes, hraw] using hcs
  | string hm =>
    cases Mark.seen_of_markClass hm with
    | quote he hc =>
      have hraw := Mark.raw_of_plain he
      have hmode : (Pending.string m.char [] m.loc).mode = (CommentMode.stepCode m).1 := by
        simp [Pending.mode, CommentMode.stepCode, Mark.isQuote, he, SignClass.mem_quote.mpr hc]
      refine advances_of_flushTo h hgood hstring (hraw ▸ hstop) trivial hmode ?_
      -- the text goes on with the rest of the literal
      rintro cs xs ⟨body, more, cs', xs', rfl, hbody, rfl, hxs⟩
      rw [hraw]
      exact .string m.char body more cs' xs' (SignClass.mem_quote.mpr hc) hbody hxs

/-- A sign that is neither a quote nor a part of an operator completes what is pending. -/
theorem advances_of_sign {k : SignClass} {t : Scan} {new : List Placed} (he : m.escaped = false)
    (hc : m.char ∈ k.members) (hk : k ≠ .operator) (hk' : k ≠ .quote) (h : s.flush = .ok t)
    (hgood : s.pending.Good) (hstring : ∀ q value loc, s.pending ≠ .string q value loc)
    (hnew : ∀ x ∈ new, x.1.Proper)
    (hspells : ∀ cs xs, Spells cs xs → Spells (m.char :: cs) (new.map (·.1.symbol) ++ xs)) :
    Advances s m (CommentMode.stepCode m).1 ⟨new.reverse ++ t.done, .nothing⟩ := by
  -- the sign is no slash, so that no comment begins with it
  have hmode := stepCode_eq_code (SignClass.not_quote hc hk') fun hchar =>
    SignClass.not_mem (l := .operator) hc hk (by rw [hchar]; decide)
  have hraw := Mark.raw_of_plain he
  refine advances_of_flush h hgood hstring (fun cs => ?_) trivial hmode.symm hnew
    fun cs xs hcs => ?_
  · rw [hraw]
    exact Pending.stopsAt_sign hstring hc hk
  · rw [hraw]
    exact hspells cs xs hcs

/-- Outside string literals a mark that opens no comment takes the scanner on. -/
theorem stepCode_advances (h : s.stepCode m = .ok s') (hgood : s.pending.Good)
    (hstring : ∀ q value loc, s.pending ≠ .string q value loc)
    (hslash : ∀ l, s.pending.mode = .slash l → m.isPlain '/' = false ∧ m.isPlain '*' = false) :
    Advances s m (CommentMode.stepCode m).1 s' := by
  have hnothing {t : Scan} (ht : s.flush = .ok t) : t.pending = .nothing :=
    (Scan.pending_of_flush ht).resolve_right fun ⟨q, value, loc, hp⟩ => hstring q value loc hp
  cases Scan.codeStep_of_stepCode h with
  | continues hp => exact advances_of_continues hp hgood hslash
  | begins hno hp h => exact advances_of_begins hno hp h hgood hstring
  | @delimiter f side t hm ht =>
    cases Mark.seen_of_markClass hm with
    | delimiter _ _ he hc =>
      have hmem : m.char ∈ SignClass.delimiter.members := hc ▸ SignClass.char_mem_delimiter f side
      have hnew : ∀ x ∈ [((Lexeme.delimiter f side, m.loc) : Placed)], x.1.Proper := by
        simp [Lexeme.Proper]
      rw [hnothing ht]
      refine advances_of_sign he hmem (by decide) (by decide) ht hgood hstring hnew
        fun cs xs hcs => ?_
      rw [hc]
      exact .delimiter f side cs xs hcs
  | blank hm h =>
    cases Mark.seen_of_markClass hm with
    | blank he hc =>
      have hnone : ∀ x ∈ ([] : List Placed), x.1.Proper := by simp
      have hpending : s' = ⟨s'.done, .nothing⟩ := by rw [← hnothing h]
      rw [hpending]
      exact advances_of_sign he hc (by decide) (by decide) h hgood hstring hnone
        fun cs xs hcs => .blank m.char cs xs (SignClass.mem_blank.mpr hc) hcs

end Steps

/-! ## §5 Whole texts -/

/-- Inside a string literal a mark stands for a character or, as the quote, ends the literal. -/
theorem step_string_advances {s s' : Scan} {m : Mark} {q : Char} {value : List Char}
    {loc : Location} (hp : s.pending = .string q value loc) (hm : m.Proper)
    (h : s.step m = .ok s') :
    Advances s m (if m.isPlain q then .code else .quoted q) s' := by
  simp only [Scan.step, hp] at h
  split at h
  · next hquote =>
    cases h
    have hplain : m.escaped = false ∧ m.char = q := by simpa [Mark.isPlain] using hquote
    -- the quote completes the string, whose body has no more characters to come
    rw [if_pos hquote]
    refine ⟨trivial, rfl, [(.string (Text.ofChars value.reverse) value.isEmpty, loc)], rfl,
      by simp [Lexeme.Proper], fun cs xs hcs => ?_⟩
    rw [hp, Mark.raw_of_plain hplain.1, hplain.2]
    exact ⟨[], [], cs, xs, rfl, .nil, by simp [Lexeme.symbol], hcs⟩
  · next hquote =>
    cases h
    rw [if_neg hquote]
    refine advances_of_extend trivial rfl ?_
    rintro cs xs ⟨body, more, cs', xs', rfl, hbody, rfl, hxs⟩
    rw [hp]
    -- what the mark stands for comes before the rest of the value
    refine ⟨m.raw ++ body, m.decoded :: more, cs', xs', by simp, ?_, by simp, hxs⟩
    cases he : m.escaped with
    | true =>
      have hdecoded : m.decoded = escapedChar m.char := by
        rw [Mark.decoded, he, if_pos rfl]
        rfl
      rw [Mark.raw, he, hdecoded]
      exact .escaped m.char body more hbody
    | false =>
      have hne : m.char ≠ q := by simpa [Mark.isPlain, he] using hquote
      rw [Mark.raw_of_plain he, Mark.decoded, he]
      exact .plain m.char body more hne (hm he) hbody

/-- A mark of a text without comments takes the scanner on, and what follows has none either. -/
theorem step_advances {s s' : Scan} {m : Mark} {marks : List Mark} (h : s.step m = .ok s')
    (hgood : s.pending.Good) (hm : m.Proper) (hfree : Uncommented s.pending.mode (m :: marks)) :
    ∃ mode, Advances s m mode s' ∧ Uncommented mode marks := by
  by_cases hstring : ∃ q value loc, s.pending = .string q value loc
  · obtain ⟨q, value, loc, hp⟩ := hstring
    rw [hp] at hfree
    exact ⟨_, step_string_advances hp hm h, hfree.quoted⟩
  · have hother : ∀ q value loc, s.pending ≠ .string q value loc :=
      fun q value loc hp => hstring ⟨q, value, loc, hp⟩
    rw [Scan.step_eq hother] at h
    refine ⟨_, stepCode_advances h hgood hother fun l hl => ?_, ?_⟩
    · rw [hl] at hfree
      exact ⟨hfree.slash.1, hfree.slash.2.1⟩
    · rcases Pending.mode_cases hother with hmode | ⟨l, hmode⟩
      · rw [hmode] at hfree
        exact hfree.code
      · rw [hmode] at hfree
        exact hfree.slash.2.2

/-- The lexemes of the marks to come spell what is pending and the marks. -/
theorem scan_spells {s : Scan} {marks : List Mark} {placed : List Placed}
    (h : (marks.foldlM Scan.step s >>= Scan.finish) = .ok placed) (hgood : s.pending.Good)
    (hmarks : ∀ m ∈ marks, m.Proper) (hfree : Uncommented s.pending.mode marks) :
    ∃ ps : List Placed, placed = s.done.reverse ++ ps ∧ (∀ x ∈ ps, x.1.Proper) ∧
      s.pending.Resumes (marks.flatMap Mark.raw) (ps.map (·.1.symbol)) := by
  induction marks generalizing s with
  | nil =>
    have hfinish : s.finish = .ok placed := h
    have hstring : ∀ q value loc, s.pending ≠ .string q value loc := by
      intro q value loc hp
      simp only [Scan.finish, hp] at hfinish
      cases hfinish
    rw [Scan.finish_eq hstring] at hfinish
    obtain ⟨t, ht, heq⟩ := bind_eq_ok.mp hfinish
    cases heq
    obtain ⟨ps, rfl, hproper, hresume⟩ := flush_spells ht hgood hstring
    refine ⟨ps, by simp, hproper, ?_⟩
    simpa using hresume [] [] (Pending.stopsAt_nil hstring) .nil
  | cons m marks ih =>
    rw [List.foldlM_cons, bind_assoc] at h
    obtain ⟨t, ht, hrest⟩ := bind_eq_ok.mp h
    -- the step lemma carries both invariants on to the marks that are left
    obtain ⟨mode, hadvances, hnext⟩ := step_advances ht hgood (hmarks m (by simp)) hfree
    rw [← hadvances.mode_eq] at hnext
    obtain ⟨ps, rfl, hproper, hresume⟩ :=
      ih hrest hadvances.good (fun m' hm' => hmarks m' (by simp [hm'])) hnext
    obtain ⟨before, hdone, hbefore, hspells⟩ := hadvances.spells
    refine ⟨before ++ ps, by simp [hdone], fun x hx => ?_, ?_⟩
    · rcases List.mem_append.mp hx with hx | hx
      · exact hbefore x hx
      · exact hproper x hx
    · rw [List.map_append, List.flatMap_cons]
      exact hspells _ _ hresume

section

variable {α : Type} {R : Lexeme → Location → α → Prop} {ps : List Placed} {as : List α}

/-- Marking signs keeps what holds of the lexemes one by one, if it holds of an operator whatever
its fixity. -/
theorem forall₂_markLeading
    (hR : ∀ op f f' loc a, R (.operator op f) loc a → R (.operator op f') loc a)
    (h : List.Forall₂ (fun p a => R p.1 p.2 a) ps as) (afterOperand : Bool) :
    List.Forall₂ (fun p a => R p.1 p.2 a) (markLeading afterOperand ps) as := by
  induction h generalizing afterOperand with
  | nil => exact .nil
  | @cons p a ps as hp _ ih =>
    obtain ⟨x, loc⟩ := p
    cases x with
    | operator op fixity => exact .cons (hR _ _ _ _ _ hp) (ih _)
    | _ => exact .cons hp (ih _)

theorem forall₂_numberFrom (h : List.Forall₂ (fun p a => R p.1 p.2 a) ps as) (i : Nat) :
    List.Forall₂ (fun t a => R t.lexeme t.loc a) (numberFrom i ps) as := by
  induction h generalizing i with
  | nil => exact .nil
  | cons hp _ ih => exact .cons hp (ih _)

end

/-- Signs that stand before an operand have the same symbols. -/
theorem markLeading_symbols (afterOperand : Bool) (ps : List Placed) :
    (markLeading afterOperand ps).map (·.1.symbol) = ps.map (·.1.symbol) := by
  induction ps generalizing afterOperand with
  | nil => rfl
  | cons x ps ih =>
    obtain ⟨l, loc⟩ := x
    cases l with
    | operator op fixity =>
      simp only [markLeading, List.map_cons, ih]
      rfl
    | _ => simp only [markLeading, List.map_cons, ih]

theorem markLeading_proper {afterOperand : Bool} {ps : List Placed} (h : ∀ x ∈ ps, x.1.Proper) :
    ∀ x ∈ markLeading afterOperand ps, x.1.Proper := by
  induction ps generalizing afterOperand with
  | nil => simp [markLeading]
  | cons x ps ih =>
    obtain ⟨l, loc⟩ := x
    have hl := h (l, loc) (by simp)
    have hps : ∀ flag, ∀ y ∈ markLeading flag ps, y.1.Proper :=
      fun flag => ih fun x hx => h x (by simp [hx])
    intro y hy
    cases l <;>
    · simp only [markLeading, List.mem_cons] at hy
      rcases hy with rfl | hy
      · exact hl
      · exact hps _ y hy

theorem numberFrom_lexemes (i : Nat) (ps : List Placed) :
    (numberFrom i ps).map (·.lexeme) = ps.map (·.1) := by
  induction ps generalizing i with
  | nil => rfl
  | cons x ps ih => simp [numberFrom, ih]

/-- The tokens of a text without comments spell it, and its names are not reserved. -/
theorem spells_of_tokenize {source : Text} {marks : List Mark} {tokens : List Token}
    (hmarks : Mark.ofText source = .ok marks) (hfree : stripComments .code marks = .ok marks)
    (h : tokenize source = .ok tokens) :
    ∃ cs, source.glyphs = cs.map .char ∧ Spells cs (tokens.map (·.lexeme.symbol)) ∧
      ∀ t ∈ tokens, t.lexeme.Proper := by
  obtain ⟨marks', hmarks', h⟩ := bind_eq_ok.mp h
  obtain rfl : marks = marks' := Except.ok.inj (hmarks.symm.trans hmarks')
  obtain ⟨kept, hkept, h⟩ := bind_eq_ok.mp h
  obtain rfl : marks = kept := Except.ok.inj (hfree.symm.trans hkept)
  obtain ⟨placed, hplaced, heq⟩ := bind_eq_ok.mp h
  cases heq
  obtain ⟨hglyphs, hproper⟩ := Mark.raw_of_ofGlyphs hmarks
  obtain ⟨ps, hps, hlexemes, hspells⟩ := scan_spells hplaced trivial hproper hfree
  obtain rfl : placed = ps := hps
  -- marking signs and numbering the tokens change no symbol
  have hsymbols : (numberFrom 0 (markLeading false placed)).map (·.lexeme.symbol)
      = placed.map (·.1.symbol) := by
    rw [← markLeading_symbols false placed]
    have hlexeme := numberFrom_lexemes 0 (markLeading false placed)
    simpa [Function.comp_def] using congrArg (List.map Lexeme.symbol) hlexeme
  refine ⟨marks.flatMap Mark.raw, hglyphs, ?_, fun t ht => ?_⟩
  · rw [hsymbols]
    exact hspells
  · have hmem : t.lexeme ∈ (numberFrom 0 (markLeading false placed)).map (·.lexeme) :=
      List.mem_map_of_mem ht
    rw [numberFrom_lexemes] at hmem
    obtain ⟨x, hx, hxt⟩ := List.mem_map.mp hmem
    rw [← hxt]
    exact markLeading_proper hlexemes x hx

end Scriptlet
