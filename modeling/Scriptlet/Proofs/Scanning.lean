import Mathlib.Data.List.Forall2
import Scriptlet.Proofs.Tokens

/-!
# What lexemes begin with

Every lexeme begins with a mark of the source: a string with the quote that opens it, any other
lexeme with its first character, and each stands where its mark stands. The marks that lexemes begin
with come in the order of the source. The invariant behind this (`Scan.Follows`) also says what is
pending: a run of operator characters holds nothing else, and since each of them is an operator by
itself, splitting the run cannot fail. So the scanner stops only at a mark that belongs to no
lexeme, or at the end with a string literal open.

## Contents

- §1 the mark a lexeme begins with
- §2 what is pending
- §3 one mark
- §4 whole rows of marks
-/

namespace Scriptlet

/-! ## §1 The mark a lexeme begins with -/

/-- The lexeme begins with the mark and stands at its place. -/
structure Lexeme.BeginsAt (x : Lexeme) (loc : Location) (m : Mark) : Prop where
  place : loc = m.loc
  plain : m.escaped = false
  /-- A string begins with the quote that opens it. -/
  quote : x.kind = .string → Mark.isQuoteChar m.char = true
  /-- Everything else begins with its first character. -/
  first : x.kind ≠ .string → ∃ more, x.value = Text.ofChar m.char ++ more

/-- The lexemes begin with the marks one by one. -/
abbrev BeginAll (ps : List Placed) (ms : List Mark) : Prop :=
  List.Forall₂ (fun p m => p.1.BeginsAt p.2 m) ps ms

/-- A lexeme that is no string begins with the first character of its text. -/
theorem Lexeme.beginsAt_of_value {x : Lexeme} {m : Mark} {more : List Char}
    (hm : m.escaped = false) (hx : x.kind ≠ .string)
    (hvalue : x.value = Text.ofChars (m.char :: more)) : x.BeginsAt m.loc m :=
  ⟨rfl, hm, fun hkind => absurd hkind hx, fun _ => ⟨Text.ofChars more, hvalue⟩⟩

namespace Operator

/-- An operator starts with the first character of the run it was found in. -/
theorem exists_chars_eq {op : Operator} {c : Char} {cs : List Char}
    (h : leading? (c :: cs) = some op) : ∃ more, op.chars = c :: more := by
  obtain ⟨rest, hrest⟩ := prefix_of_leading? h
  obtain ⟨d, more, hchars⟩ := List.exists_cons_of_ne_nil op.chars_ne_nil
  rw [hchars, List.cons_append] at hrest
  obtain ⟨rfl, -⟩ := List.cons.inj hrest
  exact ⟨more, hchars⟩

end Operator

namespace Mark

variable {m : Mark} {k : MarkClass}

/-- A mark that belongs to a lexeme outside string literals is not escaped. -/
theorem plain_of_markClass (h : m.markClass = k) (hk : k ≠ .other) : m.escaped = false := by
  cases he : m.escaped with
  | false => rfl
  | true =>
    rw [markClass, if_pos he] at h
    exact absurd h.symm hk

theorem mem_operatorChars (h : m.markClass = .operator) : m.char ∈ operatorChars := by
  cases seen_of_markClass h with
  | operator _ hc => exact hc

theorem isQuote_of_markClass (h : m.markClass = .quote) : m.isQuote = true := by
  cases seen_of_markClass h with
  | quote he hc => simp [isQuote, he, SignClass.mem_quote.mpr hc]

theorem char_of_markClass {f : Family} {side : Side} (h : m.markClass = .delimiter f side) :
    m.char = f.char side := by
  cases seen_of_markClass h with
  | delimiter _ _ _ hc => exact hc

end Mark

/-- A run of operator characters splits, and its operators begin with marks of the run. -/
theorem splitOperators_begins {ms : List Mark} (h : ∀ m ∈ ms, m.markClass = .operator)
    (passed : Nat) :
    ∃ ops starts, splitOperators passed ms = .ok ops ∧ starts.Sublist ms ∧
      BeginAll ops starts := by
  induction ms generalizing passed with
  | nil => exact ⟨[], [], by cases passed <;> rfl, List.Sublist.refl _, .nil⟩
  | cons m ms ih =>
    obtain ⟨hm, hms⟩ := List.forall_mem_cons.mp h
    cases passed with
    | succ passed =>
      obtain ⟨ops, starts, hops, hsub, hbegins⟩ := ih hms passed
      exact ⟨ops, starts, hops, hsub.cons m, hbegins⟩
    | zero =>
      have he := Mark.plain_of_markClass hm (by simp)
      -- the first operator is the longest there, and its other marks are passed over
      obtain ⟨op, hop⟩ := Operator.exists_leading? (Mark.mem_operatorChars hm) (ms.map Mark.char)
      obtain ⟨ops, starts, hops, hsub, hbegins⟩ := ih hms (op.chars.length - 1)
      obtain ⟨more, hchars⟩ := Operator.exists_chars_eq hop
      have hfirst : (Lexeme.operator op op.fixity).BeginsAt m.loc m :=
        Lexeme.beginsAt_of_value he (by simp [Lexeme.kind])
          (by rw [Lexeme.value, Operator.spelling, hchars])
      refine ⟨(.operator op op.fixity, m.loc) :: ops, m :: starts, ?_, hsub.cons_cons m,
        .cons hfirst hbegins⟩
      rw [splitOperators]
      simp only [List.map_cons, hop, hops]
      rfl

/-! ## §2 What is pending -/

/-- What is pending was begun with the marks: a run of operators holds them all, anything else began
with one. -/
inductive Pending.Begun : Pending → List Mark → Prop where
  | nothing : Begun .nothing []
  | word {cs more : List Char} {m : Mark} (hm : m.escaped = false)
      (hcs : cs.reverse = m.char :: more) : Begun (.word cs m.loc) [m]
  | number {cs more : List Char} {pointed : Bool} {m : Mark} (hm : m.escaped = false)
      (hcs : cs.reverse = m.char :: more) : Begun (.number cs pointed m.loc) [m]
  | operators {ms : List Mark} (hms : ∀ m ∈ ms, m.markClass = .operator) :
      Begun (.operators ms) ms.reverse
  | string {m : Mark} (cs : List Char) (hm : m.isQuote = true) :
      Begun (.string m.char cs m.loc) [m]

theorem Mark.Begins.begun {m : Mark} {p : Pending} (h : m.Begins p) : p.Begun [m] := by
  cases h with
  | word h => exact .word (Mark.plain_of_markClass h (by simp)) rfl
  | number h => exact .number (Mark.plain_of_markClass h (by simp)) rfl
  | operators h => exact .operators (List.forall_mem_singleton.mpr h)
  | string h => exact .string [] (Mark.isQuote_of_markClass h)

namespace Scan

/-- The scanner has read the marks: its lexemes begin with some of them, and what is pending with
some behind those. -/
def Follows (s : Scan) (read : List Mark) : Prop :=
  ∃ starts begun, (starts ++ begun).Sublist read ∧
    BeginAll s.done.reverse starts ∧ s.pending.Begun begun

/-- The scanner is not inside a string literal. -/
def OutsideString (s : Scan) : Prop := ∀ q cs loc, s.pending ≠ .string q cs loc

variable {s s' : Scan} {read : List Mark} {m : Mark} {p : Pending} {done : List Placed}

theorem follows_start : start.Follows [] :=
  ⟨[], [], List.Sublist.refl _, .nil, .nothing⟩

namespace Follows

/-- A mark may be passed over. -/
theorem skip (h : s.Follows read) (m : Mark) : s.Follows (read ++ [m]) := by
  obtain ⟨starts, begun, hsub, hdone, hbegun⟩ := h
  exact ⟨starts, begun, hsub.trans (List.sublist_append_left _ _), hdone, hbegun⟩

/-- What is pending may go on with a mark that begins nothing. -/
theorem extend (h : s.Follows read) (hp : ∀ begun, s.pending.Begun begun → p.Begun begun)
    (m : Mark) : Follows ⟨s.done, p⟩ (read ++ [m]) := by
  obtain ⟨starts, begun, hsub, hdone, hbegun⟩ := h.skip m
  exact ⟨starts, begun, hsub, hdone, hp begun hbegun⟩

/-- Behind what is complete something may begin with the next mark. -/
theorem begin (h : Follows ⟨done, .nothing⟩ read) (hp : p.Begun [m]) :
    Follows ⟨done, p⟩ (read ++ [m]) := by
  obtain ⟨starts, begun, hsub, hdone, hbegun⟩ := h
  cases hbegun
  rw [List.append_nil] at hsub
  exact ⟨starts, [m], hsub.append_right [m], hdone, hp⟩

/-- One more lexeme is complete, which begins with a mark behind those of the others. -/
theorem push {x : Lexeme} {starts : List Mark} (hsub : (starts ++ [m]).Sublist read)
    (hdone : BeginAll done.reverse starts) (hx : x.BeginsAt m.loc m) :
    Follows ⟨(x, m.loc) :: done, .nothing⟩ read := by
  refine ⟨starts ++ [m], [], by rwa [List.append_nil], ?_, .nothing⟩
  rw [List.reverse_cons]
  exact List.rel_append hdone (.cons hx .nil)

/-- Behind what is complete the next mark may be a lexeme by itself. -/
theorem single {x : Lexeme} (h : Follows ⟨done, .nothing⟩ read) (hx : x.BeginsAt m.loc m) :
    Follows ⟨(x, m.loc) :: done, .nothing⟩ (read ++ [m]) := by
  obtain ⟨starts, begun, hsub, hdone, hbegun⟩ := h
  cases hbegun
  rw [List.append_nil] at hsub
  exact .push (hsub.append_right [m]) hdone hx

/-- Outside string literals what is pending can be completed. -/
theorem flush (h : s.Follows read) (hcode : s.OutsideString) :
    ∃ done, s.flush = .ok ⟨done, .nothing⟩ ∧ Follows ⟨done, .nothing⟩ read := by
  obtain ⟨done, pending⟩ := s
  obtain ⟨starts, begun, hsub, hdone, hbegun⟩ := h
  -- what is pending has begun with a mark that is not yet among those of the lexemes
  cases hbegun with
  | nothing => exact ⟨done, rfl, starts, [], hsub, hdone, .nothing⟩
  | string => exact absurd rfl (hcode _ _ _)
  | @word cs more m hm hcs =>
    have hword : (Lexeme.ofWord (Text.ofChars cs.reverse)).BeginsAt m.loc m := by
      rw [hcs]
      exact Lexeme.beginsAt_of_value hm (by simp [Lexeme.kind_ofWord]) (Lexeme.value_ofWord _)
    exact ⟨_, rfl, .push hsub hdone hword⟩
  | @number cs more pointed m hm hcs =>
    have hnumber : (Lexeme.number (Text.ofChars cs.reverse)).BeginsAt m.loc m := by
      rw [hcs]
      exact Lexeme.beginsAt_of_value hm (by simp [Lexeme.kind]) rfl
    exact ⟨_, rfl, .push hsub hdone hnumber⟩
  | @operators ms hms =>
    obtain ⟨ops, begins, hops, hbegins, hall⟩ :=
      splitOperators_begins (fun m hm => hms m (List.mem_reverse.mp hm)) 0
    refine ⟨ops.reverse ++ done, ?_, starts ++ begins, [], ?_, ?_, .nothing⟩
    · rw [Scan.flush]
      simp only [hops]
      rfl
    · rw [List.append_nil]
      exact (hbegins.append_left starts).trans hsub
    · rw [List.reverse_append, List.reverse_reverse]
      exact List.rel_append hdone hall

theorem flushTo (h : s.Follows read) (hcode : s.OutsideString) (hp : p.Begun [m]) :
    ∃ s', s.flushTo p = .ok s' ∧ s'.Follows (read ++ [m]) := by
  obtain ⟨done, hflush, hdone⟩ := h.flush hcode
  refine ⟨⟨done, p⟩, ?_, hdone.begin hp⟩
  rw [Scan.flushTo, hflush]
  rfl

end Follows

/-! ## §3 One mark -/

end Scan

/-- What is wrong with a mark that belongs to no lexeme. -/
def Mark.stray (m : Mark) : LexFault :=
  if m.escaped then .strayEscape m.char else .strayCharacter m.char

namespace Scan.Follows

variable {s : Scan} {read : List Mark}

/-- A character of a word or number that is pending makes it longer and begins nothing. -/
theorem reverse_cons_eq {c d : Char} {cs more : List Char} (h : cs.reverse = c :: more) :
    (d :: cs).reverse = c :: (more ++ [d]) := by
  rw [List.reverse_cons, h, List.cons_append]

/-- What is pending goes on with a mark, which begins nothing unless it is one of a run of
operators. -/
theorem continues {m : Mark} {q : Pending} (h : s.Follows read) (hq : s.pending.Continues m q) :
    Follows ⟨s.done, q⟩ (read ++ [m]) := by
  obtain ⟨done, pending⟩ := s
  cases hq with
  | word cs loc =>
    refine h.extend (fun begun hbegun => ?_) m
    cases hbegun with
    | word hm hcs => exact .word hm (reverse_cons_eq hcs)
  | number cs pointed loc | point cs loc =>
    refine h.extend (fun begun hbegun => ?_) m
    cases hbegun with
    | number hm hcs => exact .number hm (reverse_cons_eq hcs)
  | operators ms hclass =>
    obtain ⟨starts, begun, hsub, hdone, hbegun⟩ := h
    cases hbegun with
    | operators hms =>
      refine ⟨starts, (m :: ms).reverse, ?_, hdone,
        .operators (List.forall_mem_cons.mpr ⟨hclass, hms⟩)⟩
      rw [List.reverse_cons, ← List.append_assoc]
      exact hsub.append_right [m]

/-- A mark outside string literals is read, or it belongs to no lexeme. -/
theorem stepCode (h : s.Follows read) (hcode : s.OutsideString) (m : Mark) :
    (∃ s', s.stepCode m = .ok s' ∧ s'.Follows (read ++ [m])) ∨
      s.stepCode m = .error ⟨m.stray, m.loc⟩ := by
  by_cases hgo : ∃ q, s.pending.Continues m q
  · obtain ⟨q, hq⟩ := hgo
    exact .inl ⟨_, stepCode_of_continues hq, h.continues hq⟩
  have hno := not_exists.mp hgo
  have hbegins {p : Pending} (hp : m.Begins p) :
      ∃ s', s.stepCode m = .ok s' ∧ s'.Follows (read ++ [m]) := by
    rw [stepCode_of_begins hno hp]
    exact h.flushTo hcode hp.begun
  -- the other classes complete what is pending, and a delimiter is complete itself
  cases hclass : m.markClass with
  | letter => exact .inl (hbegins (.word hclass))
  | digit => exact .inl (hbegins (.number hclass))
  | operator => exact .inl (hbegins (.operators hclass))
  | quote => exact .inl (hbegins (.string hclass))
  | delimiter f side =>
    left
    obtain ⟨done', hflush, hdone⟩ := h.flush hcode
    have hvalue : (Lexeme.delimiter f side).value = Text.ofChars [m.char] := by
      simp [Lexeme.value, Mark.char_of_markClass hclass]
    have hdelimiter := Lexeme.beginsAt_of_value (Mark.plain_of_markClass hclass (by simp))
      (by simp [Lexeme.kind]) hvalue
    refine ⟨_, ?_, hdone.single hdelimiter⟩
    rw [Scan.stepCode, hclass]
    simp only [hflush]
    rfl
  | blank =>
    left
    obtain ⟨done', hflush, hdone⟩ := h.flush hcode
    refine ⟨_, ?_, hdone.skip m⟩
    rw [Scan.stepCode, hclass]
    exact hflush
  | other =>
    right
    rw [Scan.stepCode, hclass]
    rfl

/-- A mark is read, or it belongs to no lexeme. -/
theorem step (h : s.Follows read) (m : Mark) :
    (∃ s', s.step m = .ok s' ∧ s'.Follows (read ++ [m])) ∨
      s.step m = .error ⟨m.stray, m.loc⟩ := by
  by_cases hstring : ∃ q cs loc, s.pending = .string q cs loc
  · -- inside a string literal every mark is read
    left
    obtain ⟨q, cs, loc, hp⟩ := hstring
    unfold Scan.step
    simp only [hp]
    split
    -- the closing quote completes the literal, any other mark goes on in it
    · obtain ⟨starts, begun, hsub, hdone, hbegun⟩ := h.skip m
      rw [hp] at hbegun
      cases hbegun with
      | string _ hm =>
        have hquote := (Bool.and_eq_true _ _).mp hm
        refine ⟨_, rfl, .push hsub hdone
          ⟨rfl, ?_, fun _ => hquote.2, fun hkind => absurd rfl hkind⟩⟩
        simpa using hquote.1
    · refine ⟨_, rfl, h.extend (fun begun hbegun => ?_) m⟩
      rw [hp] at hbegun
      cases hbegun with
      | string _ hm => exact .string _ hm
  · have hcode : s.OutsideString := fun q cs loc hp => hstring ⟨q, cs, loc, hp⟩
    rw [Scan.step_eq hcode]
    exact h.stepCode hcode m

/-! ## §4 Whole rows of marks -/

/-- Marks are read to the last one or to the first that belongs to no lexeme. -/
theorem foldlM (h : s.Follows read) (ms : List Mark) :
    (∃ s', ms.foldlM Scan.step s = .ok s' ∧ s'.Follows (read ++ ms)) ∨
      ∃ m ∈ ms, ms.foldlM Scan.step s = .error ⟨m.stray, m.loc⟩ := by
  induction ms generalizing s read with
  | nil => exact .inl ⟨s, rfl, by rwa [List.append_nil]⟩
  | cons m ms ih =>
    rw [List.foldlM_cons]
    rcases h.step m with ⟨s', hs', hfollows⟩ | hstray
    -- the mark is read, and the others from the scan that it left
    · rw [hs']
      rcases ih hfollows with ⟨t, ht, hall⟩ | ⟨n, hn, hstray⟩
      · exact .inl ⟨t, ht, by rwa [List.append_cons]⟩
      · exact .inr ⟨n, List.mem_cons_of_mem _ hn, hstray⟩
    · rw [hstray]
      exact .inr ⟨m, List.mem_cons_self, rfl⟩

end Scan.Follows

/-- **How scanning ends.** Marks without comments have lexemes, which begin with marks of the row in
their order; or one of the marks belongs to no lexeme; or one of them opens a string literal that is
not closed. -/
theorem scanMarks_cases (kept : List Mark) :
    (∃ ps starts, scanMarks kept = .ok ps ∧ starts.Sublist kept ∧
        BeginAll ps starts) ∨
      ∃ m ∈ kept, ∃ fault, scanMarks kept = .error ⟨fault, m.loc⟩ ∧
        (fault = m.stray ∨ fault = .openString) := by
  rcases Scan.follows_start.foldlM kept with ⟨s, hs, hfollows⟩ | ⟨m, hm, hstray⟩
  · rw [List.nil_append] at hfollows
    have hscan : scanMarks kept = s.finish := by
      rw [scanMarks, hs]
      rfl
    rw [hscan]
    by_cases hstring : ∃ q cs loc, s.pending = .string q cs loc
    · obtain ⟨q, cs, loc, hp⟩ := hstring
      -- the open literal has begun with one of the marks, where the error stands
      obtain ⟨starts, begun, hsub, -, hbegun⟩ := hfollows
      rw [hp] at hbegun
      cases hbegun with
      | @string m _ _ =>
        have hm : m ∈ kept := hsub.subset (by simp)
        exact .inr ⟨m, hm, .openString, by rw [Scan.finish, hp], .inr rfl⟩
    · have hcode : s.OutsideString := fun q cs loc hp => hstring ⟨q, cs, loc, hp⟩
      obtain ⟨done, hflush, starts, begun, hsub, hdone, hbegun⟩ := hfollows.flush hcode
      cases hbegun
      rw [List.append_nil] at hsub
      exact .inl ⟨done.reverse, starts, by rw [Scan.finish_eq hcode, hflush]; rfl, hsub, hdone⟩
  · refine .inr ⟨m, hm, m.stray, ?_, .inl rfl⟩
    rw [scanMarks, hstray]
    rfl

end Scriptlet
