import Scriptlet.Proofs.Continuation
import Scriptlet.Proofs.Statement

/-!
# Parses that are settled before the end

A run of the grammar that never meets the end of the stream does the same on every longer stream: it
reads the same terminals and notes the same refusals. Whether it met the end can be told from its
trace, because the end is refused by every parser of a terminal, and what was refused furthest is
never forgotten.

`Firm` says this of a parser at a position, together with what the induction over the recursive
rules needs: the parser does not run out of unfoldings, and it moves on by at least one terminal
where it should. A rule that is unfolded calls another one at its own position only in the order
statement, expression, power, unary, so four unfoldings pay for each terminal that is left.

## Contents

- §1 streams that go on
- §2 the judgement
- §3 terminals
- §4 choice and repetition
- §5 expressions
- §6 statements
- §7 the unfolded rules
-/

namespace Scriptlet

/-! ## §1 Streams that go on -/

namespace Stream

/-- The second stream starts with the terminals of the first one, which are proper. -/
structure Extends (s s' : Stream) : Prop where
  items : ∃ more, s'.items = s.items ++ more
  proper : ∀ x ∈ s.items.toList, x.Proper

variable {s s' : Stream} {pos : Nat}

theorem peek_of_lt (h : pos < s.items.size) : s.peek pos = s.items[pos] := by
  simp [peek, h]

theorem peek_of_le (h : s.items.size ≤ pos) : s.peek pos = ⟨.ending, [], s.ending⟩ := by
  simp [peek, h]

theorem next_of_lt (h : pos < s.items.size) : s.next pos = pos + 1 := if_pos h

/-- Terminals before the end are proper ones. -/
theorem proper_peek (h : ∀ x ∈ s.items.toList, x.Proper) (hpos : pos < s.items.size) :
    (s.peek pos).Proper := by
  rw [peek_of_lt hpos]
  exact h _ (by simp)

/-- A proper terminal is not the end of the stream. -/
theorem kind_peek (h : ∀ x ∈ s.items.toList, x.Proper) (hpos : pos < s.items.size) :
    ((s.peek pos).kind == .ending) = false :=
  beq_eq_false_iff_ne.mpr (proper_peek h hpos).kind

namespace Extends

/-- A longer stream has at least as many terminals. -/
theorem size_le (h : Extends s s') : s.items.size ≤ s'.items.size := by
  obtain ⟨more, hmore⟩ := h.items
  simp [hmore]

/-- Before the end of the shorter stream both have the same terminals. -/
theorem peek_eq (h : Extends s s') (hpos : pos < s.items.size) : s'.peek pos = s.peek pos := by
  obtain ⟨more, hmore⟩ := h.items
  have hlt : pos < s'.items.size := Nat.lt_of_lt_of_le hpos h.size_le
  rw [peek_of_lt hpos, peek_of_lt hlt]
  simp [hmore, hpos]

/-- Before the end, the next position is the same in a longer stream. -/
theorem next_eq (h : Extends s s') (hpos : pos < s.items.size) : s'.next pos = s.next pos := by
  rw [next_of_lt hpos, next_of_lt (Nat.lt_of_lt_of_le hpos h.size_le)]

end Extends

end Stream

namespace Trace

/-- A note raises what was refused furthest to its position. -/
theorem furthest_note (t : Trace) (pos : Nat) (what : Text) :
    (t.note pos what).furthest = max t.furthest pos := by
  unfold Trace.note
  split
  · next h => exact (Nat.max_eq_right (Nat.le_of_lt h)).symm
  · next h => split <;> exact (Nat.max_eq_left (Nat.not_lt.mp h)).symm

/-- The furthest refusal stays before a position if it was, and the new one is. -/
theorem note_lt_iff {t : Trace} {pos n : Nat} {what : Text} :
    (t.note pos what).furthest < n ↔ t.furthest < n ∧ pos < n := by
  rw [furthest_note]
  exact Nat.max_lt

/-- Noting a refusal takes the furthest one no way back. -/
theorem le_note (t : Trace) (pos : Nat) (what : Text) : t.furthest ≤ (t.note pos what).furthest := by
  rw [furthest_note]
  exact Nat.le_max_left _ _

end Trace

namespace Parser

variable {α β : Type} {s s' : Stream} {pos : Nat}

/-! ## §2 The judgement -/

/-- What is made of the outcome of a run: one thing of a value, another of a failure. -/
def onward (out : Reply α × Trace) (f : α → Nat → Trace → Reply β × Trace)
    (g : Trace → Reply β × Trace) : Reply β × Trace :=
  match out with
  | (.done a fin, t) => f a fin t
  | (.failed, t) => g t
  | (.unfinished, t) => (.unfinished, t)

/-- One parser behind the other, with what follows a value and what follows a refusal apart. -/
theorem bind_onward (p : Parser α) (f : α → Parser β) (t : Trace) :
    (p >>= f) s pos t = onward (p s pos t) (fun a => f a s) fun t₁ => (.failed, t₁) := rfl

/-- The first of several parsers, and the others on its refusal. -/
theorem firstOf_onward (p : Parser α) (ps : List (Parser α)) (t : Trace) :
    firstOf (p :: ps) s pos t
      = onward (p s pos t) (fun a fin t₁ => (.done a fin, t₁)) (firstOf ps s pos) := by
  simp only [firstOf]
  obtain ⟨reply, t₁⟩ := p s pos t
  cases reply <;> rfl

/-- A round of a repetition, which ends where a round reads nothing. -/
theorem manyUpTo_onward (p : Parser α) (count : Nat) (t : Trace) :
    manyUpTo p (count + 1) s pos t = onward (p s pos t)
      (fun a fin t₁ =>
        if fin = pos then (.done [] pos, t₁)
        else onward (manyUpTo p count s fin t₁) (fun as stop t₂ => (.done (a :: as) stop, t₂))
          fun t₂ => (.failed, t₂))
      fun t₁ => (.done [] pos, t₁) := by
  simp only [manyUpTo]
  obtain ⟨reply, t₁⟩ := p s pos t
  cases reply with
  | done a fin =>
    -- a round that reads nothing ends the rounds
    simp only [onward]
    split
    · rfl
    · obtain ⟨reply, t₂⟩ := manyUpTo p count s fin t₁
      cases reply <;> rfl
  | failed => rfl
  | unfinished => rfl

/-- What came of a run that began with a trace, beside what came of one on the longer stream. -/
structure Settled (s : Stream) (t : Trace) (out out' : Reply α × Trace) (Q : Nat → Prop) :
    Prop where
  /-- Refusals are not forgotten. -/
  furthest_le : t.furthest ≤ out.2.furthest
  /-- The unfoldings of recursive rules are enough. -/
  finishes : out.1 ≠ .unfinished
  /-- Where the parser stops. -/
  stops : ∀ a fin, out.1 = .done a fin → Q fin
  /-- If the end was not met, more terminals make no difference. -/
  same : out.2.furthest < s.items.size → out' = out

namespace Settled

variable {t t₁ : Trace} {Q R : Nat → Prop}

/-- A value is settled where the longer stream gives it too. -/
theorem done {out' : Reply α × Trace} {a : α} {fin : Nat} (ht : t.furthest ≤ t₁.furthest)
    (hfin : Q fin) (hsame : t₁.furthest < s.items.size → out' = (.done a fin, t₁)) :
    Settled s t (.done a fin, t₁) out' Q where
  furthest_le := ht
  finishes := by simp
  stops := by
    intro b fin' hdone
    cases hdone
    exact hfin
  same := hsame

/-- A refusal is settled where the longer stream refuses too. -/
theorem failed {out' : Reply α × Trace} (ht : t.furthest ≤ t₁.furthest)
    (hsame : t₁.furthest < s.items.size → out' = (.failed, t₁)) :
    Settled s t (.failed, t₁) out' Q where
  furthest_le := ht
  finishes := by simp
  stops := by
    intro a fin hdone
    cases hdone
  same := hsame

/-- A run that goes on where another one left its trace. -/
theorem after {out out' : Reply α × Trace} (ht : t.furthest ≤ t₁.furthest)
    (h : Settled s t₁ out out' Q) : Settled s t out out' Q :=
  { h with furthest_le := Nat.le_trans ht h.furthest_le }

/-- **Going on behind a run**: what is made of its outcome is settled if it is settled for a value
and for a failure. -/
theorem onward {out out' : Reply α × Trace} {f f' : α → Nat → Trace → Reply β × Trace}
    {g g' : Trace → Reply β × Trace} (h : Settled s t out out' Q)
    (hdone : ∀ a fin t₁, Q fin → Settled s t₁ (f a fin t₁) (f' a fin t₁) R)
    (hfailed : ∀ t₁, Settled s t₁ (g t₁) (g' t₁) R) :
    Settled s t (onward out f g) (Parser.onward out' f' g') R := by
  have hnext : Settled s out.2 (Parser.onward out f g) (Parser.onward out f' g') R := by
    obtain ⟨reply, t₁⟩ := out
    cases reply with
    | done a fin => exact hdone a fin t₁ (h.stops a fin rfl)
    | failed => exact hfailed t₁
    | unfinished => exact absurd rfl h.finishes
  refine { hnext.after h.furthest_le with same := fun hlt => ?_ }
  -- what the run noted is not beyond what the whole notes
  rw [h.same (Nat.lt_of_le_of_lt hnext.furthest_le hlt)]
  exact hnext.same hlt

end Settled

/-- From the position, `p` does on the stream what `p'` does on the longer one, unless it meets the
end; it stops at positions that satisfy `Q`. -/
def Firm (s s' : Stream) (p p' : Parser α) (pos : Nat) (Q : Nat → Prop) : Prop :=
  ∀ t, Settled s t (p s pos t) (p' s' pos t) Q

/-- Positions behind a position. -/
abbrev Past (s : Stream) (pos fin : Nat) : Prop := pos < fin ∧ fin ≤ s.items.size

/-- Positions from a position on. -/
abbrev From (s : Stream) (pos fin : Nat) : Prop := pos ≤ fin ∧ fin ≤ s.items.size

section

variable {p p' : Parser α} {ps ps' : List (Parser α)} {f f' : α → Parser β} {Q R : Nat → Prop}

/-- A firm parser stays so for a weaker claim on where it ends. -/
theorem Firm.imp (h : Firm s s' p p' pos Q) (hQR : ∀ fin, Q fin → R fin) : Firm s s' p p' pos R :=
  fun t => { h t with stops := fun a fin hdone => hQR fin ((h t).stops a fin hdone) }

theorem Firm.constant {a : α} (h : Q pos) :
    Firm s s' (Parser.constant a) (Parser.constant a) pos Q :=
  fun _ => .done (Nat.le_refl _) h fun _ => rfl

theorem Firm.pure {a : α} (h : Q pos) : Firm s s' (Pure.pure a : Parser α) (Pure.pure a) pos Q :=
  Firm.constant h

/-- Firm parsers in a row are firm. -/
theorem Firm.bind (hp : Firm s s' p p' pos Q)
    (hf : ∀ a fin, Q fin → Firm s s' (f a) (f' a) fin R) :
    Firm s s' (p >>= f) (p' >>= f') pos R := by
  intro t
  rw [bind_onward, bind_onward]
  refine (hp t).onward (fun a fin t₁ hfin => hf a fin hfin t₁) fun t₁ => ?_
  exact .failed (Nat.le_refl _) fun _ => rfl

/-- A parser, and what is made of its value. -/
theorem Firm.map {g : α → β} (hp : Firm s s' p p' pos Q) :
    Firm s s' (p >>= fun a => Pure.pure (g a)) (p' >>= fun a => Pure.pure (g a)) pos Q :=
  hp.bind fun _ _ hfin => Firm.pure hfin

/-! ## §3 Terminals -/

/-- Whoever refuses the end reads a terminal or notes where it stands. -/
theorem satisfy_firm {q : Terminal → Bool} {what : Text} (hs : s.Extends s')
    (hq : ∀ loc, q ⟨.ending, [], loc⟩ = false) (hpos : pos ≤ s.items.size) :
    Firm s s' (satisfy q what) (satisfy q what) pos (Past s pos) := by
  intro t
  unfold satisfy
  simp only
  rcases Nat.lt_or_eq_of_le hpos with hlt | rfl
  · rw [hs.peek_eq hlt, hs.next_eq hlt, Stream.next_of_lt hlt]
    split
    · exact .done (Nat.le_refl _) ⟨Nat.lt_succ_self pos, hlt⟩ fun _ => rfl
    · exact .failed (Trace.le_note _ _ _) fun _ => rfl
  · -- a note at the end says that it was met
    rw [Stream.peek_of_le (Nat.le_refl _), hq, if_neg (by simp)]
    refine .failed (Trace.le_note _ _ _) fun hlt => ?_
    exact absurd (Trace.note_lt_iff.mp hlt).2 (Nat.lt_irrefl _)

/-- Where a terminal stands the end is refused. -/
theorem ending_of_lt (hproper : ∀ x ∈ s.items.toList, x.Proper) (hpos : pos < s.items.size)
    (t : Trace) : ending s pos t = (.failed, t.note pos "end of input") := by
  simp only [ending, satisfy, Stream.kind_peek hproper hpos, Bool.false_eq_true, if_false]

section

variable (hs : s.Extends s') (hpos : pos ≤ s.items.size)

include hs hpos

/-- Delimiters are firm, and read one terminal. -/
theorem punct_firm (text : Text) : Firm s s' (punct text) (punct text) pos (Past s pos) :=
  satisfy_firm hs (fun _ => rfl) hpos

theorem keyword_firm (word : Text) : Firm s s' (keyword word) (keyword word) pos (Past s pos) :=
  satisfy_firm hs (fun _ => rfl) hpos

theorem ident_firm : Firm s s' ident ident pos (Past s pos) :=
  satisfy_firm hs (fun _ => rfl) hpos

/-- Terminals of a kind are firm, and read one terminal; the end of the stream is no such kind. -/
theorem token_firm {kind : TerminalKind} (what : Text) (hkind : kind ≠ .ending) :
    Firm s s' (token (some kind) what) (token (some kind) what) pos (Past s pos) :=
  satisfy_firm hs (fun _ => by simpa using Ne.symm hkind) hpos

end

/-! ## §4 Choice and repetition -/

theorem Firm.none : Firm s s' (firstOf ([] : List (Parser α))) (firstOf []) pos Q :=
  fun _ => .failed (Nat.le_refl _) fun _ => rfl

/-- A choice between firm parsers is firm. -/
theorem Firm.choice (hp : Firm s s' p p' pos Q)
    (hps : Firm s s' (firstOf ps) (firstOf ps') pos Q) :
    Firm s s' (firstOf (p :: ps)) (firstOf (p' :: ps')) pos Q := by
  intro t
  rw [firstOf_onward, firstOf_onward]
  refine (hp t).onward (fun a fin t₁ hfin => ?_) hps
  exact .done (Nat.le_refl _) hfin fun _ => rfl

/-- An optional part is firm, when stopping at once is allowed. -/
theorem Firm.withDefault {a : α} (hp : Firm s s' p p' pos Q) (ha : Q pos) :
    Firm s s' (withDefault p a) (withDefault p' a) pos Q :=
  hp.choice ((Firm.constant ha).choice .none)

/-- Rounds that each read a terminal; the longer stream may allow more of them. -/
theorem Firm.manyUpTo {c c' : Nat} (hpos : pos ≤ s.items.size)
    (hp : ∀ mid, From s pos mid → Firm s s' p p' mid (Past s mid))
    (hc : s.items.size - pos < c) (hcc : c ≤ c') :
    Firm s s' (manyUpTo p c) (manyUpTo p' c') pos (From s pos) := by
  induction c generalizing pos c' with
  | zero => cases hc
  | succ c ih =>
    obtain ⟨c', rfl⟩ : ∃ d, c' = d + 1 := ⟨c' - 1, by omega⟩
    intro t
    rw [manyUpTo_onward, manyUpTo_onward]
    refine (hp pos ⟨Nat.le_refl _, hpos⟩ t).onward (fun a fin t₁ hfin => ?_) fun t₁ => ?_
    · -- the round read a terminal, so the others have less to read
      have hne : fin ≠ pos := by omega
      rw [if_neg hne, if_neg hne]
      have hmore : Firm s s' (Parser.manyUpTo p c) (Parser.manyUpTo p' c') fin (From s fin) :=
        ih hfin.2 (fun mid hmid => hp mid ⟨by omega, hmid.2⟩) (by omega) (by omega)
      refine (hmore t₁).onward (fun as stop t₂ hstop => ?_) fun t₂ => ?_
      · exact .done (Nat.le_refl _) ⟨by omega, hstop.2⟩ fun _ => rfl
      · exact .failed (Nat.le_refl _) fun _ => rfl
    · exact .done (Nat.le_refl _) ⟨Nat.le_refl _, hpos⟩ fun _ => rfl

/-- A repetition of firm parsers is firm, when each round reads something. -/
theorem Firm.many (hs : s.Extends s') (hpos : pos ≤ s.items.size)
    (hp : ∀ mid, From s pos mid → Firm s s' p p' mid (Past s mid)) :
    Firm s s' (many p) (many p') pos (From s pos) := by
  intro t
  have hsize := hs.size_le
  exact Firm.manyUpTo hpos hp (c := s.items.size + 1) (by omega) (by omega) t

/-- A list with commas is firm, when its items are. -/
theorem Firm.commaList (hs : s.Extends s') (hpos : pos ≤ s.items.size)
    (hp : ∀ mid, From s pos mid → Firm s s' p p' mid (Past s mid)) :
    Firm s s' (commaList p) (commaList p') pos (From s pos) := by
  refine Firm.withDefault ?_ ⟨Nat.le_refl _, hpos⟩
  refine (hp pos ⟨Nat.le_refl _, hpos⟩).bind fun first mid hmid => ?_
  refine ((Firm.many hs hmid.2 fun fin hfin => ?_).imp fun fin hfin => ?_).map
  · -- each further item is one behind a comma
    refine (punct_firm hs hfin.2 ",").bind fun _ behind hbehind => ?_
    exact (hp behind ⟨by omega, hbehind.2⟩).imp fun _ h => ⟨by omega, h.2⟩
  · exact ⟨by omega, hfin.2⟩

/-- A part between two marks is firm, and reads both of them. -/
theorem Firm.between {opening closing : Text} (hs : s.Extends s') (hpos : pos ≤ s.items.size)
    (hp : ∀ mid, Past s pos mid → Firm s s' p p' mid (From s mid)) :
    Firm s s' (between opening p closing) (between opening p' closing) pos (Past s pos) := by
  refine (punct_firm hs hpos opening).bind fun _ mid hmid => ?_
  refine (hp mid hmid).bind fun a fin hfin => ?_
  refine (punct_firm hs hfin.2 closing).bind fun _ stop hstop => ?_
  exact Firm.pure ⟨by omega, hstop.2⟩

end

end Parser

namespace Grammar

open Scriptlet.Parser

variable {s s' : Stream} {pos : Nat} {rules rules' : Rules}

/-! ## §5 Expressions -/

/-- The recursive rules are firm at all positions behind a position. -/
def FirmBehind (s s' : Stream) (rules rules' : Rules) (pos : Nat) : Prop :=
  ∀ r mid, Past s pos mid → Firm s s' (rules r) (rules' r) mid (Past s mid)

namespace FirmBehind

/-- Firmness behind a position holds behind a later one. -/
theorem mono {mid : Nat} (h : FirmBehind s s' rules rules' pos) (hmid : pos ≤ mid) :
    FirmBehind s s' rules rules' mid :=
  fun r fin hfin => h r fin ⟨by omega, hfin.2⟩

/-- A rule at the position itself and behind it. -/
theorem onwards {r : Rule} {mid : Nat} (h : FirmBehind s s' rules rules' pos)
    (hhere : Firm s s' (rules r) (rules' r) pos (Past s pos)) (hmid : From s pos mid) :
    Firm s s' (rules r) (rules' r) mid (Past s mid) := by
  rcases Nat.lt_or_eq_of_le hmid.1 with hlt | rfl
  · exact h r mid ⟨hlt, hmid.2⟩
  · exact hhere

/-- A rule behind a terminal. -/
theorem behind {p : Parser Terminal} (h : FirmBehind s s' rules rules' pos) (r : Rule)
    (hp : Firm s s' p p pos (Past s pos)) :
    Firm s s' (p >>= fun _ => rules r) (p >>= fun _ => rules' r) pos (Past s pos) :=
  hp.bind fun _ mid hmid => (h r mid hmid).imp fun _ hfin => ⟨by omega, hfin.2⟩

end FirmBehind

section

variable (hs : s.Extends s') (hpos : pos ≤ s.items.size)

include hs hpos

theorem number_firm : Firm s s' number number pos (Past s pos) :=
  (token_firm hs hpos "number" (by simp)).map

theorem string_firm : Firm s s' string string pos (Past s pos) :=
  (token_firm hs hpos "string" (by simp)).map

theorem identifier_firm : Firm s s' identifier identifier pos (Past s pos) :=
  (ident_firm hs hpos).map

variable (h : FirmBehind s s' rules rules' pos)

include h

/-- Calls are firm. -/
theorem call_firm : Firm s s' (call rules) (call rules') pos (Past s pos) := by
  refine (ident_firm hs hpos).bind fun callee mid hmid => ?_
  refine ((Firm.between hs hmid.2 fun fin hfin => ?_).imp fun fin hfin => ?_).map
  · refine Firm.commaList hs hfin.2 fun at_ hat => ?_
    exact h .expression at_ ⟨by omega, hat.2⟩
  · exact ⟨by omega, hfin.2⟩

/-- Groups are firm, whatever their marks. -/
theorem group_firm {opening closing : Text} :
    Firm s s' (between opening (rules .expression) closing)
      (between opening (rules' .expression) closing) pos (Past s pos) := by
  refine Firm.between hs hpos fun mid hmid => ?_
  exact (h .expression mid hmid).imp fun fin hfin => ⟨by omega, hfin.2⟩

/-- Atoms are firm. -/
theorem atom_firm : Firm s s' (atom rules) (atom rules') pos (Past s pos) := by
  refine (call_firm hs hpos h).choice ((identifier_firm hs hpos).choice ?_)
  refine (number_firm hs hpos).choice ((string_firm hs hpos).choice ?_)
  exact (group_firm hs hpos h).choice .none

theorem leadingOp_firm (symbol : Text) (op : UnaryOp) :
    Firm s s' (leadingOp rules symbol op) (leadingOp rules' symbol op) pos (Past s pos) := by
  refine (punct_firm hs hpos symbol).bind fun _ mid hmid => ?_
  exact ((h .unary mid hmid).imp fun fin hfin => ⟨by omega, hfin.2⟩).map

/-- Signs and their operand are firm. -/
theorem unary_firm : Firm s s' (unary rules) (unary rules') pos (Past s pos) := by
  refine (leadingOp_firm hs hpos h "!" .not).choice ?_
  refine (leadingOp_firm hs hpos h "-" .negate).choice ?_
  refine (h.behind .unary (punct_firm hs hpos "+")).choice ?_
  exact (atom_firm hs hpos h).choice .none

end

/-- Powers are firm. -/
theorem power_firm (hs : s.Extends s') (h : FirmBehind s s' rules rules' pos)
    (hunary : Firm s s' (rules .unary) (rules' .unary) pos (Past s pos)) :
    Firm s s' (power rules) (power rules') pos (Past s pos) := by
  refine hunary.bind fun base mid hmid => ?_
  refine Firm.withDefault ?_ hmid
  refine (punct_firm hs hmid.2 "**").bind fun _ fin hfin => ?_
  exact ((h .power fin ⟨by omega, hfin.2⟩).imp fun _ hstop => ⟨by omega, hstop.2⟩).map

theorem signs_firm (hs : s.Extends s') (hpos : pos ≤ s.items.size) (signs : List Text) :
    Firm s s' (firstOf (signs.map punct)) (firstOf (signs.map punct)) pos (Past s pos) := by
  induction signs with
  | nil => exact .none
  | cons sign signs ih => exact (punct_firm hs hpos sign).choice ih

/-- Chains to the left are firm, when their operands read something. -/
theorem leftChain_firm {operand operand' : Parser Node} {ops : List Text} (hs : s.Extends s')
    (hpos : pos ≤ s.items.size)
    (hoperand : ∀ mid, From s pos mid → Firm s s' operand operand' mid (Past s mid)) :
    Firm s s' (leftChain operand ops) (leftChain operand' ops) pos (Past s pos) := by
  refine (hoperand pos ⟨Nat.le_refl _, hpos⟩).bind fun first mid hmid => ?_
  refine ((Firm.many hs hmid.2 fun fin hfin => ?_).imp fun fin hfin => ?_).map
  · refine (signs_firm hs hfin.2 ops).bind fun op behind hbehind => ?_
    refine ((hoperand behind ⟨by omega, hbehind.2⟩).imp fun _ hstop => ?_).map
    exact ⟨by omega, hstop.2⟩
  · exact ⟨by omega, hfin.2⟩

/-- The levels above powers are chains over chains. -/
theorem levelParser_firm (hs : s.Extends s') (hpos : pos ≤ s.items.size)
    (hpower : ∀ mid, From s pos mid → Firm s s' (rules .power) (rules' .power) mid (Past s mid))
    (k : Nat) :
    Firm s s' (levelParser rules (k + 2)) (levelParser rules' (k + 2)) pos (Past s pos) := by
  induction k generalizing pos with
  | zero => exact hpower pos ⟨Nat.le_refl _, hpos⟩
  | succ k ih =>
    refine leftChain_firm hs hpos fun mid hmid => ih hmid.2 fun fin hfin => ?_
    exact hpower fin ⟨by omega, hfin.2⟩

/-! ## §6 Statements -/

/-- Where no terminal is left the end ends a statement, but the semicolon was refused there. -/
theorem terminator_firm (hs : s.Extends s') (hpos : pos ≤ s.items.size) :
    Firm s s' terminator terminator pos (From s pos) := by
  rcases Nat.lt_or_eq_of_le hpos with hlt | rfl
  · have hsemicolon := punct_firm hs hpos ";"
    have hend : Firm s s' ending ending pos (From s pos) := by
      intro t
      have hsame : ending s' pos t = ending s pos t := by
        simp only [ending, satisfy, hs.peek_eq hlt, hs.next_eq hlt]
      rw [hsame, ending_of_lt hs.proper hlt]
      exact .failed (Trace.le_note _ _ _) fun _ => rfl
    exact (hsemicolon.imp fun fin hfin => ⟨by omega, hfin.2⟩).choice (hend.choice .none)
  · intro t
    -- the refusal of the semicolon is noted, so nothing is claimed of the longer stream
    have hrun : terminator s s.items.size t
        = (.done (s.peek s.items.size) s.items.size, t.note s.items.size "';'") := by
      have hpeek := Stream.peek_of_le (s := s) (Nat.le_refl _)
      simp [terminator, firstOf, punct, ending, satisfy, hpeek, Stream.next]
      rfl
    rw [hrun]
    refine .done (Trace.le_note _ _ _) ⟨Nat.le_refl _, Nat.le_refl _⟩ fun hlt => ?_
    exact absurd (Trace.note_lt_iff.mp hlt).2 (Nat.lt_irrefl _)

/-- Statements with their semicolon are firm. -/
theorem terminated_firm {p p' : Parser Node} (low : Nat) (hs : s.Extends s')
    (hp : Firm s s' p p' pos (From s low)) :
    Firm s s' (terminated p) (terminated p') pos (From s low) := by
  refine hp.bind fun x mid hmid => ?_
  exact ((terminator_firm hs hmid.2).imp fun fin hfin => ⟨by omega, hfin.2⟩).map

section

variable (hs : s.Extends s') (hpos : pos ≤ s.items.size) (h : FirmBehind s s' rules rules' pos)

include hs hpos h

theorem returnStmt_firm : Firm s s' (returnStmt rules) (returnStmt rules') pos (Past s pos) := by
  refine (keyword_firm hs hpos "return").bind fun t mid hmid => ?_
  refine terminated_firm (pos + 1) hs (Firm.map (Firm.withDefault ?_ hmid))
  exact (h .expression mid hmid).imp fun fin hfin => ⟨by omega, hfin.2⟩

theorem braces_firm : Firm s s' (braces rules) (braces rules') pos (Past s pos) := by
  refine (punct_firm hs hpos "\x7b").bind fun t mid hmid => ?_
  refine (Firm.many hs hmid.2 fun fin hfin => ?_).bind fun stmts fin hfin => ?_
  · exact h .statement fin ⟨by omega, hfin.2⟩
  · refine (punct_firm hs hfin.2 "\x7d").bind fun _ stop hstop => ?_
    exact Firm.pure ⟨by omega, hstop.2⟩

/-- Functions are firm, though an unfinished body ends the program early. -/
theorem functionStmt_firm :
    Firm s s' (functionStmt rules) (functionStmt rules') pos (Past s pos) := by
  refine (keyword_firm hs hpos "function").bind fun t mid₁ hmid₁ => ?_
  refine (ident_firm hs hmid₁.2).bind fun name mid₂ hmid₂ => ?_
  have hparams : Firm s s' (between "(" (commaList ident) ")")
      (between "(" (commaList ident) ")") mid₂ (Past s mid₂) :=
    Firm.between hs hmid₂.2 fun fin hfin =>
      Firm.commaList hs hfin.2 fun _ hat => ident_firm hs hat.2
  refine hparams.bind fun params mid₃ hmid₃ => ?_
  refine (braces_firm hs hmid₃.2 (h.mono (by omega))).bind fun body fin hfin => ?_
  -- the name decides what is built and not what is read
  have hfin' : Past s pos fin := ⟨by omega, hfin.2⟩
  by_cases hmain : name.text = "main"
  · simp only [hmain, if_true]
    exact Firm.pure hfin'
  · simp only [hmain, if_false]
    exact Firm.pure hfin'

/-- Choices are firm, with the keyword of the other branch looked for. -/
theorem ifStmt_firm : Firm s s' (ifStmt rules) (ifStmt rules') pos (Past s pos) := by
  refine (keyword_firm hs hpos "if").bind fun t mid₁ hmid₁ => ?_
  refine (group_firm hs hmid₁.2 (h.mono (by omega))).bind fun cond mid₂ hmid₂ => ?_
  refine (h .statement mid₂ ⟨by omega, hmid₂.2⟩).bind fun yes mid₃ hmid₃ => ?_
  have hmid : Past s pos mid₃ := ⟨by omega, hmid₃.2⟩
  have helse := (h.mono (Nat.le_of_lt hmid.1)).behind .statement (keyword_firm hs hmid₃.2 "else")
  exact (Firm.withDefault (helse.imp fun fin hfin => ⟨by omega, hfin.2⟩) hmid).map

theorem whileStmt_firm : Firm s s' (whileStmt rules) (whileStmt rules') pos (Past s pos) := by
  refine (keyword_firm hs hpos "while").bind fun t mid₁ hmid₁ => ?_
  refine (group_firm hs hmid₁.2 (h.mono (by omega))).bind fun cond mid₂ hmid₂ => ?_
  exact ((h .statement mid₂ ⟨by omega, hmid₂.2⟩).imp fun fin hfin => ⟨by omega, hfin.2⟩).map

/-- Declarations and assignments are firm alike. -/
theorem binding_firm {sign : Parser Terminal} {build : Terminal → Terminal → Node → Node}
    (hsign : ∀ mid, From s pos mid → Firm s s' sign sign mid (Past s mid)) :
    Firm s s' (binding rules sign build) (binding rules' sign build) pos (Past s pos) := by
  refine (ident_firm hs hpos).bind fun name mid₁ hmid₁ => ?_
  refine (hsign mid₁ ⟨by omega, hmid₁.2⟩).bind fun op mid₂ hmid₂ => ?_
  refine terminated_firm (pos + 1) hs (Firm.map ?_)
  exact (h .expression mid₂ ⟨by omega, hmid₂.2⟩).imp fun fin hfin => ⟨by omega, hfin.2⟩

theorem varStmt_firm : Firm s s' (varStmt rules) (varStmt rules') pos (Past s pos) := by
  have hword : Firm s s' (firstOf [keyword "var", keyword "let"])
      (firstOf [keyword "var", keyword "let"]) pos (Past s pos) :=
    (keyword_firm hs hpos "var").choice ((keyword_firm hs hpos "let").choice .none)
  refine hword.bind fun t mid hmid => ?_
  refine (binding_firm hs hmid.2 (h.mono (Nat.le_of_lt hmid.1)) fun fin hfin => ?_).imp ?_
  · exact punct_firm hs hfin.2 "="
  · exact fun fin hfin => ⟨by omega, hfin.2⟩

theorem assignStmt_firm : Firm s s' (assignStmt rules) (assignStmt rules') pos (Past s pos) :=
  binding_firm hs hpos h fun _ hmid =>
    signs_firm hs hmid.2 assignSigns

/-- Statements are firm, whichever form is tried. -/
theorem statement_firm
    (hexpression : Firm s s' (rules .expression) (rules' .expression) pos (Past s pos)) :
    Firm s s' (statement rules) (statement rules') pos (Past s pos) := by
  refine (returnStmt_firm hs hpos h).choice ((functionStmt_firm hs hpos h).choice ?_)
  refine (ifStmt_firm hs hpos h).choice ((whileStmt_firm hs hpos h).choice ?_)
  refine (varStmt_firm hs hpos h).choice ((assignStmt_firm hs hpos h).choice ?_)
  refine Firm.choice ?_ ((terminated_firm (pos + 1) hs hexpression).choice .none)
  exact (braces_firm hs hpos h).map

end

/-! ## §7 The unfolded rules -/

/-- How many rules may be called at one position before a terminal is read, counted from the rule
on. -/
def Rule.rank : Rule → Nat
  | .unary => 1
  | .power => 2
  | .expression => 3
  | .statement => 4

theorem Rule.rank_pos (r : Rule) : 0 < r.rank := by cases r <;> decide

theorem Rule.rank_le (r : Rule) : r.rank ≤ 4 := by cases r <;> decide

/-- **Rules unfolded often enough are firm.** -/
theorem unfold_firm {n n' : Nat} {r : Rule} (hs : s.Extends s') (hpos : pos ≤ s.items.size)
    (hn : 4 * (s.items.size - pos) + r.rank ≤ n) (hnn : n ≤ n') :
    Firm s s' (unfold n r) (unfold n' r) pos (Past s pos) := by
  induction n generalizing n' r pos with
  | zero =>
    have := r.rank_pos
    omega
  | succ n ih =>
    obtain ⟨n', rfl⟩ : ∃ m, n' = m + 1 := ⟨n' - 1, by omega⟩
    -- a terminal that is read pays for any rule behind it
    have hbehind : FirmBehind s s' (unfold n) (unfold n') pos := by
      intro r' mid hmid
      have := r'.rank_le
      have := r.rank_pos
      exact ih hmid.2 (by omega) (by omega)
    -- at the position itself only a rule of lower rank is called
    have hlower (r' : Rule) (hr : r'.rank < r.rank) :
        Firm s s' (unfold n r') (unfold n' r') pos (Past s pos) := ih hpos (by omega) (by omega)
    cases r with
    | unary => exact unary_firm hs hpos hbehind
    | power => exact power_firm hs hbehind (hlower .unary (by decide))
    | expression =>
      refine levelParser_firm hs hpos (fun mid hmid => ?_) 5
      exact hbehind.onwards (hlower .power (by decide)) hmid
    | statement => exact statement_firm hs hpos hbehind (hlower .expression (by decide))

/-- The program of a stream is read alike on a longer stream, unless the end is met. -/
theorem program_firm (hs : s.Extends s') :
    Firm s s' (program (unfoldings s)) (program (unfoldings s')) 0 (From s 0) := by
  have hsize := hs.size_le
  refine Firm.many hs (Nat.zero_le _) fun mid hmid => ?_
  refine unfold_firm hs hmid.2 ?_ ?_ <;> simp only [unfoldings, Rule.rank] <;> omega

end Grammar

end Scriptlet
