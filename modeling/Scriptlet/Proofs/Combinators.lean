import Mathlib.Data.List.Induction
import Scriptlet.Parser.Form
import Scriptlet.Parser.Grammar

/-!
# The contract of the combinators

A `Combinator` is a parser as data, sequences included that go on with whatever the first value
says. It means a parser, and it can be *watched*: the watched run says where a failing parser leaves
the source, and keeps a record of every look at a terminal and of every refusal. Parsers share one
trace, which forgets most of this. The contract says what it remembers: the furthest refusal, and
what was expected there.

The proof is one lemma per combinator about a parser and the watched run beside it (`Tracks`). The
recursion of rules is an induction on their unfoldings.

## Contents

- §1 events and what a trace reports of them
- §2 combinators and their parsers
- §3 watched runs
- §4 one lemma per combinator
- §5 more unfoldings
- §6 the contract
-/

namespace Scriptlet

/-! ## §1 Events and what a trace reports of them -/

/-- What happens to a source while it is parsed. -/
inductive Event where
  /-- A parser looked at the terminal at a position. -/
  | looked (pos : Nat)
  /-- At a position something else was expected. -/
  | refused (pos : Nat) (what : Text)

namespace Event

/-- The position of an event. -/
def pos : Event → Nat
  | .looked pos => pos
  | .refused pos _ => pos

/-- The position of a refusal and what was expected. -/
def refusal? : Event → Option (Nat × Text)
  | .looked _ => none
  | .refused pos what => some (pos, what)

end Event

/-- The refusals among events, in order. -/
def refusals (events : List Event) : List (Nat × Text) := events.filterMap Event.refusal?

/-- The furthest position of refusals; zero if there is none. -/
def furthestOf (rs : List (Nat × Text)) : Nat := (rs.map Prod.fst).foldl max 0

/-- What was expected at a position, in order of the first refusal. -/
def expectedAt (pos : Nat) (rs : List (Nat × Text)) : List Text :=
  ((rs.filter fun r => r.1 == pos).map Prod.snd).eraseDups

/-- The trace that reports events. -/
def Trace.of (events : List Event) : Trace :=
  ⟨furthestOf (refusals events), expectedAt (furthestOf (refusals events)) (refusals events)⟩

@[simp] theorem refusals_append (events more : List Event) :
    refusals (events ++ more) = refusals events ++ refusals more := List.filterMap_append

/-- What was refused, and where, is what the events say. -/
theorem mem_refusals {events : List Event} {pos : Nat} {what : Text} :
    (pos, what) ∈ refusals events ↔ .refused pos what ∈ events := by
  unfold refusals
  rw [List.mem_filterMap]
  constructor
  · rintro ⟨e, he, hrefusal⟩
    cases e with
    | looked pos' => cases hrefusal
    | refused pos' what' =>
      cases hrefusal
      exact he
  · intro h
    exact ⟨_, h, rfl⟩

/-- The furthest refusal of a row, with one more behind it. -/
theorem furthestOf_append (rs : List (Nat × Text)) (r : Nat × Text) :
    furthestOf (rs ++ [r]) = max (furthestOf rs) r.1 := by
  simp [furthestOf, List.foldl_append]

/-- Every refusal is at the furthest one, or before it. -/
theorem le_furthestOf {rs : List (Nat × Text)} {r : Nat × Text} (h : r ∈ rs) :
    r.1 ≤ furthestOf rs := by
  induction rs using List.reverseRecOn with
  | nil => cases h
  | append_singleton rs r' ih =>
    rw [furthestOf_append]
    rcases List.mem_append.mp h with h | h
    · exact Nat.le_trans (ih h) (Nat.le_max_left _ _)
    · rw [List.mem_singleton.mp h]
      exact Nat.le_max_right _ _

/-- The furthest refusal is one of the refusals. -/
theorem furthestOf_mem {rs : List (Nat × Text)} (h : rs ≠ []) :
    ∃ what, (furthestOf rs, what) ∈ rs := by
  induction rs using List.reverseRecOn with
  | nil => exact absurd rfl h
  -- the last refusal is the furthest, or one before it is
  | append_singleton rs r ih =>
    rw [furthestOf_append]
    rcases Nat.le_total (furthestOf rs) r.1 with hle | hle
    · rw [Nat.max_eq_right hle]
      exact ⟨r.2, by simp⟩
    · rw [Nat.max_eq_left hle]
      cases rs with
      | nil =>
        have hzero : r.1 = 0 := Nat.le_zero.mp hle
        exact ⟨r.2, by simp [furthestOf, ← hzero]⟩
      | cons r' rs =>
        obtain ⟨what, hwhat⟩ := ih (by simp)
        exact ⟨what, List.mem_append_left _ hwhat⟩

/-- Without repetitions, one more text goes to the end, or is there already. -/
theorem eraseDups_concat (whats : List Text) (what : Text) :
    (whats ++ [what]).eraseDups =
      if what ∈ whats then whats.eraseDups else whats.eraseDups ++ [what] := by
  rw [List.eraseDups_append]
  by_cases h : what ∈ whats
  · simp [List.removeAll, h]
  · simp [List.removeAll, h, List.eraseDups_cons]

/-- Without repetitions, no text is there twice. -/
theorem nodup_eraseDups (whats : List Text) : whats.eraseDups.Nodup := by
  induction whats using List.reverseRecOn with
  | nil => exact List.nodup_nil
  | append_singleton whats what ih =>
    rw [eraseDups_concat]
    split
    · exact ih
    · rename_i h
      refine List.nodup_append.mpr ⟨ih, by simp, fun a ha b hb heq => h ?_⟩
      rw [← List.mem_singleton.mp hb, ← heq]
      exact List.mem_eraseDups.mp ha

/-- What is expected at a position does not change with a refusal elsewhere. -/
theorem expectedAt_other {pos : Nat} {r : Nat × Text} (h : r.1 ≠ pos) (rs : List (Nat × Text)) :
    expectedAt pos (rs ++ [r]) = expectedAt pos rs := by
  simp [expectedAt, h]

/-- Behind all refusals there is none. -/
theorem expectedAt_beyond {pos : Nat} {rs : List (Nat × Text)} (h : furthestOf rs < pos) :
    expectedAt pos rs = [] := by
  have hnone : (rs.filter fun r => r.1 == pos) = [] := by
    rw [List.filter_eq_nil_iff]
    intro r hr hpos
    have hle := le_furthestOf hr
    rw [beq_iff_eq.mp hpos] at hle
    exact absurd h (Nat.not_lt.mpr hle)
  rw [expectedAt, hnone]
  rfl

/-- One more refusal at the position adds its text, if that is new. -/
theorem expectedAt_same (pos : Nat) (what : Text) (rs : List (Nat × Text)) :
    expectedAt pos (rs ++ [(pos, what)]) =
      if what ∈ expectedAt pos rs then expectedAt pos rs else expectedAt pos rs ++ [what] := by
  have hmem : what ∈ expectedAt pos rs ↔
      what ∈ (rs.filter fun r => r.1 == pos).map Prod.snd := List.mem_eraseDups
  simp only [hmem]
  rw [expectedAt, List.filter_append, List.map_append]
  simp [eraseDups_concat, expectedAt]

/-- Noting a refusal in a trace is the same as recording it. -/
theorem Trace.note_of (events : List Event) (pos : Nat) (what : Text) :
    (Trace.of events).note pos what = Trace.of (events ++ [.refused pos what]) := by
  have hrecorded : refusals (events ++ [.refused pos what]) = refusals events ++ [(pos, what)] :=
    refusals_append events _
  unfold note Trace.of
  rw [hrecorded, furthestOf_append]
  generalize refusals events = rs
  rcases Nat.lt_trichotomy (furthestOf rs) pos with hlt | heq | hgt
  · -- a refusal further on makes all others forgotten
    rw [if_pos hlt, Nat.max_eq_right (Nat.le_of_lt hlt), expectedAt_same, expectedAt_beyond hlt]
    rfl
  · subst heq
    rw [if_neg (Nat.lt_irrefl _), Nat.max_self, expectedAt_same]
    by_cases hwhat : what ∈ expectedAt (furthestOf rs) rs
    · simp [hwhat]
    · simp [hwhat]
  · have hother : pos ≠ furthestOf rs := Nat.ne_of_lt hgt
    rw [if_neg (Nat.not_lt.mpr (Nat.le_of_lt hgt)), Nat.max_eq_left (Nat.le_of_lt hgt),
      expectedAt_other hother]
    simp [hother]

/-! ## §2 Combinators and their parsers -/

/-- What a parser of one terminal looks for. -/
inductive Wanted where
  /-- A terminal of a kind; `none` is the kind of no terminal. -/
  | token (kind : Option TerminalKind) (what : Text)
  | punct (text : Text)
  | keyword (word : Text)
  | ident
  | ending

namespace Wanted

/-- The terminal is what is looked for. -/
def accepts : Wanted → Terminal → Bool
  | .token kind _, x => some x.kind == kind
  | .punct text, x => (x.kind == .operator || x.kind == .punct) && x.text == text
  | .keyword word, x => x.kind == .ident && x.text == word
  | .ident, x => x.kind == .ident && !isReserved x.text
  | .ending, x => x.kind == .ending

/-- What is said to be expected. -/
def shown : Wanted → Text
  | .token _ what => what
  | .punct text => "'" ++ text ++ "'"
  | .keyword word => word
  | .ident => "identifier"
  | .ending => "end of input"

/-- The parser of one terminal. -/
def parser : Wanted → Parser Terminal
  | .token kind what => Parser.token kind what
  | .punct text => Parser.punct text
  | .keyword word => Parser.keyword word
  | .ident => Parser.ident
  | .ending => Parser.ending

/-- What is wanted is asked for with one test. -/
theorem parser_eq (w : Wanted) : w.parser = Parser.satisfy w.accepts w.shown := by
  cases w <;> rfl

end Wanted

/-- The alternatives behind the first are one alternative. -/
theorem Parser.firstOf_cons {α : Type} (p : Parser α) (ps : List (Parser α)) :
    Parser.firstOf (p :: ps) = Parser.firstOf [p, Parser.firstOf ps] := by
  funext s pos t
  simp only [Parser.firstOf]
  split
  · split <;> simp_all
  · rfl

/-- A parser as data, with rules that yield values of some types. -/
inductive Combinator (ι : Type) (τ : ι → Type) : Type → Type 1 where
  | constant {α : Type} (a : α) : Combinator ι τ α
  | refuse {α : Type} (what : Text) : Combinator ι τ α
  | terminal (w : Wanted) : Combinator ι τ Terminal
  /-- One after the other; what comes second depends on the value of the first. -/
  | bind {α β : Type} (c : Combinator ι τ α) (f : α → Combinator ι τ β) : Combinator ι τ β
  | map {α β : Type} (f : α → β) (c : Combinator ι τ α) : Combinator ι τ β
  /-- No alternative. -/
  | nothing {α : Type} : Combinator ι τ α
  /-- An alternative before others. -/
  | orElse {α : Type} (c others : Combinator ι τ α) : Combinator ι τ α
  | many {α : Type} (c : Combinator ι τ α) : Combinator ι τ (List α)
  | rule (i : ι) : Combinator ι τ (τ i)

namespace Combinator

variable {ι : Type} {τ : ι → Type} {α β : Type}

/-- One after the other, with the value of the second. -/
def both (c : Combinator ι τ α) (d : Combinator ι τ β) : Combinator ι τ β := c.bind fun _ => d

/-- The first alternative that succeeds. -/
def firstOf (cs : List (Combinator ι τ α)) : Combinator ι τ α := cs.foldr orElse nothing

/-- The combinator, or a value without reading anything. -/
def optional (c : Combinator ι τ α) (a : α) : Combinator ι τ α := firstOf [c, constant a]

/-- The parser of a combinator, given those of the rules. -/
def parser (rules : (i : ι) → Parser (τ i)) : {α : Type} → Combinator ι τ α → Parser α
  | _, constant a => Parser.constant a
  | _, refuse what => Parser.refuse what
  | _, terminal w => w.parser
  | _, bind c f => Parser.bind (c.parser rules) fun a => (f a).parser rules
  | _, map f c => f <$> c.parser rules
  | _, nothing => Parser.firstOf []
  | _, orElse c others => Parser.firstOf [c.parser rules, others.parser rules]
  | _, many c => Parser.many (c.parser rules)
  | _, rule i => rules i

theorem parser_firstOf (rules : (i : ι) → Parser (τ i)) (cs : List (Combinator ι τ α)) :
    (firstOf cs).parser rules = Parser.firstOf (cs.map (·.parser rules)) := by
  induction cs with
  | nil => rfl
  | cons c cs ih =>
    have hcons : (firstOf (c :: cs)).parser rules
        = Parser.firstOf [c.parser rules, (firstOf cs).parser rules] := rfl
    rw [hcons, ih]
    exact (Parser.firstOf_cons _ _).symm

theorem parser_optional (rules : (i : ι) → Parser (τ i)) (c : Combinator ι τ α) (a : α) :
    (c.optional a).parser rules = Parser.withDefault (c.parser rules) a :=
  parser_firstOf rules [c, constant a]

end Combinator

/-- Rules by name. One without a body was never defined. -/
structure RuleTable (ι : Type) (τ : ι → Type) where
  name : ι → Text
  body : (i : ι) → Option (Combinator ι τ (τ i))

namespace RuleTable

variable {ι : Type} {τ : ι → Type}

/-- The parsers of the rules, unfolded a number of times. -/
def unfold (rules : RuleTable ι τ) : Nat → (i : ι) → Parser (τ i)
  | 0, _ => Parser.unfinished
  | n + 1, i =>
    match rules.body i with
    | some c => c.parser (rules.unfold n)
    | none => Parser.refuse (rules.name i ++ " (undefined rule)")

end RuleTable

/-! ## §3 Watched runs -/

/-- What a parser gives back, with the source as it leaves it. -/
inductive Return (α : Type) where
  | accepted (value : α) (pos : Nat)
  | refused (pos : Nat)
  /-- The unfoldings of recursive rules are used up. -/
  | unfinished

/-- What the others learn of a return. -/
def Return.reply {α : Type} : Return α → Reply α
  | .accepted a pos => .done a pos
  | .refused _ => .failed
  | .unfinished => .unfinished

/-- A watched run: from a position of a stream to a return and the events on the way. -/
abbrev Watch (α : Type) : Type := Stream → Nat → Return α × List Event

namespace Watch

variable {α β : Type}

/-- The source behind a terminal; the end of the source is never passed. -/
def advance (s : Stream) (pos : Nat) : Nat :=
  if (s.peek pos).kind == .ending then pos else pos + 1

def constant (a : α) : Watch α := fun _ pos => (.accepted a pos, [])

def refuse (what : Text) : Watch α := fun _ pos => (.refused pos, [.refused pos what])

def terminal (w : Wanted) : Watch Terminal := fun s pos =>
  if w.accepts (s.peek pos) then (.accepted (s.peek pos) (advance s pos), [.looked pos])
  else (.refused pos, [.looked pos, .refused pos w.shown])

/-- When either part fails, the source is given back as it came. -/
def bind (w : Watch α) (f : α → Watch β) : Watch β := fun s pos =>
  match w s pos with
  | (.accepted a rest, events) =>
    match f a s rest with
    | (.accepted b rest', more) => (.accepted b rest', events ++ more)
    | (.refused _, more) => (.refused pos, events ++ more)
    | (.unfinished, more) => (.unfinished, events ++ more)
  | (.refused _, events) => (.refused pos, events)
  | (.unfinished, events) => (.unfinished, events)

def map (f : α → β) (w : Watch α) : Watch β := fun s pos =>
  match w s pos with
  | (.accepted a rest, events) => (.accepted (f a) rest, events)
  | (.refused _, events) => (.refused pos, events)
  | (.unfinished, events) => (.unfinished, events)

def nothing : Watch α := fun _ pos => (.refused pos, [])

/-- Alternatives start from the same source. -/
def orElse (w others : Watch α) : Watch α := fun s pos =>
  match w s pos with
  | (.accepted a rest, events) => (.accepted a rest, events)
  | (.refused _, events) =>
    match others s pos with
    | (.accepted a rest, more) => (.accepted a rest, events ++ more)
    | (.refused _, more) => (.refused pos, events ++ more)
    | (.unfinished, more) => (.unfinished, events ++ more)
  | (.unfinished, events) => (.unfinished, events)

/-- Goes round at most a number of times. It is never the number that ends it. -/
def rounds (w : Watch α) (s : Stream) : Nat → Nat → Return (List α) × List Event
  | 0, _ => (.unfinished, [])
  | count + 1, pos =>
    match w s pos with
    | (.accepted a rest, events) =>
      if rest = pos then (.accepted [] pos, events)
      else
        match rounds w s count rest with
        | (.accepted as last, more) => (.accepted (a :: as) last, events ++ more)
        | (.refused last, more) => (.refused last, events ++ more)
        | (.unfinished, more) => (.unfinished, events ++ more)
    | (.refused _, events) => (.accepted [] pos, events)
    | (.unfinished, events) => (.unfinished, events)

/-- Going round does not fail: a round that fails is the last. -/
theorem rounds_ne_refused (w : Watch α) (s : Stream) (count pos last : Nat) :
    (rounds w s count pos).1 ≠ .refused last := by
  induction count generalizing pos with
  | zero => exact fun h => nomatch h
  | succ count ih =>
    -- a round that fails ends the rounds, and a round that reads nothing does so too
    unfold rounds
    split
    · rename_i a rest events _
      split
      · exact fun h => nomatch h
      · have hrest := ih rest
        split
        · exact fun h => nomatch h
        · rename_i hmore
          rw [hmore] at hrest
          exact hrest
        · exact fun h => nomatch h
    · exact fun h => nomatch h
    · exact fun h => nomatch h

def many (w : Watch α) : Watch (List α) := fun s pos => rounds w s (s.items.size + 1) pos

def unfinished : Watch α := fun _ _ => (.unfinished, [])

end Watch

/-- The watched run of a combinator, given those of the rules. -/
def Combinator.watch {ι : Type} {τ : ι → Type} (rules : (i : ι) → Watch (τ i)) :
    {α : Type} → Combinator ι τ α → Watch α
  | _, constant a => Watch.constant a
  | _, refuse what => Watch.refuse what
  | _, terminal w => Watch.terminal w
  | _, bind c f => Watch.bind (c.watch rules) fun a => (f a).watch rules
  | _, map f c => Watch.map f (c.watch rules)
  | _, nothing => Watch.nothing
  | _, orElse c others => Watch.orElse (c.watch rules) (others.watch rules)
  | _, many c => Watch.many (c.watch rules)
  | _, rule i => rules i

/-- The watched runs of the rules, unfolded a number of times. -/
def RuleTable.watch {ι : Type} {τ : ι → Type} (rules : RuleTable ι τ) :
    Nat → (i : ι) → Watch (τ i)
  | 0, _ => Watch.unfinished
  | n + 1, i =>
    match rules.body i with
    | some c => c.watch (rules.watch n)
    | none => Watch.refuse (rules.name i ++ " (undefined rule)")

/-! ## §4 One lemma per combinator -/

/-- The only end of the source is behind all its terminals. -/
def Stream.SingleEnd (s : Stream) : Prop := ∀ x ∈ s.items, x.kind ≠ .ending

/-- What may come back from a position of a stream: a failing parser gives back the source as it
came, and a successful one does not go back and does not pass the end. -/
inductive Return.Fits {α : Type} (s : Stream) (pos : Nat) : Return α → Prop where
  | accepted {a : α} {rest : Nat} (hle : pos ≤ rest) (hend : rest ≤ s.items.size) :
      Fits s pos (.accepted a rest)
  | refused : Fits s pos (.refused pos)
  | unfinished : Fits s pos .unfinished

/-- From a position of the stream, the parser does what was seen, its trace reports the events, and
nothing happened behind the end of the source. -/
structure Shows {α : Type} (s : Stream) (pos : Nat) (p : Parser α)
    (seen : Return α × List Event) : Prop where
  run : ∀ earlier, p s pos (.of earlier) = (seen.1.reply, .of (earlier ++ seen.2))
  fits : seen.1.Fits s pos
  inside : ∀ e ∈ seen.2, e.pos ≤ s.items.size

/-- The watched run shows what the parser does from every position. -/
def Tracks {α : Type} (s : Stream) (p : Parser α) (w : Watch α) : Prop :=
  ∀ pos ≤ s.items.size, Shows s pos p (w s pos)

/-- A look at a terminal leaves no trace. -/
theorem Trace.of_looked (earlier : List Event) (pos : Nat) :
    Trace.of (earlier ++ [.looked pos]) = Trace.of earlier := by
  have hrefusals : refusals (earlier ++ [.looked pos]) = refusals earlier := by
    rw [refusals_append]
    exact List.append_nil _
  unfold Trace.of
  rw [hrefusals]

/-- Behind the last terminal the source ends, and nowhere else. -/
theorem Stream.SingleEnd.advance_eq {s : Stream} (hs : s.SingleEnd) (pos : Nat) :
    Watch.advance s pos = s.next pos := by
  unfold Watch.advance Stream.next Stream.peek
  by_cases hlt : pos < s.items.size
  · have hkind := hs s.items[pos] (Array.getElem_mem hlt)
    simp [hlt, hkind]
  · simp [hlt]

namespace Tracks

variable {α β : Type} {s : Stream} {p q : Parser α} {w v : Watch α}

theorem constant (a : α) : Tracks s (Parser.constant a) (Watch.constant a) := by
  intro pos hpos
  refine ⟨fun earlier => ?_, .accepted (Nat.le_refl pos) hpos, fun e he => nomatch he⟩
  simp [Parser.constant, Watch.constant, Return.reply]

theorem refuse (what : Text) : Tracks s (Parser.refuse what : Parser α) (Watch.refuse what) := by
  intro pos hpos
  refine ⟨fun earlier => ?_, .refused, fun e he => ?_⟩
  · simp only [Parser.refuse, Watch.refuse, Return.reply, Trace.note_of]
  · rw [List.mem_singleton.mp he]
    exact hpos

theorem unfinished : Tracks s (Parser.unfinished : Parser α) Watch.unfinished := by
  intro pos hpos
  refine ⟨fun earlier => ?_, .unfinished, fun e he => nomatch he⟩
  simp [Parser.unfinished, Watch.unfinished, Return.reply]

theorem nothing : Tracks s (Parser.firstOf [] : Parser α) Watch.nothing := by
  intro pos hpos
  refine ⟨fun earlier => ?_, .refused, fun e he => nomatch he⟩
  simp [Parser.firstOf, Watch.nothing, Return.reply]

/-- A terminal is tracked: both sides accept it, or refuse it with the same text. -/
theorem terminal (hs : s.SingleEnd) (wanted : Wanted) :
    Tracks s wanted.parser (Watch.terminal wanted) := by
  intro pos hpos
  rw [Wanted.parser_eq]
  unfold Watch.terminal
  -- a terminal accepted is one look, and one refused is a look and a refusal
  cases haccepts : wanted.accepts (s.peek pos) with
  | true =>
    rw [if_pos rfl, hs.advance_eq pos]
    refine ⟨fun earlier => ?_, .accepted ?_ ?_, fun e he => ?_⟩
    · simp [Parser.satisfy, haccepts, Return.reply, Trace.of_looked]
    · unfold Stream.next
      split <;> omega
    · unfold Stream.next
      split <;> omega
    · rw [List.mem_singleton.mp he]
      exact hpos
  | false =>
    rw [if_neg (by simp)]
    refine ⟨fun earlier => ?_, .refused, fun e he => ?_⟩
    · rw [List.append_cons, ← Trace.note_of, Trace.of_looked]
      simp [Parser.satisfy, haccepts, Return.reply]
    · simp only [List.mem_cons, List.not_mem_nil, or_false] at he
      rcases he with rfl | rfl <;> exact hpos

/-- What happens in two parts one after the other happens inside the source. -/
theorem inside_append {events more : List Event} {size : Nat} (h : ∀ e ∈ events, e.pos ≤ size)
    (hmore : ∀ e ∈ more, e.pos ≤ size) : ∀ e ∈ events ++ more, e.pos ≤ size :=
  List.forall_mem_append.mpr ⟨h, hmore⟩

/-- A sequence is tracked, with the events of its parts in order. -/
theorem bind {f : α → Parser β} {g : α → Watch β} (hp : Tracks s p w)
    (hf : ∀ a, Tracks s (f a) (g a)) : Tracks s (Parser.bind p f) (Watch.bind w g) := by
  intro pos hpos
  -- the second parser starts where the first stopped, with the events of the first before its own
  obtain ⟨hrun, hfits, hinside⟩ := hp pos hpos
  unfold Parser.bind Watch.bind
  generalize w s pos = seen at hrun hfits hinside
  obtain ⟨r, events⟩ := seen
  cases hfits with
  | unfinished => exact ⟨fun earlier => by simp [hrun, Return.reply], .unfinished, hinside⟩
  | refused => exact ⟨fun earlier => by simp [hrun, Return.reply], .refused, hinside⟩
  | @accepted a rest hle hend =>
    obtain ⟨hrun', hfits', hinside'⟩ := hf a rest hend
    dsimp only at hrun hinside ⊢
    generalize g a s rest = seen' at hrun' hfits' hinside'
    obtain ⟨r', more⟩ := seen'
    have hall := inside_append hinside hinside'
    cases hfits' with
    | unfinished =>
      exact ⟨fun earlier => by simp [hrun, hrun', Return.reply], .unfinished, hall⟩
    | refused => exact ⟨fun earlier => by simp [hrun, hrun', Return.reply], .refused, hall⟩
    | accepted hle' hend' =>
      exact ⟨fun earlier => by simp [hrun, hrun', Return.reply],
        .accepted (Nat.le_trans hle hle') hend', hall⟩

theorem map (f : α → β) (hp : Tracks s p w) : Tracks s (f <$> p) (Watch.map f w) := by
  intro pos hpos
  obtain ⟨hrun, hfits, hinside⟩ := hp pos hpos
  show Shows s pos (Parser.bind p fun a => Parser.constant (f a)) _
  unfold Parser.bind Watch.map
  generalize w s pos = seen at hrun hfits hinside
  obtain ⟨r, events⟩ := seen
  cases hfits with
  | unfinished => exact ⟨fun earlier => by simp [hrun, Return.reply], .unfinished, hinside⟩
  | refused => exact ⟨fun earlier => by simp [hrun, Return.reply], .refused, hinside⟩
  | accepted hle hend =>
    exact ⟨fun earlier => by simp [hrun, Parser.constant, Return.reply], .accepted hle hend,
      hinside⟩

/-- A choice is tracked: its second alternative goes on from the first one's refusals. -/
theorem orElse (hp : Tracks s p w) (hq : Tracks s q v) :
    Tracks s (Parser.firstOf [p, q]) (Watch.orElse w v) := by
  intro pos hpos
  obtain ⟨hrun, hfits, hinside⟩ := hp pos hpos
  unfold Watch.orElse
  simp only [Parser.firstOf]
  generalize w s pos = seen at hrun hfits hinside
  obtain ⟨r, events⟩ := seen
  cases hfits with
  | unfinished => exact ⟨fun earlier => by simp [hrun, Return.reply], .unfinished, hinside⟩
  | accepted hle hend =>
    exact ⟨fun earlier => by simp [hrun, Return.reply], .accepted hle hend, hinside⟩
  | refused =>
    -- the second alternative starts where the first did
    obtain ⟨hrun', hfits', hinside'⟩ := hq pos hpos
    dsimp only at hrun hinside ⊢
    generalize v s pos = seen' at hrun' hfits' hinside'
    obtain ⟨r', more⟩ := seen'
    have hall := inside_append hinside hinside'
    cases hfits' with
    | unfinished =>
      exact ⟨fun earlier => by simp [hrun, hrun', Return.reply], .unfinished, hall⟩
    | refused => exact ⟨fun earlier => by simp [hrun, hrun', Return.reply], .refused, hall⟩
    | accepted hle hend =>
      exact ⟨fun earlier => by simp [hrun, hrun', Return.reply], .accepted hle hend, hall⟩

/-- Every round but the last goes forward, so as many rounds as there are positions are enough. -/
theorem rounds (hp : Tracks s p w) (count pos : Nat) (hpos : pos ≤ s.items.size)
    (hcount : s.items.size < pos + count) :
    Shows s pos (Parser.manyUpTo p count) (Watch.rounds w s count pos) := by
  induction count generalizing pos with
  | zero => omega
  | succ count ih =>
    -- a round goes forward, so one round less is enough for the positions that are left
    obtain ⟨hrun, hfits, hinside⟩ := hp pos hpos
    unfold Watch.rounds
    generalize w s pos = seen at hrun hfits hinside
    obtain ⟨r, events⟩ := seen
    cases hfits with
    | unfinished =>
      exact ⟨fun earlier => by simp [Parser.manyUpTo, hrun, Return.reply], .unfinished, hinside⟩
    | refused =>
      exact ⟨fun earlier => by simp [Parser.manyUpTo, hrun, Return.reply],
        .accepted (Nat.le_refl pos) hpos, hinside⟩
    | @accepted a rest hle hend =>
      by_cases hidle : rest = pos
      · dsimp only
        rw [if_pos hidle]
        exact ⟨fun earlier => by simp [Parser.manyUpTo, hrun, Return.reply, hidle],
          .accepted (Nat.le_refl pos) hpos, hinside⟩
      · obtain ⟨hrun', hfits', hinside'⟩ := ih rest hend (by omega)
        dsimp only at hrun hinside ⊢
        rw [if_neg hidle]
        have hrefused := Watch.rounds_ne_refused w s count rest
        generalize Watch.rounds w s count rest = seen' at hrun' hfits' hinside' hrefused
        obtain ⟨r', more⟩ := seen'
        have hall := inside_append hinside hinside'
        cases hfits' with
        | unfinished =>
          exact ⟨fun earlier => by simp [Parser.manyUpTo, hrun, hrun', Return.reply, hidle],
            .unfinished, hall⟩
        | refused => exact absurd rfl (hrefused rest)
        | accepted hle' hend' =>
          exact ⟨fun earlier => by simp [Parser.manyUpTo, hrun, hrun', Return.reply, hidle],
            .accepted (Nat.le_trans hle hle') hend', hall⟩

/-- A repetition is tracked, by induction on its rounds. -/
theorem many (hp : Tracks s p w) : Tracks s (Parser.many p) (Watch.many w) := by
  intro pos hpos
  obtain ⟨hrun, hfits, hinside⟩ := hp.rounds (s.items.size + 1) pos hpos (by omega)
  exact ⟨hrun, hfits, hinside⟩

/-- Whatever is built from parsers that are tracked is tracked. -/
theorem combinator {ι : Type} {τ : ι → Type} {parsers : (i : ι) → Parser (τ i)}
    {watches : (i : ι) → Watch (τ i)} (hs : s.SingleEnd)
    (hrules : ∀ i, Tracks s (parsers i) (watches i)) (c : Combinator ι τ α) :
    Tracks s (c.parser parsers) (c.watch watches) := by
  -- one lemma for each way to build a combinator
  induction c with
  | constant a => exact .constant a
  | refuse what => exact .refuse what
  | terminal wanted => exact .terminal hs wanted
  | bind c f hc hf => exact .bind hc hf
  | map f c hc => exact .map f hc
  | nothing => exact .nothing
  | orElse c others hc hothers => exact .orElse hc hothers
  | many c hc => exact .many hc
  | rule i => exact hrules i

/-- So are rules, by induction on their unfoldings. -/
theorem rule {ι : Type} {τ : ι → Type} (hs : s.SingleEnd) (rules : RuleTable ι τ) (n : Nat)
    (i : ι) : Tracks s (rules.unfold n i) (rules.watch n i) := by
  induction n generalizing i with
  | zero => exact .unfinished
  | succ n ih =>
    unfold RuleTable.unfold RuleTable.watch
    split
    · exact .combinator hs ih _
    · exact .refuse _

end Tracks

/-! ## §5 More unfoldings -/

/-- Where the first run ends, the second does the same. -/
def Watch.Below {α : Type} (w v : Watch α) : Prop :=
  ∀ s pos, (w s pos).1 ≠ .unfinished → v s pos = w s pos

namespace Watch.Below

variable {α β : Type} {w v w' v' : Watch α}

theorem refl (w : Watch α) : w.Below w := fun _ _ _ => rfl

/-- A sequence stays below, when its parts do. -/
theorem bind {f g : α → Watch β} (hw : w.Below v) (hf : ∀ a, (f a).Below (g a)) :
    (Watch.bind w f).Below (Watch.bind v g) := by
  intro s pos h
  -- if the first watch ends it is the same, and then the second is
  have hfirst := hw s pos
  unfold Watch.bind at h ⊢
  generalize w s pos = seen at h hfirst
  obtain ⟨r, events⟩ := seen
  cases r with
  | unfinished => exact absurd rfl h
  | refused last => rw [hfirst (by simp)]
  | accepted a rest =>
    rw [hfirst (by simp)]
    have hsecond := hf a s rest
    dsimp only at h ⊢
    generalize f a s rest = seen' at h hsecond
    obtain ⟨r', more⟩ := seen'
    cases r' with
    | unfinished => exact absurd rfl h
    | refused last => rw [hsecond (by simp)]
    | accepted b last => rw [hsecond (by simp)]

theorem map (f : α → β) (hw : w.Below v) : (Watch.map f w).Below (Watch.map f v) := by
  intro s pos h
  have hfirst := hw s pos
  unfold Watch.map at h ⊢
  generalize w s pos = seen at h hfirst
  obtain ⟨r, events⟩ := seen
  cases r with
  | unfinished => exact absurd rfl h
  | refused last => rw [hfirst (by simp)]
  | accepted a rest => rw [hfirst (by simp)]

/-- A choice stays below, when its alternatives do. -/
theorem orElse (hw : w.Below v) (hw' : w'.Below v') :
    (Watch.orElse w w').Below (Watch.orElse v v') := by
  intro s pos h
  have hfirst := hw s pos
  unfold Watch.orElse at h ⊢
  generalize w s pos = seen at h hfirst
  obtain ⟨r, events⟩ := seen
  cases r with
  | unfinished => exact absurd rfl h
  | accepted a rest => rw [hfirst (by simp)]
  | refused last =>
    rw [hfirst (by simp)]
    have hsecond := hw' s pos
    dsimp only at h ⊢
    generalize w' s pos = seen' at h hsecond
    obtain ⟨r', more⟩ := seen'
    cases r' with
    | unfinished => exact absurd rfl h
    | refused last => rw [hsecond (by simp)]
    | accepted b last => rw [hsecond (by simp)]

/-- Rounds give the same again, where they are finished. -/
theorem rounds (hw : w.Below v) (s : Stream) (count pos : Nat)
    (h : (Watch.rounds w s count pos).1 ≠ .unfinished) :
    Watch.rounds v s count pos = Watch.rounds w s count pos := by
  induction count generalizing pos with
  | zero => rfl
  | succ count ih =>
    -- the rounds agree as long as each of them ends
    have hfirst := hw s pos
    unfold Watch.rounds at h ⊢
    generalize w s pos = seen at h hfirst
    obtain ⟨r, events⟩ := seen
    cases r with
    | unfinished => exact absurd rfl h
    | refused last => rw [hfirst (by simp)]
    | accepted a rest =>
      rw [hfirst (by simp)]
      dsimp only at h ⊢
      by_cases hidle : rest = pos
      · rw [if_pos hidle, if_pos hidle]
      · rw [if_neg hidle] at h
        have hrest := ih rest
        rw [if_neg hidle, if_neg hidle]
        generalize Watch.rounds w s count rest = seen' at h hrest
        obtain ⟨r', more⟩ := seen'
        cases r' with
        | unfinished => exact absurd rfl h
        | refused last => rw [hrest (by simp)]
        | accepted b last => rw [hrest (by simp)]

theorem many (hw : w.Below v) : (Watch.many w).Below (Watch.many v) :=
  fun s pos h => hw.rounds s (s.items.size + 1) pos h

/-- Combinators stay below, when the rules that they call do. -/
theorem combinator {ι : Type} {τ : ι → Type} {ws vs : (i : ι) → Watch (τ i)}
    (hrules : ∀ i, (ws i).Below (vs i)) (c : Combinator ι τ α) :
    (c.watch ws).Below (c.watch vs) := by
  induction c with
  | constant a => exact .refl _
  | refuse what => exact .refl _
  | terminal wanted => exact .refl _
  | bind c f hc hf => exact .bind hc hf
  | map f c hc => exact .map f hc
  | nothing => exact .refl _
  | orElse c others hc hothers => exact .orElse hc hothers
  | many c hc => exact .many hc
  | rule i => exact hrules i

/-- Rules with more unfoldings do the same where fewer were enough. -/
theorem rule {ι : Type} {τ : ι → Type} (rules : RuleTable ι τ) {n m : Nat} (h : n ≤ m) (i : ι) :
    (rules.watch n i).Below (rules.watch m i) := by
  induction n generalizing m i with
  | zero => exact fun s pos hends => absurd rfl hends
  | succ n ih =>
    obtain ⟨m, rfl⟩ := Nat.exists_eq_add_of_le' (Nat.one_le_of_lt h)
    unfold RuleTable.watch
    split
    · exact .combinator (fun i => ih (Nat.le_of_succ_le_succ h) i) _
    · exact .refl _

end Watch.Below

/-! ## §6 The contract -/

/-- The trace is where the furthest of the refusals was, with what was expected there. -/
structure Trace.Reports (t : Trace) (rs : List (Nat × Text)) : Prop where
  furthest_le : ∀ r ∈ rs, r.1 ≤ t.furthest
  furthest_mem : rs = [] ∧ t.furthest = 0 ∨ ∃ what, (t.furthest, what) ∈ rs
  distinct : t.expected.Nodup
  /-- In order of the first refusal. -/
  expected : t.expected = ((rs.filter fun r => r.1 == t.furthest).map Prod.snd).eraseDups

/-- The trace of events reports what they refused. -/
theorem Trace.reports_of (events : List Event) : (Trace.of events).Reports (refusals events) := by
  refine ⟨fun r hr => le_furthestOf hr, ?_, nodup_eraseDups _, rfl⟩
  by_cases hnone : refusals events = []
  · refine .inl ⟨hnone, ?_⟩
    rw [Trace.of, hnone]
    rfl
  · exact .inr (furthestOf_mem hnone)

/-- **The contract of the combinators.** Whatever a combinator is built from, wherever it starts and
whatever happened before: its parser does what the watched run shows. When it fails, the source is
given back as it came; when it succeeds, it has not gone back, nor past the end; all looks at
terminals are at positions of the source. The trace reports the furthest refusal of the whole run
with what was expected there. A run that ends does the same with more unfoldings of the rules. -/
theorem combinator_contract {ι : Type} {τ : ι → Type} {α : Type} (rules : RuleTable ι τ)
    (c : Combinator ι τ α) (s : Stream) (hs : s.SingleEnd) (start : Nat)
    (hstart : start ≤ s.items.size) (earlier : List Event) (n : Nat) :
    let seen := c.watch (rules.watch n) s start
    let outcome := c.parser (rules.unfold n) s start (.of earlier)
    outcome.1 = seen.1.reply ∧
      (∀ pos, seen.1 = .refused pos → pos = start) ∧
      (∀ a pos, seen.1 = .accepted a pos → start ≤ pos ∧ pos ≤ s.items.size) ∧
      (∀ e ∈ seen.2, e.pos ≤ s.items.size) ∧
      outcome.2.Reports (refusals (earlier ++ seen.2)) ∧
      (seen.1 ≠ .unfinished → ∀ m, n ≤ m → c.watch (rules.watch m) s start = seen) := by
  intro seen outcome
  obtain ⟨hrun, hfits, hinside⟩ := Tracks.combinator hs (Tracks.rule hs rules n) c start hstart
  have houtcome : outcome = (seen.1.reply, .of (earlier ++ seen.2)) := hrun earlier
  -- refusals come back to the start, acceptance goes forward within the source
  refine ⟨by rw [houtcome], fun pos hpos => ?_, fun a pos hpos => ?_, hinside, ?_, ?_⟩
  · have hrefused : Return.Fits s start (.refused pos : Return α) := hpos ▸ hfits
    cases hrefused
    rfl
  · have haccepted : Return.Fits s start (.accepted a pos) := hpos ▸ hfits
    cases haccepted with
    | accepted hle hend => exact ⟨hle, hend⟩
  · rw [houtcome]
    exact Trace.reports_of _
  · intro hends m hm
    exact Watch.Below.combinator (fun i => Watch.Below.rule rules hm i) c s start hends

/-- Names with commas between them, by a rule that comes back to itself, in front of a semicolon. -/
theorem combinator_contract_names :
    let names : Combinator Unit (fun _ => List Text) (List Text) :=
      .bind (.terminal .ident) fun first =>
        .map (first.text :: ·) (.optional (.both (.terminal (.punct ",")) (.rule ())) [])
    let rules : RuleTable Unit fun _ => List Text := ⟨fun _ => "names", fun _ => some names⟩
    let s : Stream :=
      ⟨#[⟨.ident, "a", ⟨0, 1, 1⟩⟩, ⟨.punct, ",", ⟨1, 1, 2⟩⟩, ⟨.ident, "b", ⟨2, 1, 3⟩⟩,
        ⟨.punct, ";", ⟨3, 1, 4⟩⟩], ⟨4, 1, 5⟩⟩
    let seen := names.watch (rules.watch 1) s 0
    let outcome := names.parser (rules.unfold 1) s 0 (.of [])
    s.SingleEnd ∧ 0 ≤ s.items.size ∧ outcome.2 = ⟨3, [Text.ofString "','"]⟩ ∧
      outcome.1 = seen.1.reply ∧
      (∀ pos, seen.1 = .refused pos → pos = 0) ∧
      (∀ a pos, seen.1 = .accepted a pos → 0 ≤ pos ∧ pos ≤ s.items.size) ∧
      (∀ e ∈ seen.2, e.pos ≤ s.items.size) ∧
      outcome.2.Reports (refusals ([] ++ seen.2)) ∧
      (seen.1 ≠ .unfinished → ∀ m, 1 ≤ m → names.watch (rules.watch m) s 0 = seen) := by
  intro names rules s seen outcome
  have hs : s.SingleEnd := by unfold Stream.SingleEnd; decide
  have hstart : 0 ≤ s.items.size := Nat.zero_le _
  have htrace : outcome.2 = ⟨3, [Text.ofString "','"]⟩ := by decide +kernel
  exact ⟨hs, hstart, htrace, combinator_contract rules names s hs 0 hstart [] 1⟩

end Scriptlet
