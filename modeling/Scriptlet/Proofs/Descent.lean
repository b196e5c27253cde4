import Scriptlet.Proofs.Combinators

/-!
# The descent of parsers, step by step

Parsers call one another, and a rule may be called again before its first call is over. The
*machine* of this module makes the calls in progress visible: its stack holds what waits for the
parser that is running, the rules with the positions where they were called. A step runs a
combinator as far as its first part, or hands an outcome to what waits for it. Nothing bounds the
number of steps, or the height of the stack.

A combinator is *guarded* if it can be told from its parts that it ends: rules have ranks, a rule is
called before anything is read only by rules of higher rank, and what is repeated reads a terminal
in every round. From guarded rules the machine comes back with an outcome, on every stream. On the
way two calls of one rule are never at the same position. The parsers of the rules, with unfoldings
enough, do the same.

## Contents

- §1 the machine
- §2 what a sound state is
- §3 guarded combinators
- §4 what a run comes to
- §5 one lemma per combinator
- §6 rules
-/

namespace Scriptlet

namespace Descent

/-! ## §1 The machine -/

variable {ι : Type} {τ : ι → Type} {α β γ : Type}

/-- What waits for the outcome of a parser of one type, to give back an outcome of another. -/
inductive Frame (ι : Type) (τ : ι → Type) : Type → Type → Type 1 where
  /-- What comes second is determined by the value. -/
  | bind {α β : Type} (f : α → Combinator ι τ β) : Frame ι τ α β
  | map {α β : Type} (f : α → β) : Frame ι τ α β
  /-- Other alternatives, from the position where the first one started. -/
  | orElse {α : Type} (others : Combinator ι τ α) (pos : Nat) : Frame ι τ α α
  /-- A repetition in the round that started at the position; values found before, newest first. -/
  | round {α : Type} (c : Combinator ι τ α) (found : List α) (pos : Nat) : Frame ι τ α (List α)
  /-- A rule that was called at the position. -/
  | rule (i : ι) (pos : Nat) : Frame ι τ (τ i) (τ i)

/-- Frames, innermost first. -/
inductive Stack (ι : Type) (τ : ι → Type) : Type → Type → Type 1 where
  | nil {α : Type} : Stack ι τ α α
  | cons {α β γ : Type} (f : Frame ι τ α β) (below : Stack ι τ β γ) : Stack ι τ α γ

/-- A value with the position behind what was read, or nothing if the parser failed. -/
abbrev Outcome (α : Type) : Type := Option (α × Nat)

/-- The reply of a parser with the outcome. -/
def Outcome.reply : Outcome α → Reply α
  | some (a, pos) => .done a pos
  | none => .failed

/-- What is going on. -/
inductive Control (ι : Type) (τ : ι → Type) (γ : Type) : Type 1 where
  | run {α : Type} (c : Combinator ι τ α) (pos : Nat) (stack : Stack ι τ α γ)
  | back {α : Type} (r : Outcome α) (stack : Stack ι τ α γ)

/-- A state of the machine; the trace is shared by all that runs. -/
structure State (ι : Type) (τ : ι → Type) (γ : Type) : Type 1 where
  control : Control ι τ γ
  trace : Trace

/-- Runs a combinator from a position as far as its first part. -/
def enter (rules : RuleTable ι τ) (s : Stream) (t : Trace) :
    {α : Type} → Combinator ι τ α → Nat → Stack ι τ α γ → State ι τ γ
  | _, .constant a, pos, k => ⟨.back (some (a, pos)) k, t⟩
  | _, .refuse what, pos, k => ⟨.back none k, t.note pos what⟩
  | _, .terminal w, pos, k =>
    if w.accepts (s.peek pos) then ⟨.back (some (s.peek pos, Watch.advance s pos)) k, t⟩
    else ⟨.back none k, t.note pos w.shown⟩
  | _, .bind c f, pos, k => ⟨.run c pos (.cons (.bind f) k), t⟩
  | _, .map f c, pos, k => ⟨.run c pos (.cons (.map f) k), t⟩
  | _, .nothing, _, k => ⟨.back none k, t⟩
  | _, .orElse c others, pos, k => ⟨.run c pos (.cons (.orElse others pos) k), t⟩
  | _, .many c, pos, k => ⟨.run c pos (.cons (.round c [] pos) k), t⟩
  | _, .rule i, pos, k =>
    match rules.body i with
    | some c => ⟨.run c pos (.cons (.rule i pos) k), t⟩
    | none => ⟨.back none k, t.note pos (rules.name i ++ " (undefined rule)")⟩

/-- Hands an outcome to a frame. -/
def resume (t : Trace) : {α β : Type} → Frame ι τ α β → Outcome α → Stack ι τ β γ → State ι τ γ
  | _, _, .bind f, some (a, pos), k => ⟨.run (f a) pos k, t⟩
  | _, _, .bind _, none, k => ⟨.back none k, t⟩
  | _, _, .map f, some (a, pos), k => ⟨.back (some (f a, pos)) k, t⟩
  | _, _, .map _, none, k => ⟨.back none k, t⟩
  | _, _, .orElse _ _, some r, k => ⟨.back (some r) k, t⟩
  | _, _, .orElse others pos, none, k => ⟨.run others pos k, t⟩
  | _, _, .round c found pos, some (a, rest), k =>
    -- a round that read nothing is the last, and its value is dropped
    if rest = pos then ⟨.back (some (found.reverse, pos)) k, t⟩
    else ⟨.run c rest (.cons (.round c (a :: found) rest) k), t⟩
  | _, _, .round _ found pos, none, k => ⟨.back (some (found.reverse, pos)) k, t⟩
  | _, _, .rule _ _, r, k => ⟨.back r k, t⟩

/-- A step. With an outcome that nothing waits for the machine stands still. -/
def step (rules : RuleTable ι τ) (s : Stream) : State ι τ γ → Option (State ι τ γ)
  | ⟨.run c pos k, t⟩ => some (enter rules s t c pos k)
  | ⟨.back r (.cons f k), t⟩ => some (resume t f r k)
  | ⟨.back _ .nil, _⟩ => none

/-- The state after a number of steps, if the machine takes as many. -/
def after (rules : RuleTable ι τ) (s : Stream) : Nat → State ι τ γ → Option (State ι τ γ)
  | 0, x => some x
  | n + 1, x => (step rules s x).bind (after rules s n)

/-! ## §2 What a sound state is -/

/-- The calls of rules on a stack with their positions, innermost first. -/
def Stack.calls : {α : Type} → Stack ι τ α γ → List (ι × Nat)
  | _, .nil => []
  | _, .cons (.rule i pos) k => (i, pos) :: k.calls
  | _, .cons _ k => k.calls

/-- The calls of rules in progress. -/
def State.calls (x : State ι τ γ) : List (ι × Nat) :=
  match x.control with
  | .run _ _ k | .back _ k => k.calls

/-- Between two calls of one rule something was read. -/
def Apart (inner outer : ι × Nat) : Prop := inner.1 = outer.1 → outer.2 < inner.2

/-- If a round of a repetition comes back with a value, it has read something. -/
def Control.Gains : Control ι τ γ → Prop
  | .back (some (_, rest)) (.cons (.round _ _ pos) _) => pos < rest
  | _ => True

/-- Calls of one rule are apart, and rounds of repetitions read something. -/
structure State.Sound (x : State ι τ γ) : Prop where
  apart : x.calls.Pairwise Apart
  gains : x.control.Gains

variable {rules : RuleTable ι τ} {s : Stream} {x y z : State ι τ γ}

/-- Steps from one state to another through sound states, the last one apart. -/
inductive Leads (rules : RuleTable ι τ) (s : Stream) : State ι τ γ → State ι τ γ → Prop where
  | refl (x : State ι τ γ) : Leads rules s x x
  | head {x y z : State ι τ γ} (hx : x.Sound) (hstep : step rules s x = some y)
      (h : Leads rules s y z) : Leads rules s x z

namespace Leads

theorem trans (h : Leads rules s x y) (h' : Leads rules s y z) : Leads rules s x z := by
  induction h with
  | refl => exact h'
  | head hx hstep _ ih => exact .head hx hstep (ih h')

theorem exists_after (h : Leads rules s x y) : ∃ n, after rules s n x = some y := by
  induction h with
  | refl x => exact ⟨0, rfl⟩
  | head _ hstep _ ih =>
    obtain ⟨n, hn⟩ := ih
    refine ⟨n + 1, ?_⟩
    rw [after, hstep]
    exact hn

/-- The machine has no choice, so whatever it comes to is on the way to where it stands still. -/
theorem sound (h : Leads rules s x z) (hz : z.Sound) (hstands : step rules s z = none) {n : Nat}
    (hy : after rules s n x = some y) : y.Sound := by
  -- along the way to `z`, one of the `n` steps after the other
  induction h generalizing n with
  | refl =>
    cases n with
    | zero =>
      obtain rfl := Option.some.inj hy
      exact hz
    | succ n =>
      rw [after, hstands] at hy
      cases hy
  | head hx hstep _ ih =>
    cases n with
    | zero =>
      obtain rfl := Option.some.inj hy
      exact hx
    | succ n =>
      rw [after, hstep] at hy
      exact ih hz hstands hy

end Leads

/-! ## §3 Guarded combinators -/

/-- Before it has read a terminal the combinator calls only rules up to the rank `k`, and everything
that is repeated reads. If it *reads*, it has a value only after reading a terminal. -/
inductive Guarded (rank : ι → Nat) (top : Nat) :
    Nat → (reads : Bool) → {α : Type} → Combinator ι τ α → Prop where
  | constant {k : Nat} {α : Type} (a : α) : Guarded rank top k false (.constant a)
  | refuse {k : Nat} {reads : Bool} {α : Type} (what : Text) :
      Guarded rank top k reads (.refuse what : Combinator ι τ α)
  | terminal {k : Nat} {w : Wanted} (hw : ∀ x, w.accepts x = true → x.kind ≠ .ending) :
      Guarded rank top k true (.terminal w)
  /-- The end of the source is not read. -/
  | ending {k : Nat} : Guarded rank top k false (.terminal .ending)
  | bind {k : Nat} {reads : Bool} {α β : Type} {c : Combinator ι τ α} {f : α → Combinator ι τ β}
      (hc : Guarded rank top k false c) (hf : ∀ a, Guarded rank top k reads (f a)) :
      Guarded rank top k reads (.bind c f)
  /-- Behind what reads, all rules may be called. -/
  | behind {k : Nat} {α β : Type} {c : Combinator ι τ α} {f : α → Combinator ι τ β}
      (hc : Guarded rank top k true c) (hf : ∀ a, Guarded rank top top false (f a)) :
      Guarded rank top k true (.bind c f)
  | map {k : Nat} {reads : Bool} {α β : Type} {c : Combinator ι τ α} (f : α → β)
      (hc : Guarded rank top k reads c) : Guarded rank top k reads (.map f c)
  | nothing {k : Nat} {reads : Bool} {α : Type} :
      Guarded rank top k reads (.nothing : Combinator ι τ α)
  | orElse {k : Nat} {reads : Bool} {α : Type} {c others : Combinator ι τ α}
      (hc : Guarded rank top k reads c) (hothers : Guarded rank top k reads others) :
      Guarded rank top k reads (.orElse c others)
  | many {k : Nat} {α : Type} {c : Combinator ι τ α} (hc : Guarded rank top k true c) :
      Guarded rank top k false (.many c)
  | rule {k : Nat} {i : ι} (hi : rank i ≤ k) : Guarded rank top k true (.rule i)
  | weaken {k : Nat} {α : Type} {c : Combinator ι τ α} (hc : Guarded rank top k true c) :
      Guarded rank top k false c

/-- Every rule reads, and calls only rules of lower rank before it does. -/
structure Ranked (rules : RuleTable ι τ) (rank : ι → Nat) (top : Nat) : Prop where
  rank_pos : ∀ i, 0 < rank i
  guarded : ∀ i c, rules.body i = some c → ∃ k < rank i, Guarded rank top k true c

/-- More rules may be called. -/
theorem Guarded.mono {rank : ι → Nat} {top k k' : Nat} {reads : Bool} {c : Combinator ι τ α}
    (h : Guarded rank top k reads c) (hk : k ≤ k') : Guarded rank top k' reads c := by
  -- only at a rule is the bound looked at
  induction h with
  | constant a => exact .constant a
  | refuse what => exact .refuse what
  | terminal hw => exact .terminal hw
  | ending => exact .ending
  | bind _ _ hc hf => exact .bind (hc hk) fun a => hf a hk
  | behind _ hf hc => exact .behind (hc hk) hf
  | map f _ hc => exact .map f (hc hk)
  | nothing => exact .nothing
  | orElse _ _ hc hothers => exact .orElse (hc hk) (hothers hk)
  | many _ hc => exact .many (hc hk)
  | rule hi => exact .rule (Nat.le_trans hi hk)
  | weaken _ hc => exact .weaken (hc hk)

/-! ## §4 What a run comes to -/

/-- A value is not found before the position, nor behind the end, and further on if something is
read. -/
inductive Outcome.Fits (s : Stream) (pos : Nat) (reads : Bool) : Outcome α → Prop where
  | value {a : α} {fin : Nat} (hle : pos ≤ fin) (hend : fin ≤ s.items.size)
      (hreads : reads = true → pos < fin) : Fits s pos reads (some (a, fin))
  | failed : Fits s pos reads none

/-- Calls that may be in progress where a combinator runs from the position: they are apart, and
those at the position itself are of rules above the rank `k`. -/
structure Admits (rank : ι → Nat) (k pos : Nat) (calls : List (ι × Nat)) : Prop where
  apart : calls.Pairwise Apart
  pos_le : ∀ call ∈ calls, call.2 ≤ pos
  lt_rank : ∀ call ∈ calls, call.2 = pos → k < rank call.1

namespace Admits

variable {rank : ι → Nat} {k k' pos mid : Nat} {calls : List (ι × Nat)} {i : ι}

theorem nil (rank : ι → Nat) (k pos : Nat) : Admits rank k pos [] :=
  ⟨.nil, by simp, by simp⟩

theorem onward (h : Admits rank k pos calls) (hle : pos ≤ mid) : Admits rank k mid calls := by
  refine ⟨h.apart, fun call hcall => Nat.le_trans (h.pos_le call hcall) hle, ?_⟩
  intro call hcall hmid
  have := h.pos_le call hcall
  exact h.lt_rank call hcall (by omega)

/-- Once something has been read any rule may be called. -/
theorem later (h : Admits rank k pos calls) (hlt : pos < mid) : Admits rank k' mid calls := by
  refine ⟨h.apart, fun call hcall => Nat.le_of_lt (Nat.lt_of_le_of_lt (h.pos_le call hcall) hlt), ?_⟩
  intro call hcall hmid
  have := h.pos_le call hcall
  omega

/-- A rule that is called at a position is not in progress there. -/
theorem push (h : Admits rank k pos calls) (hi : rank i ≤ k) (hk : k' < rank i) :
    Admits rank k' pos ((i, pos) :: calls) := by
  -- an earlier call of the rule was at a position before this one
  refine ⟨List.pairwise_cons.mpr ⟨fun call hcall hsame => ?_, h.apart⟩, ?_, ?_⟩
  · refine Nat.lt_of_le_of_ne (h.pos_le call hcall) fun hpos => ?_
    have hrank := h.lt_rank call hcall hpos
    simp only at hsame
    rw [← hsame] at hrank
    omega
  · exact List.forall_mem_cons.mpr ⟨Nat.le_refl pos, h.pos_le⟩
  · refine List.forall_mem_cons.mpr ⟨fun _ => hk, fun call hcall hpos => ?_⟩
    have := h.lt_rank call hcall hpos
    omega

end Admits

/-- **What a run comes to.** Whatever waits for the combinator and whatever happened before, the
machine comes back from the position with an outcome, through sound states; and so does the parser,
with the rules unfolded `n` times. -/
def ComesBack (rules : RuleTable ι τ) (rank : ι → Nat) (s : Stream) (n k : Nat) (reads : Bool)
    (c : Combinator ι τ α) (pos : Nat) : Prop :=
  ∀ ⦃γ : Type⦄ (stack : Stack ι τ α γ) (t : Trace), Admits rank k pos stack.calls →
    ∃ (r : Outcome α) (t' : Trace),
      Leads rules s ⟨.run c pos stack, t⟩ ⟨.back r stack, t'⟩ ∧ r.Fits s pos reads ∧
        (s.SingleEnd → c.parser (rules.unfold n) s pos t = (r.reply, t'))

/-! ## §5 One lemma per combinator -/

namespace ComesBack

variable {rank : ι → Nat} {n k k' pos top : Nat} {reads reads' : Bool} {c others : Combinator ι τ α}
  {stack : Stack ι τ α γ} {t t' : Trace}

theorem sound_run (h : Admits rank k pos stack.calls) :
    (⟨.run c pos stack, t⟩ : State ι τ γ).Sound :=
  ⟨h.apart, trivial⟩

/-- What the first step decides. -/
theorem at_once {r : Outcome α}
    (hstep : ∀ (γ : Type) (stack : Stack ι τ α γ),
      enter rules s t c pos stack = ⟨.back r stack, t'⟩)
    (hadmits : Admits rank k pos stack.calls) :
    Leads rules s ⟨.run c pos stack, t⟩ ⟨.back r stack, t'⟩ :=
  .head (sound_run hadmits) (congrArg some (hstep γ stack)) (.refl _)

theorem constant (a : α) (hpos : pos ≤ s.items.size) :
    ComesBack rules rank s n k false (.constant a) pos := fun _ _ t hadmits =>
  ⟨some (a, pos), t, at_once (fun _ _ => rfl) hadmits, .value (Nat.le_refl pos) hpos nofun,
    fun _ => rfl⟩

theorem refuse (what : Text) :
    ComesBack rules rank s n k reads (.refuse what : Combinator ι τ α) pos := fun _ _ t hadmits =>
  ⟨none, t.note pos what, at_once (fun _ _ => rfl) hadmits, .failed, fun _ => rfl⟩

theorem nothing : ComesBack rules rank s n k reads (.nothing : Combinator ι τ α) pos :=
  fun _ _ t hadmits => ⟨none, t, at_once (fun _ _ => rfl) hadmits, .failed, fun _ => rfl⟩

/-- A terminal that is not the end is read, and the end is not passed. -/
theorem advance_fits (hpos : pos ≤ s.items.size) :
    pos ≤ Watch.advance s pos ∧ Watch.advance s pos ≤ s.items.size ∧
      ((s.peek pos).kind ≠ .ending → pos < Watch.advance s pos) := by
  unfold Watch.advance
  split
  next hend => exact ⟨Nat.le_refl pos, hpos, fun hne => absurd (beq_iff_eq.mp hend) hne⟩
  next hne =>
    have hlt : pos < s.items.size := by
      refine Nat.lt_of_not_le fun hle => hne ?_
      simp [Stream.peek, hle]
    exact ⟨Nat.le_succ pos, hlt, fun _ => Nat.lt_succ_self pos⟩

theorem terminal {w : Wanted} (hpos : pos ≤ s.items.size)
    (hw : reads = true → ∀ x, w.accepts x = true → x.kind ≠ .ending) :
    ComesBack rules rank s n k reads (.terminal w) pos := by
  intro γ stack t hadmits
  obtain ⟨hle, hend, hmoves⟩ := advance_fits hpos
  have hparser : (Combinator.terminal w : Combinator ι τ Terminal).parser (rules.unfold n)
      = Parser.satisfy w.accepts w.shown := w.parser_eq
  -- a terminal is a single move, and it goes forward unless it is the end
  cases haccepts : w.accepts (s.peek pos) with
  | true =>
    refine ⟨some (s.peek pos, Watch.advance s pos), t, at_once (fun _ _ => ?_) hadmits,
      .value hle hend fun hreads => hmoves (hw hreads _ haccepts), fun hs => ?_⟩
    · simp [enter, haccepts]
    · simp [hparser, Parser.satisfy, haccepts, Outcome.reply, hs.advance_eq]
  | false =>
    refine ⟨none, t.note pos w.shown, at_once (fun _ _ => ?_) hadmits, .failed, fun _ => ?_⟩
    · simp [enter, haccepts]
    · simp [hparser, Parser.satisfy, haccepts, Outcome.reply]

/-- What comes second starts where the first has got to, with the calls that it may find there. -/
theorem bind {f : α → Combinator ι τ β} (hc : ComesBack rules rank s n k reads c pos)
    (hcalls : ∀ calls mid, Admits rank k pos calls → pos ≤ mid → (reads = true → pos < mid) →
      Admits rank k' mid calls)
    (hf : ∀ a mid, pos ≤ mid → mid ≤ s.items.size → (reads = true → pos < mid) →
      ComesBack rules rank s n k' reads' (f a) mid) :
    ComesBack rules rank s n k (reads || reads') (.bind c f) pos := by
  intro γ stack t hadmits
  obtain ⟨r, t₁, hfirst, hfits, hparser⟩ := hc (.cons (.bind f) stack) t hadmits
  have hstart : Leads rules s ⟨.run (.bind c f) pos stack, t⟩ ⟨.back r (.cons (.bind f) stack), t₁⟩ :=
    .head (sound_run hadmits) rfl hfirst
  cases hfits with
  | failed =>
    refine ⟨none, t₁, hstart.trans (.head ⟨hadmits.apart, trivial⟩ rfl (.refl _)), .failed,
      fun hs => ?_⟩
    simp [Combinator.parser, Parser.bind, hparser hs, Outcome.reply]
  | @value a mid hle hend hreads =>
    obtain ⟨r', t₂, hsecond, hfits', hparser'⟩ :=
      hf a mid hle hend hreads stack t₁ (hcalls _ mid hadmits hle hreads)
    refine ⟨r', t₂, hstart.trans (.head ⟨hadmits.apart, trivial⟩ rfl hsecond), ?_, fun hs => ?_⟩
    · cases hfits' with
      | failed => exact .failed
      | value hle' hend' hreads' =>
        refine .value (Nat.le_trans hle hle') hend' fun hor => ?_
        -- one of the two has read something
        rcases (Bool.or_eq_true _ _).mp hor with h | h
        · exact Nat.lt_of_lt_of_le (hreads h) hle'
        · exact Nat.lt_of_le_of_lt hle (hreads' h)
    · simp [Combinator.parser, Parser.bind, hparser hs, hparser' hs, Outcome.reply]

theorem map (f : α → β) (hc : ComesBack rules rank s n k reads c pos) :
    ComesBack rules rank s n k reads (.map f c) pos := by
  intro γ stack t hadmits
  obtain ⟨r, t₁, hrun, hfits, hparser⟩ := hc (.cons (.map f) stack) t hadmits
  have hstart : Leads rules s ⟨.run (.map f c) pos stack, t⟩ ⟨.back r (.cons (.map f) stack), t₁⟩ :=
    .head (sound_run hadmits) rfl hrun
  have hbind : (Combinator.map f c).parser (rules.unfold n)
      = Parser.bind (c.parser (rules.unfold n)) fun a => Parser.constant (f a) := rfl
  -- the part comes back to a stack that waits for its value
  cases hfits with
  | failed =>
    refine ⟨none, t₁, hstart.trans (.head ⟨hadmits.apart, trivial⟩ rfl (.refl _)), .failed,
      fun hs => ?_⟩
    simp [hbind, Parser.bind, hparser hs, Outcome.reply]
  | @value a fin hle hend hreads =>
    refine ⟨some (f a, fin), t₁, hstart.trans (.head ⟨hadmits.apart, trivial⟩ rfl (.refl _)),
      .value hle hend hreads, fun hs => ?_⟩
    simp [hbind, Parser.bind, Parser.constant, hparser hs, Outcome.reply]

/-- The other alternatives start where the first one did. -/
theorem orElse (hc : ComesBack rules rank s n k reads c pos)
    (hothers : ComesBack rules rank s n k reads others pos) :
    ComesBack rules rank s n k reads (.orElse c others) pos := by
  intro γ stack t hadmits
  obtain ⟨r, t₁, hfirst, hfits, hparser⟩ := hc (.cons (.orElse others pos) stack) t hadmits
  have hstart : Leads rules s ⟨.run (.orElse c others) pos stack, t⟩
      ⟨.back r (.cons (.orElse others pos) stack), t₁⟩ := .head (sound_run hadmits) rfl hfirst
  -- a failure falls through to the other alternatives, a value passes them by
  cases hfits with
  | failed =>
    obtain ⟨r', t₂, hsecond, hfits', hparser'⟩ := hothers stack t₁ hadmits
    refine ⟨r', t₂, hstart.trans (.head ⟨hadmits.apart, trivial⟩ rfl hsecond), hfits',
      fun hs => ?_⟩
    cases r' <;>
      simp [Combinator.parser, Parser.firstOf, hparser hs, hparser' hs, Outcome.reply]
  | @value a fin hle hend hreads =>
    refine ⟨some (a, fin), t₁, hstart.trans (.head ⟨hadmits.apart, trivial⟩ rfl (.refl _)),
      .value hle hend hreads, fun hs => ?_⟩
    simp [Combinator.parser, Parser.firstOf, hparser hs, Outcome.reply]

/-- From a round on, a repetition goes round until a round fails, each further on. -/
theorem rounds (hc : ∀ mid, pos ≤ mid → mid ≤ s.items.size → ComesBack rules rank s n k true c mid)
    (count : Nat) {mid : Nat} (hmid : pos ≤ mid) (hend : mid ≤ s.items.size)
    (hcount : s.items.size < mid + count) (found : List α) {stack : Stack ι τ (List α) γ}
    (t : Trace) (hadmits : Admits rank k mid stack.calls) :
    ∃ (as : List α) (fin : Nat) (t' : Trace),
      Leads rules s ⟨.run c mid (.cons (.round c found mid) stack), t⟩
        ⟨.back (some (found.reverse ++ as, fin)) stack, t'⟩ ∧
      mid ≤ fin ∧ fin ≤ s.items.size ∧
      (s.SingleEnd → Parser.manyUpTo (c.parser (rules.unfold n)) count s mid t
        = (.done as fin, t')) := by
  -- every round reads a terminal, so the rounds that are left get behind the end
  induction count generalizing mid found t with
  | zero => omega
  | succ count ih =>
    obtain ⟨r, t₁, hround, hfits, hparser⟩ :=
      hc mid hmid hend (.cons (.round c found mid) stack) t hadmits
    cases hfits with
    | failed =>
      refine ⟨[], mid, t₁, ?_, Nat.le_refl mid, hend, fun hs => ?_⟩
      · rw [List.append_nil]
        exact hround.trans (.head ⟨hadmits.apart, trivial⟩ rfl (.refl _))
      · simp [Parser.manyUpTo, hparser hs, Outcome.reply]
    | @value a rest hle hrest hreads =>
      have hlt : mid < rest := hreads rfl
      have hne : rest ≠ mid := Nat.ne_of_gt hlt
      obtain ⟨as, fin, t₂, hmore, hle', hend', hparser'⟩ :=
        ih (Nat.le_trans hmid hle) hrest (by omega) (a :: found) t₁ (hadmits.onward hle)
      refine ⟨a :: as, fin, t₂, ?_, Nat.le_trans hle hle', hend', fun hs => ?_⟩
      · have hstep : step rules s ⟨.back (some (a, rest)) (.cons (.round c found mid) stack), t₁⟩
            = some ⟨.run c rest (.cons (.round c (a :: found) rest) stack), t₁⟩ := by
          simp [step, resume, hne]
        rw [List.reverse_cons, List.append_assoc] at hmore
        exact hround.trans (.head ⟨hadmits.apart, hlt⟩ hstep hmore)
      · simp [Parser.manyUpTo, hparser hs, hparser' hs, Outcome.reply, hne]

theorem many (hpos : pos ≤ s.items.size)
    (hc : ∀ mid, pos ≤ mid → mid ≤ s.items.size → ComesBack rules rank s n k true c mid) :
    ComesBack rules rank s n k false (.many c) pos := by
  intro γ stack t hadmits
  obtain ⟨as, fin, t', hrounds, hle, hend, hparser⟩ := rounds hc (s.items.size + 1)
    (Nat.le_refl pos) hpos (by omega) [] t hadmits
  exact ⟨some (as, fin), t', .head (sound_run hadmits) rfl hrounds, .value hle hend nofun, hparser⟩

theorem weaken (hc : ComesBack rules rank s n k true c pos) :
    ComesBack rules rank s n k false c pos := by
  intro γ stack t hadmits
  obtain ⟨r, t', hrun, hfits, hparser⟩ := hc stack t hadmits
  refine ⟨r, t', hrun, ?_, hparser⟩
  cases hfits with
  | failed => exact .failed
  | value hle hend _ => exact .value hle hend nofun

end ComesBack

/-! ## §6 Rules -/

variable {rank : ι → Nat} {top n k pos : Nat} {reads : Bool} {c : Combinator ι τ α}

/-- The further on, the fewer unfoldings are needed. -/
theorem cost_le (top size : Nat) {mid : Nat} (hle : pos ≤ mid) :
    top * (size - mid) ≤ top * (size - pos) :=
  Nat.mul_le_mul_left top (Nat.sub_le_sub_left hle size)

/-- A terminal that was read pays for any rule behind it. -/
theorem cost_add_le (top : Nat) {size mid : Nat} (hlt : pos < mid) (hmid : mid ≤ size) :
    top * (size - mid) + top ≤ top * (size - pos) := by
  rw [← Nat.mul_succ]
  exact Nat.mul_le_mul_left top (by omega)

/-- Guarded combinators come back if the rules do. -/
theorem comesBack_of_guarded
    (hrules : ∀ i pos k, pos ≤ s.items.size → rank i ≤ k →
      top * (s.items.size - pos) + rank i ≤ n → ComesBack rules rank s n k true (.rule i) pos)
    (hc : Guarded rank top k reads c) (hpos : pos ≤ s.items.size)
    (hn : top * (s.items.size - pos) + k ≤ n) : ComesBack rules rank s n k reads c pos := by
  induction hc generalizing pos with
  | constant a => exact .constant a hpos
  | refuse what => exact .refuse what
  | terminal hw => exact .terminal hpos fun _ => hw
  | ending => exact .terminal hpos fun hreads => nomatch hreads
  | @bind k reads α β c f _ _ hc hf =>
    have hsecond : ∀ a mid, pos ≤ mid → mid ≤ s.items.size → (false = true → pos < mid) →
        ComesBack rules rank s n k reads (f a) mid := fun a mid hle hend _ => by
      -- perhaps nothing was read, so what is left for the first part must do for the second
      have := cost_le top s.items.size hle
      exact hf a hend (by omega)
    exact ComesBack.bind (hc hpos hn) (fun _ _ h hle _ => h.onward hle) hsecond
  | @behind k α β c f _ _ hc hf =>
    have hsecond : ∀ a mid, pos ≤ mid → mid ≤ s.items.size → (true = true → pos < mid) →
        ComesBack rules rank s n top false (f a) mid := fun a mid _ hend hreads => by
      -- all rules may be called again, but a terminal was read
      have := cost_add_le top (hreads rfl) hend
      exact hf a hend (by omega)
    exact ComesBack.bind (hc hpos hn) (fun _ _ h _ hreads => h.later (hreads rfl)) hsecond
  | map f _ hc => exact .map f (hc hpos hn)
  | nothing => exact .nothing
  | orElse _ _ hc hothers => exact .orElse (hc hpos hn) (hothers hpos hn)
  | many _ hc =>
    refine .many hpos fun mid hle hend => ?_
    have := cost_le top s.items.size hle
    exact hc hend (by omega)
  | rule hi => exact hrules _ pos _ hpos hi (by omega)
  | weaken _ hc => exact (hc hpos hn).weaken

/-- So rules do, by induction on their unfoldings. -/
theorem comesBack_rule (hranked : Ranked rules rank top) (n : Nat) (i : ι) (pos k : Nat)
    (hpos : pos ≤ s.items.size) (hi : rank i ≤ k)
    (hn : top * (s.items.size - pos) + rank i ≤ n) :
    ComesBack rules rank s n k true (.rule i) pos := by
  induction n generalizing i pos k with
  | zero =>
    have := hranked.rank_pos i
    omega
  | succ n ih =>
    -- the body calls lower rules before it reads, which one unfolding less is enough for
    intro γ stack t hadmits
    have hparser : (Combinator.rule i).parser (rules.unfold (n + 1)) = rules.unfold (n + 1) i := rfl
    rw [hparser]
    unfold RuleTable.unfold
    cases hbody : rules.body i with
    | none =>
      refine ⟨none, _, ComesBack.at_once (fun _ _ => ?_) hadmits, .failed, fun _ => rfl⟩
      simp only [enter, hbody]
    | some c =>
      obtain ⟨k', hk', hc⟩ := hranked.guarded i c hbody
      have hcomes := comesBack_of_guarded ih hc hpos (by omega)
      obtain ⟨r, t', hrun, hfits, hbodyParser⟩ :=
        hcomes (.cons (.rule i pos) stack) t (hadmits.push hi hk')
      have hstep : step rules s ⟨.run (.rule i) pos stack, t⟩
          = some ⟨.run c pos (.cons (.rule i pos) stack), t⟩ := by
        simp only [step, enter, hbody]
      refine ⟨r, t', ?_, hfits, hbodyParser⟩
      refine (Leads.head (ComesBack.sound_run hadmits) hstep hrun).trans (.head ⟨?_, ?_⟩ rfl (.refl _))
      · exact (hadmits.push hi hk').apart
      · cases r <;> exact trivial

/-- **The machine ends.** From a guarded combinator the machine comes to a stand, at an outcome that
nothing waits for, and all states it comes to are sound. The outcome is that of the parser. -/
theorem exists_outcome (hranked : Ranked rules rank top) (hc : Guarded rank top top reads c)
    (hn : top * (s.items.size + 1) ≤ n) (t : Trace) :
    ∃ (steps : Nat) (r : Outcome α) (t' : Trace),
      after rules s steps ⟨.run c 0 .nil, t⟩ = some ⟨.back r .nil, t'⟩ ∧
      (∀ steps x, after rules s steps ⟨.run c 0 .nil, t⟩ = some x → x.Sound) ∧
      (s.SingleEnd → c.parser (rules.unfold n) s 0 t = (r.reply, t')) := by
  have hbudget : top * (s.items.size - 0) + top ≤ n := by
    rw [Nat.sub_zero, ← Nat.mul_succ]
    exact hn
  -- enough unfoldings for every rank at every position
  obtain ⟨r, t', hleads, -, hparser⟩ := comesBack_of_guarded (comesBack_rule hranked n) hc
    (Nat.zero_le _) hbudget .nil t (.nil rank top 0)
  have hsound : (⟨.back r .nil, t'⟩ : State ι τ α).Sound := by
    refine ⟨List.Pairwise.nil, ?_⟩
    cases r <;> exact trivial
  obtain ⟨steps, hsteps⟩ := hleads.exists_after
  exact ⟨steps, r, t', hsteps, fun _ x hx => hleads.sound hsound rfl hx, hparser⟩

end Descent

end Scriptlet
