import Scriptlet.Proofs.Chunks
import Scriptlet.Proofs.Moves

/-!
# The shell returns to the start of a line

A program may leave the output in the middle of a line: a check writes a single mark, and the
program may fail right behind it. The sink remembers whether the last text it took left its line
open, which is told by the texts alone, however many there were. The shell asks it after every
program and ends an open line, and all that it writes itself are whole lines. So between two lines
of its input it is at the start of a line of output.

What clears the screen is written past this memory and ends no line. It is no text that is shown:
what counts is what was written behind it.

## Contents

- §1 texts that end their line
- §2 what a sink takes
- §3 what evaluations write
- §4 what the shell writes
- §5 sessions
-/

namespace Scriptlet

/-! ## §1 Texts that end their line -/

/-- Behind the text is the start of a line, if there was one in front of it. -/
def Text.EndsLine (t : Text) : Prop := t = [] ∨ t.getLast? = some newline

namespace Text.EndsLine

variable {t u : Text}

theorem nil : EndsLine [] := .inl rfl

theorem line (t : Text) : t.line.EndsLine := .inr List.getLast?_concat

/-- Texts that end their lines do so one behind the other. -/
theorem append (ht : t.EndsLine) (hu : u.EndsLine) : (t ++ u).EndsLine := by
  obtain rfl | hu := hu
  · rwa [List.append_nil]
  · exact .inr (by rw [List.getLast?_append, hu, Option.some_or])

end Text.EndsLine

/-! ## §2 What a sink takes -/

namespace Sink

/-- The sink has taken the text, in one write or several or none. It stands behind all that was
written before, and the line is open as its last byte says. -/
structure Took (o o' : Sink) (t : Text) : Prop where
  contents : o'.contents = o.contents ++ t
  limit : o'.limit = o.limit
  lineOpen : o'.lineOpen = t.getLast?.elim o.lineOpen (· != Text.newline)

variable {o o' o'' : Sink} {t u : Text}

theorem Took.refl (o : Sink) : o.Took o [] := ⟨(List.append_nil _).symm, rfl, rfl⟩

/-- What is taken at each of two times is taken over both. -/
theorem Took.trans (h : o.Took o' t) (h' : o'.Took o'' u) : o.Took o'' (t ++ u) where
  contents := by rw [h'.contents, h.contents, List.append_assoc]
  limit := h'.limit.trans h.limit
  lineOpen := by
    rw [h'.lineOpen, h.lineOpen, List.getLast?_append]
    cases u.getLast? <;> rfl

/-- A write that succeeds is taken whole. -/
theorem took_write (h : o.write t = .ok o') : o.Took o' t :=
  ⟨contents_write h, limit_write h, lineOpen_write h⟩

/-- Without a limit, all that is offered is taken. -/
theorem took_offer (hlimit : o.limit = none) (t : Text) : o.Took (o.offer t) t :=
  took_write (write_of_unlimited hlimit t)

/-- Once the line has been finished, all that was taken ends its line. -/
theorem Took.finishLine (h : o.Took o' t) (hlimit : o.limit = none) :
    ∃ u, o.Took o'.finishLine u ∧ u.EndsLine := by
  unfold Sink.finishLine
  split
  next => exact ⟨_, h.trans (took_offer (h.limit.trans hlimit) _), .line t⟩
  next hclosed =>
    -- nothing is added, and the flag speaks for the last byte
    refine ⟨t, h, ?_⟩
    rw [h.lineOpen] at hclosed
    cases hlast : t.getLast? with
    | none => exact .inl (List.getLast?_eq_none_iff.mp hlast)
    | some b =>
      rw [hlast] at hclosed
      exact .inr (hlast.trans (congrArg some (by simpa using hclosed)))

/-- The sink has taken some text. -/
def Grows (o o' : Sink) : Prop := ∃ t, o.Took o' t

theorem Grows.refl (o : Sink) : o.Grows o := ⟨[], .refl o⟩

/-- Growth is passed on. -/
theorem Grows.trans (h : o.Grows o') (h' : o'.Grows o'') : o.Grows o'' := by
  obtain ⟨t, ht⟩ := h
  obtain ⟨u, hu⟩ := h'
  exact ⟨t ++ u, ht.trans hu⟩

/-- A step's writes let the output grow. -/
theorem Takes.grows (h : o.Takes o') : o.Grows o' := by
  cases h with
  | nothing => exact .refl o
  | write t h => exact ⟨t, took_write h⟩

end Sink

/-! ## §3 What evaluations write -/

/-- Along a run, output is never taken back. -/
theorem Config.Reaches.grows {below : List Frame} {c c' : Config} (h : c.Reaches below c') :
    c.session.out.Grows c'.session.out := by
  induction h with
  | refl => exact .refl _
  | tail _ hgo ih => exact ih.trans (takes_of_step hgo.2).grows

/-- The output of a run that ends is what was there, and more. -/
theorem Config.grows_of_run {steps : Nat} {c : Config} {o : Outcome} {s : Session}
    (h : c.run steps = some (o, s)) : c.session.out.Grows s.out := by
  obtain ⟨control, -, hreaches, -⟩ := exists_reaches_of_run h
  exact hreaches.grows

/-- However a program ends, the sink has taken what it wrote. -/
theorem Session.grows_of_run {steps : Nat} {p : Program} {s s' : Session} {o : Outcome}
    (h : s.run steps p = some (o, s')) : s.out.Grows s'.out := by
  refine runStatements_induct (R := fun s s' => s.out.Grows s'.out) (s := { s with entry := none })
    (fun s => .refl s.out) (fun h h' => h.trans h') Config.grows_of_run ?_ h
  -- the host calls the entry point, which writes nothing by itself
  intro _ f loc s _ _ hrun
  exact (Config.comes_enter [] f [] loc).takes.grows.trans (Config.grows_of_run hrun)

/-! ## §4 What the shell writes -/

namespace Shell

/-- What was written from one shell to the next ends its line, if the output never fails. -/
def WritesLines (s s' : Shell) : Prop :=
  s.session.out.limit = none → ∃ t, s.session.out.Took s'.session.out t ∧ t.EndsLine

variable {s s' s'' : Shell}

theorem WritesLines.refl (s : Shell) : s.WritesLines s := fun _ => ⟨[], .refl _, .nil⟩

/-- Lines that are written at each of two times are written over both. -/
theorem WritesLines.trans (h : s.WritesLines s') (h' : s'.WritesLines s'') :
    s.WritesLines s'' := by
  intro hlimit
  obtain ⟨t, htook, ht⟩ := h hlimit
  obtain ⟨u, hutook, hu⟩ := h' (htook.limit.trans hlimit)
  exact ⟨t ++ u, htook.trans hutook, ht.append hu⟩

/-- What is said is a line. -/
theorem writesLines_say (s : Shell) (t : Text) : s.WritesLines (s.say t) :=
  fun hlimit => ⟨t.line, Sink.took_offer hlimit _, .line t⟩

/-- Errors go elsewhere. -/
theorem writesLines_complain (s : Shell) (kind message : Text) :
    s.WritesLines (s.complain kind message) :=
  fun _ => ⟨[], .refl _, .nil⟩

/-- An outcome is shown in a line, or not at all. -/
theorem writesLines_conclude (s : Shell) (o : Outcome) : s.WritesLines (s.conclude o) := by
  cases o with
  | failed e => exact writesLines_complain s _ _
  | value v | left v =>
    cases v with
    | nil => exact .refl s
    | _ => exact writesLines_say s _

/-- A program may stop in the middle of a line, but what follows begins a new one. -/
theorem writesLines_evaluate (s : Shell) (p : Program) : s.WritesLines (s.evaluate p) := by
  unfold evaluate
  split
  next => exact .refl s
  next o session hrun =>
    obtain ⟨t, ht⟩ := Session.grows_of_run hrun
    have hfinish : s.WritesLines { s with session := { session with out := session.out.finishLine } } :=
      fun hlimit => ht.finishLine hlimit
    exact hfinish.trans (writesLines_conclude _ o)

/-- Whatever is said for each member of a list, is said in lines. -/
theorem writesLines_foldl_say {α : Type} (shown : α → Text) (xs : List α) (s : Shell) :
    s.WritesLines (xs.foldl (fun s x => s.say (shown x)) s) := by
  induction xs generalizing s with
  | nil => exact .refl s
  | cons x xs ih => exact (writesLines_say s _).trans (ih _)

/-- A program is answered in lines, in every mode. -/
theorem writesLines_takeProgram (s : Shell) (p : Program) : s.WritesLines (s.takeProgram p) := by
  have hlog : s.WritesLines (s.log ⟨.debug, "parsed input",
      [("strategy", .strategy s.strategy), ("statements", .count p.stmts.length)]⟩) :=
    fun _ => ⟨[], .refl _, .nil⟩
  refine hlog.trans ?_
  simp only [takeProgram]
  split
  · exact writesLines_foldl_say Node.sexpr p.stmts _
  · exact writesLines_evaluate _ p

/-- An error is refused in lines. -/
theorem writesLines_refuse (s : Shell) (e : SourceError) (atEnd : Bool) :
    s.WritesLines (s.refuse e atEnd).1 := by
  unfold refuse
  split
  · exact .refl s
  · exact writesLines_complain s _ _

/-- **One chunk.** Whatever a chunk is, a program, a forest or neither, taking it leaves the output
at the start of a line. -/
theorem writesLines_take (s : Shell) (chunk : Text) (atEnd : Bool) :
    s.WritesLines (s.take chunk atEnd).1 := by
  -- a blank chunk writes nothing, a refused one an error, any other what it yields
  unfold take
  split
  · exact .refl s
  split
  · split
    · exact writesLines_refuse s _ atEnd
    · exact writesLines_say s _
  · split
    · exact writesLines_refuse s _ atEnd
    · exact writesLines_takeProgram s _

/-! ## §5 Sessions -/

/-- The line clears the screen. -/
def clears (s : Shell) (line : Text) : Bool := s.pending.isEmpty && line.trim == "clear"

/-- A line that clears leaves the shell as it began. -/
theorem feed_of_clears {line : Text} (h : s.clears line = true) (atEnd : Bool) :
    s.feed line atEnd = (s.clear, atEnd) := by
  obtain ⟨hpending, htrim⟩ : s.pending.isEmpty = true ∧ (line.trim == "clear") = true := by
    simpa [clears] using h
  have hexit : (line.trim == "exit") = false := by rw [eq_of_beq htrim]; decide
  simp only [feed, hpending, htrim, hexit, Bool.and_true, Bool.and_false, if_true, if_false,
    Bool.false_eq_true]

/-- A line that does not clear the screen leaves the output at the start of a line. -/
theorem writesLines_feed {line : Text} (h : s.clears line = false) (atEnd : Bool) :
    s.WritesLines (s.feed line atEnd).1 := by
  have htake := writesLines_take s (s.pending ++ line) atEnd
  rw [clears] at h
  rw [feed]
  split
  · exact .refl s
  · rw [if_neg (Bool.eq_false_iff.mp h)]
    dsimp only
    -- the chunk is kept or dropped, which writes nothing
    split
    next hresult =>
      rw [hresult] at htake
      exact htake
    next hresult =>
      rw [hresult] at htake
      exact htake

/-- What a shell can become when it takes lines, with what had been written when it took the first
of them or, if it has been cleared since, when the screen was cleared last. -/
inductive Stage (first : Shell) : Shell → Text → Prop where
  | start : Stage first first first.session.out.contents
  | cleared {s : Shell} {base : Text} (h : Stage first s base) (line : Text) (atEnd : Bool)
      (hline : s.clears line = true) :
      Stage first (s.feed line atEnd).1 (s.feed line atEnd).1.session.out.contents
  | taken {s : Shell} {base : Text} (h : Stage first s base) (line : Text) (atEnd : Bool)
      (hline : s.clears line = false) : Stage first (s.feed line atEnd).1 base

variable {first : Shell} {base : Text}

/-- **One line** after the other: the text shown so far is made longer by texts that end their
line, or begins anew. -/
theorem Stage.shows (h : Stage first s base) (hlimit : first.session.out.limit = none) :
    s.session.out.limit = none ∧ ∃ shown, s.session.out.contents = base ++ shown ∧ shown.EndsLine := by
  induction h with
  | start => exact ⟨hlimit, [], (List.append_nil _).symm, .nil⟩
  | cleared _ line atEnd hline ih =>
    rw [feed_of_clears hline]
    exact ⟨(Sink.limit_steer _ _).trans ih.1, [], (List.append_nil _).symm, .nil⟩
  | taken _ line atEnd hline ih =>
    -- behind a line end the text may go on with whole lines
    obtain ⟨hlimit, shown, hshown, hends⟩ := ih
    obtain ⟨t, htook, ht⟩ := writesLines_feed hline atEnd hlimit
    refine ⟨htook.limit.trans hlimit, shown ++ t, ?_, hends.append ht⟩
    rw [htook.contents, hshown, List.append_assoc]

/-- A line that is fed goes to the next stage, or starts one. -/
theorem Stage.exists_feed (h : Stage first s base) (line : Text) (atEnd : Bool) :
    ∃ base, Stage first (s.feed line atEnd).1 base := by
  cases hline : s.clears line with
  | true => exact ⟨_, .cleared h line atEnd hline⟩
  | false => exact ⟨base, .taken h line atEnd hline⟩

/-- So do the lines of an input, one by one. -/
theorem Stage.exists_feedAll (h : Stage first s base) (ls : List Text) :
    ∃ base, Stage first (s.feedAll ls).1 base := by
  induction ls generalizing s base with
  | nil => exact ⟨base, h⟩
  | cons line ls ih =>
    obtain ⟨base', h'⟩ := h.exists_feed line false
    rw [feedAll]
    -- an `exit` ends the session there, any other line goes on
    split
    next hresult =>
      rw [hresult] at h'
      exact ⟨base', h'⟩
    next hresult =>
      rw [hresult] at h'
      exact ih h'

/-- Every run ends in a stage that some clearing began, or the start. -/
theorem exists_stage_run (first : Shell) (input : Input) :
    ∃ base, Stage first (first.run input).1 base := by
  obtain ⟨base, h⟩ := (Stage.start : Stage first _ _).exists_feedAll input.text.lines.1
  rw [run]
  generalize input.text.lines = textLines at h ⊢
  obtain ⟨lines, tail⟩ := textLines
  dsimp only at h ⊢
  -- the last line is fed only if no `exit` has ended the session
  split
  next s hresult => exact ⟨base, by rwa [hresult] at h⟩
  next s hresult =>
    rw [hresult] at h
    split
    · exact ⟨base, h⟩
    · exact h.exists_feed _ true

/-- **Back at the start of a line.** If its output never fails, a shell in any mode has, after every
line it has taken, shown nothing or a text that ends with a line end, since it was started or since
its screen was cleared last. Every session gets from one such shell to the next, and ends with one. -/
theorem returns_to_line_start (mode : Mode) (strategy : Strategy) (logger : Log.Logger) (out : Sink)
    (hlimit : out.limit = none) :
    let first := Shell.start mode strategy logger out
    (∀ s base, Stage first s base →
      ∃ shown, s.session.out.contents = base ++ shown ∧
        (shown = [] ∨ shown.getLast? = some Text.newline)) ∧
    (∀ ls, ∃ base, Stage first (first.feedAll ls).1 base) ∧
    ∀ input, ∃ base, Stage first (first.run input).1 base := by
  intro first
  exact ⟨fun s base h => (h.shows hlimit).2, (Stage.start : Stage first _ _).exists_feedAll,
    exists_stage_run first⟩

/-- Marks of checks on an open line, a cleared screen, and a program that fails behind a mark. -/
theorem returns_to_line_start_marks :
    ∃ s, Sink.unlimited.limit = none ∧
      Stage (.start .eval .combinator .silent .unlimited) s (".F\n" ++ clearing) ∧
      s.session.out.contents = ".F\n" ++ clearing ++ "a\n.\n" ∧
      ∃ shown, s.session.out.contents = ".F\n" ++ clearing ++ shown ∧
        (shown = [] ∨ shown.getLast? = some Text.newline) := by
  have hstart : Stage (.start .eval .combinator .silent .unlimited) _ _ := .start
  have hmarked := hstart.taken "assert(true); assert(false);\n" false (by decide +kernel)
  have hcleared := hmarked.cleared "clear\n" false (by decide +kernel)
  have hfailed := hcleared.taken "print('a'); assert(true); z;\n" true (by decide +kernel)
  rw [show Sink.contents _ = ".F\n" ++ clearing by decide +kernel] at hfailed
  exact ⟨_, rfl, hfailed, by decide +kernel,
    (returns_to_line_start .eval .combinator .silent .unlimited rfl).1 _ _ hfailed⟩

end Shell

end Scriptlet
