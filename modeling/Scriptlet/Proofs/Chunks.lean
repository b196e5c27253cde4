import Scriptlet.Shell

/-!
# The shell takes every line once, in shortest complete chunks

Seen from outside, a session of the shell is a division of its input lines into *pieces*: the
commands `exit` and `clear`, and chunks. A chunk is the shortest run of lines that does not wait for
more, or all that is left of the input. `Divides` says which divisions are meant, without a word
about how the shell goes about it, and there is exactly one for any input. The shell does what the
pieces say, one after the other.

While the shell reads it holds the lines of an unfinished chunk as one pending text. The text is
never empty then, because blank chunks do not wait, so the shell knows from the text alone whether
a line may be a command.

## Contents

- §1 pieces of the input
- §2 dividing line by line
- §3 what taking a chunk leaves alone
- §4 steps and runs of the shell
-/

namespace Scriptlet

/-! ## §1 Pieces of the input -/

/-- What follows the last line end is a line if it is not empty. -/
def lastLine (tail : Text) : List Text := if tail.isEmpty then [] else [tail]

/-- The lines of an input. -/
def Input.lines (i : Input) : List Text := i.text.lines.1 ++ lastLine i.text.lines.2

/-- A stretch of input lines that the shell deals with at once. -/
inductive Piece where
  | exit (line : Text)
  | clear (line : Text)
  | chunk (lines : List Text)
  deriving DecidableEq, Repr

namespace Piece

/-- The lines of a piece. -/
def lines : Piece → List Text
  | .exit line | .clear line => [line]
  | .chunk ls => ls

/-- The piece ends the session. -/
def isExit : Piece → Bool
  | .exit _ => true
  | _ => false

end Piece

/-- The line is a command where no chunk is pending. -/
def isCommand (line : Text) : Bool := line.trim == "exit" || line.trim == "clear"

/-- Reading the text fails, and more input could complete it. -/
def isUnfinished (mode : Mode) (strategy : Strategy) (chunk : Text) : Bool :=
  match mode with
  | .tree =>
    match readForest chunk with
    | .error e => e.isIncomplete
    | .ok _ => false
  | _ =>
    match readProgram strategy chunk with
    | .error e => e.isIncomplete
    | .ok _ => false

/-- A chunk that needs more lines: it is not blank, and what it lacks could still come. -/
def waits (mode : Mode) (strategy : Strategy) (chunk : Text) : Bool :=
  !chunk.isBlank && isUnfinished mode strategy chunk

/-- The lines up to the first `exit` are divided into the pieces. -/
inductive Divides (mode : Mode) (strategy : Strategy) : List Text → List Piece → Prop where
  | nil : Divides mode strategy [] []
  /-- What follows the command is not read. -/
  | exit (line : Text) (rest : List Text) (h : line.trim = "exit") :
      Divides mode strategy (line :: rest) [.exit line]
  | clear (line : Text) (rest : List Text) (ps : List Piece) (h : line.trim = "clear")
      (hrest : Divides mode strategy rest ps) :
      Divides mode strategy (line :: rest) (.clear line :: ps)
  /-- All shorter runs of lines wait, and the chunk does not, unless the input ends there. -/
  | chunk (ls rest : List Text) (ps : List Piece) (hne : ls ≠ [])
      (hfirst : ∀ line ∈ ls.head?, isCommand line = false)
      (hshorter : ∀ run : List Text, run ≠ [] → run <+: ls → run ≠ ls →
        waits mode strategy run.flatten = true)
      (hends : waits mode strategy ls.flatten = false ∨ rest = [])
      (hrest : Divides mode strategy rest ps) : Divides mode strategy (ls ++ rest) (.chunk ls :: ps)

/-! ## §2 Dividing line by line -/

/-- The pieces of lines, where the lines `held` are those of an unfinished chunk. -/
def linePieces (mode : Mode) (strategy : Strategy) (held : List Text) : List Text → List Piece
  | [] => if held.isEmpty then [] else [.chunk held]
  | line :: rest =>
    if held.isEmpty && line.trim == "exit" then [.exit line]
    else if held.isEmpty && line.trim == "clear" then
      .clear line :: linePieces mode strategy [] rest
    else if waits mode strategy (held ++ [line]).flatten then
      linePieces mode strategy (held ++ [line]) rest
    else .chunk (held ++ [line]) :: linePieces mode strategy [] rest

variable {mode : Mode} {strategy : Strategy} {held ls : List Text} {ps qs : List Piece}

/-- Lines that may be held: every run of them from the first on waits. -/
structure Holds (mode : Mode) (strategy : Strategy) (held : List Text) : Prop where
  noCommand : ∀ line ∈ held.head?, isCommand line = false
  waiting : ∀ run : List Text, run ≠ [] → run <+: held → waits mode strategy run.flatten = true

theorem Holds.nil : Holds mode strategy [] :=
  ⟨by simp, fun run hne hrun => absurd (List.prefix_nil.mp hrun) hne⟩

/-- Held lines and one more begin with no command, unless that line is one. -/
theorem Holds.first_snoc {line : Text} (h : Holds mode strategy held)
    (hline : held = [] → isCommand line = false) :
    ∀ first ∈ (held ++ [line]).head?, isCommand first = false := by
  intro first hfirst
  cases held with
  | nil =>
    obtain rfl : line = first := by simpa using hfirst
    exact hline rfl
  | cons x held => exact h.noCommand first (by simpa using hfirst)

/-- A line may be added if what is held then waits. -/
theorem Holds.snoc {line : Text} (h : Holds mode strategy held)
    (hline : held = [] → isCommand line = false)
    (hwaits : waits mode strategy (held ++ [line]).flatten = true) :
    Holds mode strategy (held ++ [line]) := by
  refine ⟨h.first_snoc hline, fun run hne hrun => ?_⟩
  rcases List.prefix_concat_iff.mp hrun with rfl | hrun
  · exact hwaits
  · exact h.waiting run hne hrun

/-- Dividing line by line finds a division. -/
theorem divides_linePieces (h : Holds mode strategy held) :
    Divides mode strategy (held ++ ls) (linePieces mode strategy held ls) := by
  induction ls generalizing held with
  | nil =>
    rw [linePieces]
    split
    · next hnil =>
      obtain rfl := List.isEmpty_iff.mp hnil
      exact .nil
    · next hne =>
      have hwaiting : ∀ run : List Text, run ≠ [] → run <+: held → run ≠ held →
          waits mode strategy run.flatten = true := fun run hrun hpre _ => h.waiting run hrun hpre
      exact .chunk held [] [] (by simpa using hne) h.noCommand hwaiting (.inr rfl) .nil
  | cons line rest ih =>
    rw [linePieces]
    split
    · next hexit =>
      simp only [Bool.and_eq_true, List.isEmpty_iff, beq_iff_eq] at hexit
      obtain ⟨rfl, hexit⟩ := hexit
      exact .exit line rest hexit
    · next hexit =>
      split
      · next hclear =>
        simp only [Bool.and_eq_true, List.isEmpty_iff, beq_iff_eq] at hclear
        obtain ⟨rfl, hclear⟩ := hclear
        exact .clear line rest _ hclear (ih .nil)
      · next hclear =>
        have hline : held = [] → isCommand line = false := by
          rintro rfl
          simpa [isCommand] using And.intro hexit hclear
        rw [List.append_cons]
        split
        · next hwaits => exact ih (h.snoc hline hwaits)
        · next hends =>
          -- the line completes the chunk, all shorter runs of which wait
          refine .chunk _ rest _ (by simp) (h.first_snoc hline) (fun run hrun hpre hne => ?_)
            (.inl (by simpa using hends)) (ih .nil)
          rcases List.prefix_concat_iff.mp hpre with rfl | hpre
          · exact absurd rfl hne
          · exact h.waiting run hrun hpre

/-- Pieces of lines divide them, from a state where nothing is held. -/
theorem divides_linePieces_nil (mode : Mode) (strategy : Strategy) (ls : List Text) :
    Divides mode strategy ls (linePieces mode strategy [] ls) :=
  divides_linePieces .nil

/-- Of two chunks at the start of the same lines none is longer than the other. -/
theorem eq_nil_of_longer {ls more rest : List Text} (hne : ls ≠ [])
    (hends : waits mode strategy ls.flatten = false ∨ more ++ rest = [])
    (hshorter : ∀ run : List Text, run ≠ [] → run <+: ls ++ more → run ≠ ls ++ more →
      waits mode strategy run.flatten = true) : more = [] := by
  cases more with
  | nil => rfl
  | cons x more =>
    -- the first chunk stands before the longer one, so it would have to wait
    have hwaits := hshorter ls hne (List.prefix_append ls _) (by simp)
    rcases hends with hends | hnil
    · rw [hends] at hwaits
      cases hwaits
    · cases hnil

/-- A line that asks to leave is a command. -/
theorem isCommand_of_exit {line : Text} (h : line.trim = "exit") : isCommand line = true := by
  simp [isCommand, h]

/-- A line that asks to clear is a command. -/
theorem isCommand_of_clear {line : Text} (h : line.trim = "clear") : isCommand line = true := by
  simp [isCommand, h]

/-- No chunk starts with a command. -/
theorem head_ne_command {line : Text} {run rest more : List Text} (hcommand : isCommand line = true)
    (hne : run ≠ []) (hfirst : ∀ x ∈ run.head?, isCommand x = false)
    (h : run ++ rest = line :: more) : False := by
  obtain ⟨x, run, rfl⟩ := List.exists_cons_of_ne_nil hne
  obtain rfl : x = line := (List.cons.inj h).1
  rw [hfirst x rfl] at hcommand
  cases hcommand

/-- The lines determine their pieces. -/
theorem Divides.unique (h : Divides mode strategy ls ps) (h' : Divides mode strategy ls qs) :
    ps = qs := by
  induction h generalizing qs with
  | nil =>
    generalize hls : ([] : List Text) = ls at h'
    cases h' with
    | nil => rfl
    | exit | clear => cases hls
    | chunk _ _ _ hne => exact absurd (List.append_eq_nil_iff.mp hls.symm).1 hne
  | exit line rest hexit =>
    generalize hls : line :: rest = ls at h'
    cases h' with
    | nil => cases hls
    | exit =>
      cases hls
      rfl
    | clear _ _ _ hclear =>
      cases hls
      rw [hexit] at hclear
      exact absurd hclear (by decide)
    | chunk _ _ _ hne hfirst =>
      exact (head_ne_command (isCommand_of_exit hexit) hne hfirst hls.symm).elim
  | clear line rest ps hclear _ ih =>
    generalize hls : line :: rest = ls at h'
    cases h' with
    | nil => cases hls
    | exit _ _ hexit =>
      cases hls
      rw [hclear] at hexit
      exact absurd hexit (by decide)
    | clear _ _ _ _ hrest =>
      cases hls
      rw [ih hrest]
    | chunk _ _ _ hne hfirst =>
      exact (head_ne_command (isCommand_of_clear hclear) hne hfirst hls.symm).elim
  | chunk run rest ps hne hfirst hshorter hends _ ih =>
    generalize hls : run ++ rest = ls at h'
    cases h' with
    | nil => exact absurd (List.append_eq_nil_iff.mp hls).1 hne
    | exit _ _ hexit => exact (head_ne_command (isCommand_of_exit hexit) hne hfirst hls).elim
    | clear _ _ _ hclear => exact (head_ne_command (isCommand_of_clear hclear) hne hfirst hls).elim
    | chunk run' rest' _ hne' _ hshorter' hends' hrest =>
      -- one of the two chunks continues the other, by no line at all
      rcases List.append_eq_append_iff.mp hls with ⟨more, rfl, rfl⟩ | ⟨more, rfl, rfl⟩
      · obtain rfl := eq_nil_of_longer hne hends hshorter'
        rw [List.append_nil, ih hrest]
      · obtain rfl := eq_nil_of_longer hne' hends' hshorter
        rw [List.append_nil, ih hrest]

/-- The pieces have all lines, up to an `exit`. -/
theorem Divides.lines_eq (h : Divides mode strategy ls ps) :
    ∃ rest, ps.flatMap Piece.lines ++ rest = ls ∧ (rest = [] ∨ ps.getLast?.any Piece.isExit) := by
  induction h with
  | nil => exact ⟨[], rfl, .inl rfl⟩
  | exit line rest _ => exact ⟨rest, rfl, .inr rfl⟩
  | clear line rest ps _ _ ih =>
    obtain ⟨unread, rfl, hend⟩ := ih
    refine ⟨unread, rfl, hend.imp_right fun hexit => ?_⟩
    cases ps with
    | nil => cases hexit
    | cons p ps => exact hexit
  | chunk run rest ps _ _ _ _ _ ih =>
    obtain ⟨unread, rfl, hend⟩ := ih
    refine ⟨unread, by simp [Piece.lines], hend.imp_right fun hexit => ?_⟩
    -- an `exit` ends the pieces, so it is the last behind a chunk as well
    cases ps with
    | nil => cases hexit
    | cons p ps => exact hexit

/-- A text is its lines and what stands behind the last. -/
theorem Text.flatten_lines (t : Text) : t.lines.1.flatten ++ t.lines.2 = t := by
  induction t with
  | nil => rfl
  | cons b t ih =>
    -- a line end closes a line, any other byte goes to the line or tail behind it
    rw [Text.lines]
    split
    · next tail hlines =>
      rw [hlines] at ih
      split <;> simp_all
    · next l ls tail hlines =>
      rw [hlines] at ih
      split <;> simp_all

/-- The lines of an input are its text. -/
theorem Input.flatten_lines (i : Input) : i.lines.flatten = i.text := by
  have htail : (lastLine i.text.lines.2).flatten = i.text.lines.2 := by
    cases i.text.lines.2 with
    | nil => rfl
    | cons b t => simp [lastLine]
  rw [Input.lines, List.flatten_append, htail, Text.flatten_lines]

/-! ## §3 What taking a chunk leaves alone -/

namespace Shell

/-- Whatever is pending, the action changes the session and what was written only. -/
def Writes (f : Shell → Shell) : Prop :=
  ∀ s : Shell, ∃ session errors, ∀ p : Text,
    f { s with pending := p } = { s with session := session, errors := errors, pending := p }

/-- What two steps write, they write one after the other. -/
theorem Writes.comp {f g : Shell → Shell} (hf : Writes f) (hg : Writes g) :
    Writes fun s => g (f s) := by
  intro s
  obtain ⟨session, errors, hf⟩ := hf s
  obtain ⟨session', errors', hg⟩ := hg { s with session := session, errors := errors }
  exact ⟨session', errors', fun p => (congrArg g (hf p)).trans (hg p)⟩

theorem writes_id : Writes id := fun s => ⟨s.session, s.errors, fun _ => rfl⟩

theorem writes_say (t : Text) : Writes (·.say t) :=
  fun s => ⟨(s.say t).session, s.errors, fun _ => rfl⟩

theorem writes_complain (kind message : Text) : Writes (·.complain kind message) :=
  fun s => ⟨s.session, (s.complain kind message).errors, fun _ => rfl⟩

theorem writes_log (r : Log.Record) : Writes (·.log r) :=
  fun s => ⟨s.session, (s.log r).errors, fun _ => rfl⟩

/-- An outcome is only written about. -/
theorem writes_conclude (o : Outcome) : Writes (·.conclude o) := by
  cases o with
  | failed e => exact writes_complain _ _
  | value v | left v =>
    cases v with
    | nil => exact writes_id
    | _ => exact writes_say _

/-- Evaluating a program changes the session and what is written, and nothing else. -/
theorem writes_evaluate (p : Program) : Writes (·.evaluate p) := by
  intro s
  cases hrun : s.session.run stepLimit p with
  | none => exact ⟨s.session, s.errors, fun _ => by simp only [evaluate, hrun]⟩
  | some result =>
    obtain ⟨outcome, session⟩ := result
    obtain ⟨session', errors, h⟩ := writes_conclude outcome
      { s with session := { session with out := session.out.finishLine } }
    refine ⟨session', errors, fun p => ?_⟩
    simp only [evaluate, hrun]
    exact h p

/-- A fold over steps that write, writes. -/
theorem writes_foldl {α : Type} {f : Shell → α → Shell} (hf : ∀ x, Writes (f · x)) (xs : List α) :
    Writes fun s => xs.foldl f s := by
  induction xs with
  | nil => exact writes_id
  | cons x xs ih => exact (hf x).comp ih

/-- Taking a program writes, in every mode. -/
theorem writes_takeProgram (p : Program) : Writes (·.takeProgram p) := by
  rintro ⟨mode, strategy, logger, session, errors, pending⟩
  have hlog := writes_log ⟨.debug, "parsed input",
    [("strategy", .strategy strategy), ("statements", .count p.stmts.length)]⟩
  cases mode with
  | ast => exact hlog.comp (writes_foldl (fun x : Node => writes_say x.sexpr) p.stmts) _
  | eval | tree => exact hlog.comp (writes_evaluate p) _

/-- A refusal writes to the errors. -/
theorem writes_refuse (e : SourceError) (atEnd : Bool) : Writes fun s => (s.refuse e atEnd).1 := by
  intro s
  unfold refuse
  split
  · exact writes_id s
  · exact writes_complain _ _ s

/-- What the shell does about a chunk that is not blank, unless reading it fails. -/
def response (mode : Mode) (strategy : Strategy) (chunk : Text) :
    Except SourceError (Shell → Shell) :=
  match mode with
  | .tree => (readForest chunk).map fun trees s => s.say (shownForest trees)
  | _ => (readProgram strategy chunk).map fun p s => s.takeProgram p

/-- What a shell does with a chunk that is not blank: it responds, waits, or refuses at the end.
-/
theorem take_eq (s : Shell) {chunk : Text} (hblank : chunk.isBlank = false) (atEnd : Bool) :
    s.take chunk atEnd =
      match response s.mode s.strategy chunk with
      | .error e => s.refuse e atEnd
      | .ok f => (f s, false) := by
  obtain ⟨mode, strategy, logger, session, errors, pending⟩ := s
  cases mode with
  | tree => cases hread : readForest chunk <;> simp [take, response, hblank, hread, Except.map]
  | eval | ast =>
    cases hread : readProgram strategy chunk <;> simp [take, response, hblank, hread, Except.map]

/-- A blank chunk is passed over. -/
theorem take_of_isBlank (s : Shell) {chunk : Text} (hblank : chunk.isBlank = true) (atEnd : Bool) :
    s.take chunk atEnd = (s, false) := by
  simp [take, hblank]

/-- A chunk is unfinished when the response to it says that it can go on. -/
theorem isUnfinished_eq (mode : Mode) (strategy : Strategy) (chunk : Text) :
    isUnfinished mode strategy chunk =
      match response mode strategy chunk with
      | .error e => e.isIncomplete
      | .ok _ => false := by
  cases mode with
  | tree => cases hread : readForest chunk <;> simp [isUnfinished, response, hread, Except.map]
  | eval | ast =>
    cases hread : readProgram strategy chunk <;> simp [isUnfinished, response, hread, Except.map]

/-- What a shell responds with, writes. -/
theorem writes_response {chunk : Text} {f : Shell → Shell}
    (h : response mode strategy chunk = .ok f) : Writes f := by
  cases mode with
  -- the tree mode says what it has read, the other modes run the program
  | tree =>
    cases hread : readForest chunk with
    | error e => simp [response, hread, Except.map] at h
    | ok trees =>
      obtain rfl : (fun s => s.say (shownForest trees)) = f := by
        simpa [response, hread, Except.map] using h
      exact writes_say _
  | eval | ast =>
    cases hread : readProgram strategy chunk with
    | error e => simp [response, hread, Except.map] at h
    | ok p =>
      obtain rfl : (fun s => s.takeProgram p) = f := by
        simpa [response, hread, Except.map] using h
      exact writes_takeProgram p

/-- Taking a chunk only writes: mode, strategy and held lines stay. -/
theorem writes_take (chunk : Text) (atEnd : Bool) : Writes fun s => (s.take chunk atEnd).1 := by
  intro s
  cases hblank : chunk.isBlank with
  | true => exact ⟨s.session, s.errors, fun p => by simp only [take_of_isBlank _ hblank]⟩
  | false =>
    cases hresponse : response s.mode s.strategy chunk with
    | error e =>
      obtain ⟨session, errors, h⟩ := writes_refuse e atEnd s
      refine ⟨session, errors, fun p => ?_⟩
      simpa only [take_eq _ hblank, hresponse] using h p
    | ok f =>
      obtain ⟨session, errors, h⟩ := writes_response hresponse s
      refine ⟨session, errors, fun p => ?_⟩
      simpa only [take_eq _ hblank, hresponse] using h p

/-- Taking a chunk ends with waiting exactly if the chunk waits and there may be more. -/
theorem take_snd (s : Shell) (chunk : Text) (atEnd : Bool) :
    (s.take chunk atEnd).2 = (waits s.mode s.strategy chunk && !atEnd) := by
  cases hblank : chunk.isBlank with
  | true => simp [take_of_isBlank s hblank, waits, hblank]
  | false =>
    rw [take_eq s hblank, waits, isUnfinished_eq, hblank]
    cases response s.mode s.strategy chunk with
    | error e => cases hinc : e.isIncomplete <;> cases atEnd <;> simp [refuse, hinc]
    | ok f => simp

/-- A chunk that waits does nothing yet. -/
theorem take_of_waits {s : Shell} {chunk : Text} (h : waits s.mode s.strategy chunk = true) :
    s.take chunk false = (s, true) := by
  -- a chunk waits where its reading ends too early
  obtain ⟨hblank, hunfinished⟩ : chunk.isBlank = false ∧
      isUnfinished s.mode s.strategy chunk = true := by simpa [waits] using h
  rw [isUnfinished_eq] at hunfinished
  rw [take_eq s hblank]
  cases hresponse : response s.mode s.strategy chunk with
  | error e =>
    rw [hresponse] at hunfinished
    simp [refuse, show e.isIncomplete = true from hunfinished]
  | ok f =>
    rw [hresponse] at hunfinished
    cases hunfinished

/-- What a chunk does that does not wait is the same at the end of the input. -/
theorem take_of_not_waits {s : Shell} {chunk : Text} (h : waits s.mode s.strategy chunk = false) :
    s.take chunk false = s.take chunk true := by
  cases hblank : chunk.isBlank with
  | true => rw [take_of_isBlank s hblank, take_of_isBlank s hblank]
  | false =>
    have hunfinished : isUnfinished s.mode s.strategy chunk = false := by
      simpa [waits, hblank] using h
    rw [isUnfinished_eq] at hunfinished
    -- an error that is not about the end is reported at once, at the end of the input or before
    rw [take_eq s hblank, take_eq s hblank]
    cases hresponse : response s.mode s.strategy chunk with
    | error e =>
      rw [hresponse] at hunfinished
      simp [refuse, show e.isIncomplete = false from hunfinished]
    | ok f => rfl

/-! ## §4 Steps and runs -/

/-- What the shell does about a piece. -/
def perform (s : Shell) : Piece → Shell
  | .exit _ => s
  | .clear _ => s.clear
  | .chunk ls => (s.take ls.flatten true).1

/-- Every piece only writes. -/
theorem writes_perform (p : Piece) : Writes (·.perform p) := by
  cases p with
  | exit => exact writes_id
  | clear => exact fun s => ⟨s.clear.session, s.errors, fun _ => rfl⟩
  | chunk ls => exact writes_take ls.flatten true

/-- Writing leaves the mode as it is. -/
theorem Writes.mode_eq {f : Shell → Shell} (hf : Writes f) (s : Shell) : (f s).mode = s.mode := by
  obtain ⟨_, _, h⟩ := hf s
  rw [show f s = _ from h s.pending]

/-- Writing leaves the strategy as it is. -/
theorem Writes.strategy_eq {f : Shell → Shell} (hf : Writes f) (s : Shell) :
    (f s).strategy = s.strategy := by
  obtain ⟨_, _, h⟩ := hf s
  rw [show f s = _ from h s.pending]

/-- Writing leaves the held lines as they are. -/
theorem Writes.pending_eq {f : Shell → Shell} (hf : Writes f) (s : Shell) :
    (f s).pending = s.pending := by
  obtain ⟨_, _, h⟩ := hf s
  rw [show f s = _ from h s.pending]

/-- The pending text may be set before or after. -/
theorem Writes.pending_comm {f : Shell → Shell} (hf : Writes f) (s : Shell) (p q : Text) :
    { f { s with pending := p } with pending := q } = f { s with pending := q } := by
  obtain ⟨_, _, h⟩ := hf s
  rw [h p, h q]

/-- The shell while it waits for lines that complete those it holds. -/
def holding (s : Shell) (held : List Text) : Shell := { s with pending := held.flatten }

@[simp] theorem holding_mode (s : Shell) (held : List Text) : (s.holding held).mode = s.mode := rfl

@[simp] theorem holding_strategy (s : Shell) (held : List Text) :
    (s.holding held).strategy = s.strategy := rfl

theorem holding_nil {s : Shell} (hpending : s.pending = []) : s.holding [] = s := by
  rw [holding, List.flatten_nil, ← hpending]

/-- Lines that are held are not blank, so their text tells that there are any. -/
theorem holding_isEmpty {s : Shell} (h : Holds s.mode s.strategy held) :
    (s.holding held).pending.isEmpty = held.isEmpty := by
  cases held with
  | nil => rfl
  | cons line held =>
    have hwaits := h.waiting (line :: held) (by simp) (List.prefix_refl _)
    cases htext : (line :: held).flatten with
    | nil =>
      rw [htext, waits, show Text.isBlank [] = true by decide] at hwaits
      cases hwaits
    | cons b t => rw [holding, htext]; rfl

/-- Taking a chunk does not depend on the lines held, and they are gone afterwards. -/
theorem perform_chunk {s : Shell} (hpending : s.pending = []) (held chunk : List Text) :
    { ((s.holding held).take chunk.flatten true).1 with pending := [] } =
      s.perform (.chunk chunk) := by
  have h := (writes_take chunk.flatten true).pending_comm s held.flatten []
  rw [← hpending] at h
  exact hpending ▸ h

/-- One step of the shell: the line ends the session, or clears the screen, or is added to the
lines held, or completes them. -/
theorem feed_holding {s : Shell} (hpending : s.pending = []) (h : Holds s.mode s.strategy held)
    (line : Text) (atEnd : Bool) :
    (s.holding held).feed line atEnd =
      if held.isEmpty && line.trim == "exit" then (s, true)
      else if held.isEmpty && line.trim == "clear" then (s.perform (.clear line), atEnd)
      else if waits s.mode s.strategy (held ++ [line]).flatten && !atEnd then
        (s.holding (held ++ [line]), false)
      else (s.perform (.chunk (held ++ [line])), atEnd) := by
  have hchunk : (s.holding held).pending ++ line = (held ++ [line]).flatten := by simp [holding]
  rw [feed, holding_isEmpty h]
  split
  · next hexit =>
    simp only [Bool.and_eq_true, List.isEmpty_iff] at hexit
    rw [hexit.1, holding_nil hpending]
  · split
    · next hclear =>
      simp only [Bool.and_eq_true, List.isEmpty_iff] at hclear
      rw [hclear.1, holding_nil hpending]
      rfl
    · dsimp only
      rw [hchunk]
      generalize (held ++ [line]) = chunk
      cases hwaits : waits s.mode s.strategy chunk.flatten && !atEnd with
      -- a chunk that waits is held, unless the input ends
      | true =>
        obtain ⟨hwaits, rfl⟩ : waits s.mode s.strategy chunk.flatten = true ∧ atEnd = false := by
          simpa using hwaits
        rw [take_of_waits (by simpa using hwaits)]
        rfl
      | false =>
        have htake : (s.holding held).take chunk.flatten atEnd =
            (s.holding held).take chunk.flatten true := by
          cases atEnd with
          | true => rfl
          | false => exact take_of_not_waits (by simpa using hwaits)
        have hdone := take_snd (s.holding held) chunk.flatten true
        rw [htake, ← perform_chunk hpending held]
        generalize (s.holding held).take chunk.flatten true = result at hdone
        obtain ⟨s', wait⟩ := result
        obtain rfl : wait = false := by simpa using hdone
        rfl

/-- What becomes of the shell when its input ends behind the text. -/
def finish (tail : Text) : Shell × Bool → Shell
  | (s, true) => s
  | (s, false) => (s.feed tail true).1

/-- At the end of the input the shell takes what it holds, with the last line. -/
theorem finish_holding {s : Shell} (hpending : s.pending = []) (h : Holds s.mode s.strategy held)
    (tail : Text) :
    finish tail (s.holding held, false) =
      (linePieces s.mode s.strategy held (lastLine tail)).foldl perform s := by
  rw [finish, feed_holding hpending h, Bool.not_true, Bool.and_false, lastLine]
  cases tail with
  | nil =>
    rw [show (Text.trim [] == "exit") = false by decide,
      show (Text.trim [] == "clear") = false by decide]
    cases held with
    | nil => simp [linePieces, perform, take_of_isBlank s (show Text.isBlank [] = true by decide)]
    | cons line held => simp [linePieces, perform]
  | cons b tail =>
    simp only [List.isEmpty_cons, Bool.false_eq_true, if_false, linePieces]
    split
    · rfl
    · split
      · rfl
      · split <;> simp

/-- From what the shell holds, it does what the pieces of the lines say, one after the other. -/
theorem feedAll_holding {s : Shell} (hpending : s.pending = []) (h : Holds s.mode s.strategy held)
    (ls : List Text) (tail : Text) :
    finish tail ((s.holding held).feedAll ls) =
      (linePieces s.mode s.strategy held (ls ++ lastLine tail)).foldl perform s := by
  induction ls generalizing s held with
  | nil => exact finish_holding hpending h tail
  | cons line rest ih =>
    -- after a piece the shell holds nothing
    have hdone : ∀ p : Piece, finish tail ((s.perform p).feedAll rest) =
        (linePieces s.mode s.strategy [] (rest ++ lastLine tail)).foldl perform (s.perform p) := by
      intro p
      have hnext := ((writes_perform p).pending_eq s).trans hpending
      have hrest := ih hnext (.nil : Holds _ _ [])
      rw [(writes_perform p).mode_eq s, (writes_perform p).strategy_eq s] at hrest
      rwa [holding_nil hnext] at hrest
    rw [feedAll, feed_holding hpending h, Bool.not_false, Bool.and_true, List.cons_append,
      linePieces]
    cases hexit : held.isEmpty && line.trim == "exit" with
    | true => rfl
    | false =>
      cases hclear : held.isEmpty && line.trim == "clear" with
      | true => exact hdone _
      | false =>
        cases hwaits : waits s.mode s.strategy (held ++ [line]).flatten with
        | true =>
          have hline : held = [] → isCommand line = false := by
            rintro rfl
            rw [isCommand, show (line.trim == "exit") = false from hexit,
              show (line.trim == "clear") = false from hclear]
            rfl
          exact ih hpending (h.snoc hline hwaits)
        | false => exact hdone _

/-- The shell takes every line once. A session that reads its input to the end does what the pieces
of the input say, in their order, each in the state that the one before it left. There is one
division into pieces. It has all lines of the input in their order, or all up to an `exit`, and
nothing is pending when it is over. -/
theorem run_eq_foldl_perform (s : Shell) (input : Input) (hpending : s.pending = [])
    (hread : input.complaint = none) :
    ∃ ps : List Piece,
      Divides s.mode s.strategy input.lines ps ∧
      (∀ qs, Divides s.mode s.strategy input.lines qs → qs = ps) ∧
      (∃ unread, ps.flatMap Piece.lines ++ unread = input.lines ∧
        (unread = [] ∨ ps.getLast?.any Piece.isExit)) ∧
      input.lines.flatten = input.text ∧
      s.run input = (ps.foldl perform s, none) ∧
      (s.run input).1.pending = [] := by
  have hdivides : Divides s.mode s.strategy input.lines
      (linePieces s.mode s.strategy [] input.lines) := divides_linePieces_nil _ _ _
  -- the lines are fed one by one, and the end of the input completes what is held
  have hfinish :=
    feedAll_holding hpending (.nil : Holds _ _ []) input.text.lines.1 input.text.lines.2
  have hrun :
      s.run input = ((linePieces s.mode s.strategy [] input.lines).foldl perform s, none) := by
    rw [Input.lines, ← hfinish, holding_nil hpending, run, hread]
    generalize input.text.lines = textLines
    obtain ⟨lines, tail⟩ := textLines
    dsimp only
    generalize s.feedAll lines = result
    obtain ⟨s', done⟩ := result
    cases done <;> rfl
  refine ⟨_, hdivides, fun qs h => h.unique hdivides, hdivides.lines_eq, input.flatten_lines, hrun,
    ?_⟩
  rw [hrun]
  have hpieces := writes_foldl writes_perform (linePieces s.mode s.strategy [] input.lines)
  exact (hpieces.pending_eq s).trans hpending

end Shell

end Scriptlet
