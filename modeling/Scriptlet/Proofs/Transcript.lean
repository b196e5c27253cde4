import Scriptlet.Proofs.LineEnds

/-!
# What a session of the shell leaves behind

The input of a session is divided into pieces, and each piece leaves something behind: texts on the
output, texts on the channel for errors, and the evaluator as the program left it. `Handles` says
what that is, with a case for each kind of piece, in terms of reading, evaluating and printing. It
does not mention how the shell goes about it. A chunk that is neither blank nor can be read is
always reported, also the one that the end of the input has cut off.

## Contents

- §1 texts on two channels
- §2 what a piece leaves behind
- §3 each piece is handled
- §4 sessions
-/

namespace Scriptlet

/-- In the mode, reading the chunk ends with the error. -/
def IsRefused (mode : Mode) (strategy : Strategy) (chunk : Text) (e : SourceError) : Prop :=
  match mode with
  | .tree => readForest chunk = .error e
  | _ => readProgram strategy chunk = .error e

/-- A chunk is unfinished because of the error that reading it ends with. -/
theorem exists_isRefused {mode : Mode} {strategy : Strategy} {chunk : Text}
    (h : isUnfinished mode strategy chunk = true) :
    ∃ e, IsRefused mode strategy chunk e ∧ e.isIncomplete = true := by
  cases mode with
  | tree =>
    cases hread : readForest chunk with
    | error e => exact ⟨e, hread, by simpa [isUnfinished, hread] using h⟩
    | ok trees => simp [isUnfinished, hread] at h
  | eval | ast =>
    cases hread : readProgram strategy chunk with
    | error e => exact ⟨e, hread, by simpa [isUnfinished, hread] using h⟩
    | ok p => simp [isUnfinished, hread] at h

/-- A chunk is refused with one error only. -/
theorem IsRefused.unique {mode : Mode} {strategy : Strategy} {chunk : Text} {e e' : SourceError}
    (h : IsRefused mode strategy chunk e) (h' : IsRefused mode strategy chunk e') : e = e' := by
  cases mode with
  | tree => exact Except.error.inj (Eq.trans (Eq.symm h) h')
  | eval | ast => exact Except.error.inj (Eq.trans (Eq.symm h) h')

namespace Shell

/-! ## §1 Texts on two channels -/

/-- From the shell `s`, whose session has become `session`, to `s'` two texts were written: one is
shown, the other is reported. Nothing else has changed. -/
structure Adds (s : Shell) (session : Session) (shown reported : Text) (s' : Shell) : Prop where
  shown : session.out.Took s'.session.out shown
  reported : s.errors.Took s'.errors reported
  session : s'.session = { session with out := s'.session.out }
  rest : s' = { s with session := s'.session, errors := s'.errors }

section

variable {s s' s'' : Shell} {session session' : Session} {shown shown' reported reported' : Text}

theorem Adds.refl (s : Shell) : s.Adds s.session [] [] s := ⟨.refl _, .refl _, rfl, rfl⟩

/-- What is added at each of two times is added over both. -/
theorem Adds.trans (h : s.Adds session shown reported s')
    (h' : s'.Adds s'.session shown' reported' s'') :
    s.Adds session (shown ++ shown') (reported ++ reported') s'' where
  shown := h.shown.trans h'.shown
  reported := h.reported.trans h'.reported
  session := by rw [h'.session, h.session]
  rest := by rw [h'.rest, h.rest]

/-- What is said is added to the output as a line. -/
theorem adds_say (hlimit : s.session.out.limit = none) (t : Text) :
    s.Adds s.session t.line [] (s.say t) :=
  ⟨Sink.took_offer hlimit _, .refl _, rfl, rfl⟩

/-- A record is reported before what follows it. -/
theorem Adds.of_log {r : Log.Record} (h : (s.log r).Adds session shown reported s')
    (hlimit : s.errors.limit = none) :
    s.Adds session shown (s.logger.line r ++ reported) s' :=
  ⟨h.shown, (Sink.took_offer hlimit _).trans h.reported, h.session, h.rest⟩

end

/-- The line that an error of a kind is reported with. -/
def report (kind message : Text) : Text := (laidOut (kind ++ ": " ++ message)).line

/-- What is complained of is added to the errors as a line. -/
theorem adds_complain {s : Shell} (hlimit : s.errors.limit = none) (kind message : Text) :
    s.Adds s.session [] (report kind message) (s.complain kind message) :=
  ⟨.refl _, Sink.took_offer hlimit _, rfl, rfl⟩

/-! ## §2 What a piece leaves behind -/

/-- The log record of a program that was read. -/
def readRecord (s : Shell) (p : Program) : Log.Record :=
  ⟨.debug, "parsed input",
    [("strategy", .strategy s.strategy), ("statements", .count p.stmts.length)]⟩

/-- The line that a program is put on record with; none, if the logger does not write it. -/
def recordLine (s : Shell) (p : Program) : Text := s.logger.line (s.readRecord p)

/-- What ends the line of a sink, if it is open. -/
def lineEnd (o : Sink) : Text := if o.lineOpen then [Text.newline] else []

/-- What is shown of an outcome. -/
def answer : Outcome → Text
  | .value .nil | .left .nil | .failed _ => []
  | .value v | .left v => (laidOut v.shown).line

/-- What is reported of an outcome. -/
def grievance : Outcome → Text
  | .value _ | .left _ => []
  | .failed e => report "error" e.message

/-- What a piece leaves behind. -/
inductive Handles (s : Shell) : Piece → Shell → Prop where
  | exit (line : Text) : Handles s (.exit line) s
  | clear (line : Text) {s' : Shell}
      (hcontents : s'.session.out.contents = s.session.out.contents ++ "\x1b[H\x1b[2J")
      (hlimit : s'.session.out.limit = s.session.out.limit)
      (hopen : s'.session.out.lineOpen = s.session.out.lineOpen)
      (hrest : s' = { s with session := { s.session with out := s'.session.out } }) :
      Handles s (.clear line) s'
  | blank (ls : List Text) (hblank : Text.isBlank ls.flatten = true) : Handles s (.chunk ls) s
  /-- What cannot be read is reported, whether more input could complete it or not. -/
  | refused (ls : List Text) {e : SourceError} {s' : Shell}
      (hblank : Text.isBlank ls.flatten = false) (hread : IsRefused s.mode s.strategy ls.flatten e)
      (hadds : s.Adds s.session [] (report "parse error" e.message) s') : Handles s (.chunk ls) s'
  | forest (ls : List Text) {trees : List Tree} {s' : Shell}
      (hblank : Text.isBlank ls.flatten = false) (hmode : s.mode = .tree)
      (hread : readForest ls.flatten = .ok trees)
      (hadds : s.Adds s.session (shownForest trees).line [] s') : Handles s (.chunk ls) s'
  | listed (ls : List Text) {p : Program} {s' : Shell} (hblank : Text.isBlank ls.flatten = false)
      (hmode : s.mode = .ast) (hread : readProgram s.strategy ls.flatten = .ok p)
      (hadds : s.Adds s.session (p.stmts.flatMap fun x => x.sexpr.line) (s.recordLine p) s') :
      Handles s (.chunk ls) s'
  /-- The program goes on from the session, and the next piece from what it leaves. -/
  | evaluated (ls : List Text) {p : Program} {o : Outcome} {session : Session} {s' : Shell}
      (hblank : Text.isBlank ls.flatten = false) (hmode : s.mode = .eval)
      (hread : readProgram s.strategy ls.flatten = .ok p)
      (hrun : s.session.run stepLimit p = some (o, session))
      (hadds : s.Adds session (lineEnd session.out ++ answer o) (s.recordLine p ++ grievance o)
        s') :
      Handles s (.chunk ls) s'
  /-- Nothing is known of a program that does not end. -/
  | endless (ls : List Text) {p : Program} {s' : Shell} (hblank : Text.isBlank ls.flatten = false)
      (hmode : s.mode = .eval) (hread : readProgram s.strategy ls.flatten = .ok p)
      (hrun : s.session.run stepLimit p = none)
      (hadds : s.Adds s.session [] (s.recordLine p) s') : Handles s (.chunk ls) s'

/-- What pieces leave behind, one after the other. -/
inductive HandlesAll : Shell → List Piece → Shell → Prop where
  | nil (s : Shell) : HandlesAll s [] s
  | cons {s s' s'' : Shell} {p : Piece} {ps : List Piece} (h : s.Handles p s')
      (hrest : HandlesAll s' ps s'') : HandlesAll s (p :: ps) s''

/-! ## §3 Each piece is handled -/

/-- Nothing that is written to the shell's channels is refused. -/
structure Unlimited (s : Shell) : Prop where
  out : s.session.out.limit = none
  errors : s.errors.limit = none

variable {s s' : Shell}

/-- A shell that adds to outputs without a limit keeps them so. -/
theorem Adds.unlimited {session : Session} {shown reported : Text}
    (h : s.Adds session shown reported s') (hout : session.out.limit = none)
    (herrors : s.errors.limit = none) : s'.Unlimited :=
  ⟨h.shown.limit.trans hout, h.reported.limit.trans herrors⟩

/-- What is said for each member of a list is added line by line. -/
theorem adds_foldl_say {α : Type} (shown : α → Text) (xs : List α) (hs : s.Unlimited) :
    s.Adds s.session (xs.flatMap fun x => (shown x).line) []
      (xs.foldl (fun s x => s.say (shown x)) s) := by
  induction xs generalizing s with
  | nil => exact .refl s
  | cons x xs ih =>
    have hsay := adds_say hs.out (shown x)
    exact hsay.trans (ih (hsay.unlimited hs.out hs.errors))

/-- The open line of a program is ended. -/
theorem took_finishLine {o : Sink} (hlimit : o.limit = none) : o.Took o.finishLine (lineEnd o) := by
  unfold Sink.finishLine lineEnd
  split
  · exact Sink.took_offer hlimit _
  · exact .refl o

/-- An outcome adds its answer to the output, or its grievance to the errors. -/
theorem adds_conclude (hs : s.Unlimited) (o : Outcome) :
    s.Adds s.session (answer o) (grievance o) (s.conclude o) := by
  cases o with
  | failed e => exact adds_complain hs.errors _ _
  | value v | left v =>
    cases v with
    | nil => exact .refl s
    | _ => exact adds_say hs.out _

/-- A program adds what its run has written, its line's end, and the answer. -/
theorem adds_evaluate (hs : s.Unlimited) {p : Program} {o : Outcome} {session : Session}
    (hrun : s.session.run stepLimit p = some (o, session)) :
    s.Adds session (lineEnd session.out ++ answer o) (grievance o) (s.evaluate p) := by
  obtain ⟨_, htook⟩ := Session.grows_of_run hrun
  have hlimit : session.out.limit = none := htook.limit.trans hs.out
  have hfinish : s.Adds session (lineEnd session.out) []
      { s with session := { session with out := session.out.finishLine } } :=
    ⟨took_finishLine hlimit, .refl _, rfl, rfl⟩
  have hconclude := hfinish.trans (adds_conclude (hfinish.unlimited hlimit hs.errors) o)
  rwa [show s.evaluate p = _ by rw [evaluate, hrun]]

/-- A program that was read is put on record, and then listed or evaluated. -/
theorem handles_takeProgram (hs : s.Unlimited) {ls : List Text} {p : Program}
    (hblank : Text.isBlank ls.flatten = false) (hmode : s.mode ≠ .tree)
    (hread : readProgram s.strategy ls.flatten = .ok p) :
    s.Handles (.chunk ls) (s.takeProgram p) := by
  have hlogged : (s.log (s.readRecord p)).Unlimited :=
    ⟨hs.out, (Sink.took_offer hs.errors _).limit.trans hs.errors⟩
  cases h : s.mode with
  | tree => exact absurd h hmode
  | ast =>
    rw [show s.takeProgram p = p.stmts.foldl (fun s x => s.say x.sexpr) (s.log (s.readRecord p)) by
      simp only [takeProgram, show (s.log _).mode = .ast from h, readRecord]]
    have hadds := (adds_foldl_say Node.sexpr p.stmts hlogged).of_log hs.errors
    rw [List.append_nil] at hadds
    exact .listed ls hblank h hread hadds
  | eval =>
    rw [show s.takeProgram p = (s.log (s.readRecord p)).evaluate p by
      simp only [takeProgram, show (s.log _).mode = .eval from h, readRecord]]
    cases hrun : s.session.run stepLimit p with
    | none =>
      have hadds := (Adds.refl (s.log (s.readRecord p))).of_log hs.errors
      rw [List.append_nil] at hadds
      refine .endless ls hblank h hread hrun ?_
      rwa [show (s.log (s.readRecord p)).evaluate p = s.log (s.readRecord p) by
        rw [evaluate, show (s.log _).session = s.session from rfl, hrun]]
    | some result =>
      obtain ⟨o, session⟩ := result
      exact .evaluated ls hblank h hread hrun ((adds_evaluate hlogged hrun).of_log hs.errors)

/-- **One chunk.** Taking it at the end of the input leaves behind what it should, a chunk that
waits for more included. -/
theorem handles_take (hs : s.Unlimited) (ls : List Text) :
    s.Handles (.chunk ls) (s.take ls.flatten true).1 := by
  cases hblank : Text.isBlank ls.flatten with
  | true =>
    rw [take_of_isBlank s hblank]
    exact .blank ls hblank
  | false =>
    have hrefused : ∀ e, IsRefused s.mode s.strategy ls.flatten e →
        (s.take ls.flatten true).1 = s.complain "parse error" e.message →
        s.Handles (.chunk ls) (s.take ls.flatten true).1 := by
      intro e hread htake
      rw [htake]
      exact .refused ls hblank hread (adds_complain hs.errors _ _)
    cases hmode : s.mode with
    | tree =>
      cases hread : readForest ls.flatten with
      | error e =>
        exact hrefused e (by rwa [hmode]) (by simp [take, hblank, hmode, hread, refuse])
      | ok trees =>
        rw [show (s.take ls.flatten true).1 = s.say (shownForest trees) by
          simp [take, hblank, hmode, hread]]
        exact .forest ls hblank hmode hread (adds_say hs.out _)
    | eval | ast =>
      cases hread : readProgram s.strategy ls.flatten with
      | error e =>
        exact hrefused e (by rwa [hmode]) (by simp [take, hblank, hmode, hread, refuse])
      | ok p =>
        rw [show (s.take ls.flatten true).1 = s.takeProgram p by
          simp [take, hblank, hmode, hread]]
        exact handles_takeProgram hs hblank (by simp [hmode]) hread

/-- Every piece is handled in the way of its kind. -/
theorem handles_perform (hs : s.Unlimited) (p : Piece) : s.Handles p (s.perform p) := by
  cases p with
  | exit line => exact .exit line
  | clear line =>
    exact .clear line (Sink.contents_steer hs.out _) (Sink.limit_steer _ _)
      (Sink.lineOpen_steer _ _) rfl
  | chunk ls => exact handles_take hs ls

/-- Handling a piece sets no limit to an output. -/
theorem Handles.unlimited {p : Piece} (h : s.Handles p s') (hs : s.Unlimited) : s'.Unlimited := by
  cases h with
  | exit | blank => exact hs
  | clear _ _ hlimit _ hrest =>
    refine ⟨hlimit.trans hs.out, ?_⟩
    rw [hrest]
    exact hs.errors
  | refused _ _ _ hadds | forest _ _ _ _ hadds | listed _ _ _ _ hadds
  | endless _ _ _ _ _ hadds => exact hadds.unlimited hs.out hs.errors
  | evaluated _ _ _ _ hrun hadds =>
    obtain ⟨_, htook⟩ := Session.grows_of_run hrun
    exact hadds.unlimited (htook.limit.trans hs.out) hs.errors

/-- Whatever a piece is, the shell goes on reading in the same way. -/
theorem Handles.reading_eq {p : Piece} (h : s.Handles p s') :
    s'.mode = s.mode ∧ s'.strategy = s.strategy := by
  cases h with
  | exit | blank => exact ⟨rfl, rfl⟩
  | clear _ _ _ _ hrest =>
    rw [hrest]
    exact ⟨rfl, rfl⟩
  | refused _ _ _ hadds | forest _ _ _ _ hadds | listed _ _ _ _ hadds
  | endless _ _ _ _ _ hadds | evaluated _ _ _ _ _ hadds =>
    rw [hadds.rest]
    exact ⟨rfl, rfl⟩

/-- Lines that are not finished cannot be read, so their error is the last thing reported. -/
theorem Handles.reports {ls : List Text} (h : s.Handles (.chunk ls) s')
    (hwaits : waits s.mode s.strategy ls.flatten = true) :
    ∃ e, IsRefused s.mode s.strategy ls.flatten e ∧ e.isIncomplete = true ∧
      s'.errors.contents = s.errors.contents ++ report "parse error" e.message := by
  obtain ⟨hblank, hunfinished⟩ : Text.isBlank ls.flatten = false ∧
      isUnfinished s.mode s.strategy ls.flatten = true := by simpa [waits] using hwaits
  obtain ⟨e, hrefused, hincomplete⟩ := exists_isRefused hunfinished
  cases h with
  | blank _ h => simp [h] at hblank
  | refused _ _ hread hadds =>
    obtain rfl := hrefused.unique hread
    exact ⟨e, hrefused, hincomplete, hadds.reported.contents⟩
  -- what can be read is not refused
  | forest _ _ hmode hread | listed _ _ hmode hread | evaluated _ _ hmode hread
  | endless _ _ hmode hread => simp [IsRefused, hmode, hread] at hrefused

/-! ## §4 Sessions -/

/-- The pieces of a division are handled one after the other. -/
theorem handlesAll_foldl_perform (hs : s.Unlimited) (ps : List Piece) :
    HandlesAll s ps (ps.foldl perform s) := by
  induction ps generalizing s with
  | nil => exact .nil s
  | cons p ps ih =>
    have h := handles_perform hs p
    exact .cons h (ih (h.unlimited hs))

/-- The last piece is handled in the state that all others left, in which the shell reads as it did
at first. -/
theorem HandlesAll.last {ps : List Piece} {p : Piece} (h : HandlesAll s ps s')
    (hlast : ps.getLast? = some p) :
    ∃ t : Shell, t.Handles p s' ∧ t.mode = s.mode ∧ t.strategy = s.strategy := by
  induction h with
  | nil => cases hlast
  | cons hfirst hrest ih =>
    cases hrest with
    | nil =>
      obtain rfl : _ = p := by simpa using hlast
      exact ⟨_, hfirst, rfl, rfl⟩
    | cons hsecond hmore =>
      obtain ⟨t, ht, hmode, hstrategy⟩ := ih (by simpa using hlast)
      obtain ⟨hmode', hstrategy'⟩ := hfirst.reading_eq
      exact ⟨t, ht, hmode.trans hmode', hstrategy.trans hstrategy'⟩

/-- **Every line once, in shortest complete chunks.** A session whose input can be read to the end,
and whose channels take all that is written, divides its input into pieces in the one way there is.
The pieces have all lines of the input in their order, or all up to an `exit`. Each is handled in
the state that the one before it left, so nothing else is shown, reported or evaluated than what
they leave behind. Nothing is pending when it is over: lines that the end of the input has left
unfinished have been reported. -/
theorem run_handles_pieces (s : Shell) (input : Input) (hpending : s.pending = [])
    (hread : input.complaint = none) (hs : s.Unlimited) :
    ∃ ps : List Piece,
      Divides s.mode s.strategy input.lines ps ∧
      (∀ qs, Divides s.mode s.strategy input.lines qs → qs = ps) ∧
      (∃ unread, ps.flatMap Piece.lines ++ unread = input.lines ∧
        (unread = [] ∨ ps.getLast?.any Piece.isExit)) ∧
      input.lines.flatten = input.text ∧
      HandlesAll s ps (s.run input).1 ∧
      (s.run input).2 = none ∧
      (s.run input).1.pending = [] ∧
      ∀ ls, ps.getLast? = some (.chunk ls) → waits s.mode s.strategy ls.flatten = true →
        ∃ e, IsRefused s.mode s.strategy ls.flatten e ∧ e.isIncomplete = true ∧
          report "parse error" e.message <:+ (s.run input).1.errors.contents := by
  obtain ⟨ps, hdivides, hunique, hlines, htext, hrun, hdone⟩ :=
    run_eq_foldl_perform s input hpending hread
  have hhandles : HandlesAll s ps (s.run input).1 := by
    rw [hrun]
    exact handlesAll_foldl_perform hs ps
  refine ⟨ps, hdivides, hunique, hlines, htext, hhandles, by rw [hrun], hdone, ?_⟩
  intro ls hlast hwaits
  obtain ⟨t, ht, hmode, hstrategy⟩ := hhandles.last hlast
  rw [← hmode, ← hstrategy] at hwaits ⊢
  obtain ⟨e, hrefused, hincomplete, herrors⟩ := ht.reports hwaits
  exact ⟨e, hrefused, hincomplete, t.errors.contents, herrors.symm⟩

/-- A session with a chunk of three lines, a cleared screen, a blank line, and a call that the end
of the input cuts off. -/
def sampleInput : Input := ⟨"(1 +\n clear\n)\n clear\n\nf(1,\n", none⟩

/-- The pieces of that session. -/
def samplePieces : List Piece :=
  [.chunk ["(1 +\n", " clear\n", ")\n"], .clear " clear\n", .chunk ["\n"], .chunk ["f(1,\n"]]

theorem run_handles_pieces_cut_off :
    let s := start .eval .reducer .silent .unlimited
    s.pending = [] ∧ sampleInput.complaint = none ∧ s.Unlimited ∧
      HandlesAll s samplePieces (s.run sampleInput).1 ∧
      (s.run sampleInput).1.pending = [] ∧
      (∃ e : SourceError, e.isIncomplete = true ∧
        report "parse error" e.message <:+ (s.run sampleInput).1.errors.contents) ∧
      (s.run sampleInput).1.errors.contents =
        "error: 2:2: unbound variable: clear\n" ++
          "parse error: 1:2: unbalanced delimiters: unclosed (\n" := by
  intro s
  have hs : s.Unlimited := ⟨rfl, rfl⟩
  obtain ⟨ps, -, hunique, -, -, hhandles, -, hpending, hreports⟩ :=
    run_handles_pieces s sampleInput rfl rfl hs
  have hps : samplePieces = ps := by
    rw [← hunique _ (divides_linePieces_nil _ _ _)]
    decide +kernel
  subst hps
  obtain ⟨e, -, hincomplete, he⟩ := hreports ["f(1,\n"] rfl (by decide +kernel)
  exact ⟨rfl, rfl, hs, hhandles, hpending, ⟨e, hincomplete, he⟩, by decide +kernel⟩

end Shell

end Scriptlet
