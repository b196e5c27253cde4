import Scriptlet.Eval.Machine
import Scriptlet.Forest.Tree
import Scriptlet.Host
import Scriptlet.Log
import Scriptlet.Program.Sexpr
import Scriptlet.Text.Width

/-!
# The shell

The shell reads lines and collects them until they are a complete program or cannot become one. What
it does with a program depends on its mode: it runs it and shows the value, or it shows the program
or the forest. Errors go to a channel of their own. Between programs the lines `exit` and `clear`
are commands.

Whatever a program wrote, the next thing starts on a new line.

## Contents

- §1 modes and the state of a shell
- §2 how results are laid out
- §3 programs
- §4 lines
-/

namespace Scriptlet

/-! ## §1 Modes and state -/

/-- What the shell does with a program. -/
inductive Mode where
  | eval
  | ast
  | tree
  deriving DecidableEq, Repr

/-- The mode with a name; an unknown name means evaluation. -/
def Mode.ofName (t : Text) : Mode :=
  if t = "ast" then .ast else if t = "tree" then .tree else .eval

/-- A shell between two lines. -/
structure Shell where
  mode : Mode
  strategy : Strategy
  logger : Log.Logger
  session : Session
  /-- What was written to the channel for errors. -/
  errors : Sink
  /-- Lines that wait for more. -/
  pending : Text

namespace Shell

/-- A shell that has read nothing. -/
def start (mode : Mode) (strategy : Strategy) (logger : Log.Logger) (out : Sink) : Shell :=
  ⟨mode, strategy, logger, Session.start out, .unlimited, []⟩

/-! ## §2 Layout -/

/-- A tab is shown as four spaces. -/
def withoutTabs (t : Text) : Text := t.flatMap fun b => if b == 9 then [32, 32, 32, 32] else [b]

/-- Carriage returns in front of line ends are dropped. -/
def withoutReturns : Text → Text
  | [] => []
  | b :: rest =>
    if b == 13 && rest.head? == some Text.newline then withoutReturns rest
    else b :: withoutReturns rest

/-- The text as it is shown: its lines are filled up to the width of the widest. -/
def laidOut (t : Text) : Text :=
  let lines := (withoutReturns (withoutTabs t)).split Text.newline
  let widest := (lines.map Text.width).foldl max 0
  Text.join [Text.newline] (lines.map (Text.padTo widest))

/-! ## §3 Programs -/

/-- Writes a line of output. -/
def say (s : Shell) (t : Text) : Shell :=
  { s with session := { s.session with out := s.session.out.offer (Text.line t) } }

/-- Writes an error of a kind. -/
def complain (s : Shell) (kind message : Text) : Shell :=
  { s with errors := s.errors.offer (Text.line (laidOut (kind ++ ": " ++ message))) }

/-- Writes a log record. -/
def log (s : Shell) (r : Log.Record) : Shell :=
  { s with errors := s.errors.offer (s.logger.line r) }

/-- What becomes of a chunk that is no program: it waits for more lines if those could complete it
and there may be any, and is an error otherwise. The second result says that it waits. -/
def refuse (s : Shell) (e : SourceError) (atEnd : Bool) : Shell × Bool :=
  if e.isIncomplete && !atEnd then (s, true) else (s.complain "parse error" e.message, false)

/-- Shows how an evaluation ended. -/
def conclude (s : Shell) : Outcome → Shell
  | .failed e => s.complain "error" e.message
  | .value v | .left v =>
    match v with
    | .nil => s
    | _ => s.say (laidOut v.shown)

/-- Runs a program and shows its value. -/
def evaluate (s : Shell) (p : Program) : Shell :=
  match s.session.run stepLimit p with
  | none => s
  | some (outcome, session) =>
    conclude { s with session := { session with out := session.out.finishLine } } outcome

/-- Takes a program. -/
def takeProgram (s : Shell) (p : Program) : Shell :=
  let s := s.log
    ⟨.debug, "parsed input",
      [("strategy", .strategy s.strategy), ("statements", .count p.stmts.length)]⟩
  match s.mode with
  | .ast => p.stmts.foldl (fun s x => s.say x.sexpr) s
  | _ => s.evaluate p

/-- Takes a chunk of lines; the second result says that it waits for more. -/
def take (s : Shell) (chunk : Text) (atEnd : Bool) : Shell × Bool :=
  if chunk.isBlank then (s, false)
  else
    match s.mode with
    | .tree =>
      match readForest chunk with
      | .error e => s.refuse e atEnd
      | .ok trees => (s.say (shownForest trees), false)
    | _ =>
      match readProgram s.strategy chunk with
      | .error e => s.refuse e atEnd
      | .ok p => (s.takeProgram p, false)

/-! ## §4 Lines -/

/-- What clears the screen. -/
def clearing : Text := "\x1b[H\x1b[2J"

/-- Clears the screen. -/
def clear (s : Shell) : Shell :=
  { s with session := { s.session with out := s.session.out.steer clearing } }

/-- Takes a line; the second result says that the shell is done. -/
def feed (s : Shell) (line : Text) (atEnd : Bool) : Shell × Bool :=
  if s.pending.isEmpty && line.trim == "exit" then (s, true)
  else if s.pending.isEmpty && line.trim == "clear" then (s.clear, atEnd)
  else
    let chunk := s.pending ++ line
    match s.take chunk atEnd with
    | (s, true) => ({ s with pending := chunk }, false)
    | (s, false) => ({ s with pending := [] }, atEnd)

/-- Takes lines until there are no more or the shell is done. -/
def feedAll (s : Shell) : List Text → Shell × Bool
  | [] => (s, false)
  | line :: rest =>
    match s.feed line false with
    | (s, true) => (s, true)
    | (s, false) => s.feedAll rest

/-- Takes all of the input. What follows its last line end is a line too, unless reading fails
there; the second result is what was said then. -/
def run (s : Shell) (input : Input) : Shell × Option Text :=
  let (lines, tail) := input.text.lines
  match s.feedAll lines with
  | (s, true) => (s, none)
  | (s, false) =>
    match input.complaint with
    | some complaint => (s, some complaint)
    | none => ((s.feed tail true).1, none)

end Shell

end Scriptlet
