import Scriptlet.Failure
import Scriptlet.Settings.Load
import Scriptlet.Shell
import Scriptlet.Text.Table

/-!
# Commands at work

A command first finds its settings, then reads a program from a file or from the input, and then
runs it, shows it in one of several forms or writes its code. Commands are written for any monad
that answers the requests of a `Host`.

A file for output is created, and so emptied, before anything is written to it, and closed when all
of it was written.

## Contents

- §1 settings and log
- §2 sources
- §3 targets of output
- §4 the commands
-/

namespace Scriptlet

namespace Command

variable {m : Type → Type} [Monad m] [Host m]

/-! ## §1 Settings and log -/

/-- What every command works with. -/
structure Setup where
  settings : Settings
  logger : Log.Logger
  options : Options

/-- Fails, or goes on with a value. -/
def settle {α ε : Type} (wrap : ε → Failure) : Except ε α → ExceptT Failure m α
  | .ok a => pure a
  | .error e => throw (wrap e)

/-- Writes a log record. -/
def log (s : Setup) (r : Log.Record) : m Unit := Host.report (s.logger.line r)

/-- The settings that options leave: those of a file, with what the options override. -/
def settingsFor (o : Options) : ExceptT Failure m Settings := do
  let found ← if o.config.isEmpty then Settings.find else Settings.load o.config
  let s ← settle .settings found
  let s ←
    if o.strategy.isEmpty then pure s
    else
      let s := { s with strategy := o.strategy }
      settle .settings (s.validate.map fun _ => s)
  return if o.verbose then { s with level := "debug" } else s

/-- Finds the settings and notes them in the log. -/
def prepare (o : Options) : ExceptT Failure m Setup := do
  let settings ← settingsFor o
  let setup : Setup := ⟨settings, Log.Logger.ofNames settings.level settings.format, o⟩
  log setup
    ⟨.debug, "configuration loaded",
      [("file", .text o.config), ("strategy", .text settings.strategy)]⟩
  return setup

/-! ## §2 Sources -/

/-- A source and what it is called. -/
structure Source where
  name : Text
  text : Text

/-- The source that the arguments name; without a name, or with a dash, it is the input. -/
def readSource (s : Setup) : ExceptT Failure m Source := do
  let input : ExceptT Failure m Source := do
    let text ← settle (fun c => .within "read stdin" (.unreadable c)) (← Host.input).whole
    return ⟨"<stdin>", text⟩
  match s.options.args with
  | [] => input
  | path :: _ =>
    if path = "-" then input
    else
      let text ← settle .path (← Host.readFile path)
      return ⟨path, blankDirective text⟩

/-- The program of the source that the arguments name, and what it is called. -/
def readNamedProgram (s : Setup) : ExceptT Failure m (Text × Program) := do
  let src ← readSource s
  let p ← settle (fun e => .within src.name (.source e)) (readProgram s.settings.chosen src.text)
  log s
    ⟨.debug, "parsed",
      [("file", .text src.name), ("strategy", .strategy s.settings.chosen),
        ("statements", .count p.stmts.length)]⟩
  return (src.name, p)

/-! ## §3 Targets of output -/

/-- Where a command writes to. -/
inductive Target where
  | standard
  | file (path : Text)

/-- Gets a target ready; without a path, or with a dash, it is the standard output. -/
def openTarget (path : Text) : ExceptT Failure m Target := do
  if path.isEmpty || path = "-" then return .standard
  else
    settle .path (← Host.createFile path)
    return .file path

/-- Writes to a target. What reached it stays, also if there is a failure, and the failure of what
writes comes before that of a file that has no room for it. -/
def writeTo (target : Target) (write : Sink → Sink × Except Failure Unit) :
    ExceptT Failure m Unit := do
  match target with
  | .standard =>
    let (sink, result) := write (← Host.output)
    Host.setOutput sink
    settle id result
  | .file path =>
    let (sink, result) := write .unlimited
    let filled ← Host.fillFile path sink.contents
    settle id result
    settle .path filled

/-- Ends the work with a target. A file that was opened may still have something to say. -/
def closeTarget : Target → ExceptT Failure m Unit
  | .standard => return ()
  | .file path => do settle .path (← Host.closeFile path)

/-- Writes texts one after the other up to the first that is refused. -/
def writeAll : List Text → Sink → Sink × Except Failure Unit
  | [], sink => (sink, .ok ())
  | t :: ts, sink =>
    match sink.write t with
    | .ok sink => writeAll ts sink
    | .error complaint => (sink, .error (.refused complaint))

/-- Writes a line to the standard output if it is taken. -/
def say (t : Text) : ExceptT Failure m Unit := do
  Host.setOutput ((← Host.output).offer (Text.line t))

/-! ## §4 The commands -/

/-- Runs a program. -/
def performRun (s : Setup) : ExceptT Failure m Unit := do
  let src ← readSource s
  log s
    ⟨.debug, "running program",
      [("file", .text src.name), ("strategy", .strategy s.settings.chosen)]⟩
  let (result, session) := (Session.start (← Host.output)).runSource s.settings.chosen src.text
  Host.setOutput session.out
  match result with
  | some (.error e) => throw (.within src.name e)
  | _ => return ()

/-- Runs the shell over the input. -/
def performShell (s : Setup) : ExceptT Failure m Unit := do
  let shell := Shell.start (.ofName s.settings.mode) s.settings.chosen s.logger (← Host.output)
  let (shell, complaint) := shell.run (← Host.input)
  Host.setOutput shell.session.out
  Host.report shell.errors.contents
  match complaint with
  | some c => throw (.within "read error" (.unreadable c))
  | none => return ()

/-- Shows a program as s-expressions or as a document. -/
def performAst (s : Setup) : ExceptT Failure m Unit := do
  if s.options.format ≠ "sexpr" ∧ s.options.format ≠ "yaml" then
    throw (.usage (.unknownFormat s.options.format))
  let (_, p) ← readNamedProgram s
  let target ← openTarget s.options.output
  if s.options.format = "yaml" then
    match p.toNode.yaml? with
    | some t => writeTo target (writeAll [t])
    | none => throw .unprintable
  else writeTo target (writeAll (p.stmts.map fun x => Text.line x.sexpr))
  closeTarget target

/-- Writes the code of a program. -/
def performAsm (s : Setup) : ExceptT Failure m Unit := do
  let (name, p) ← readNamedProgram s
  let path := if s.options.output.isEmpty then s.settings.output else s.options.output
  let target ← openTarget path
  ExceptT.adapt (Failure.within name) <| writeTo target fun sink =>
    let (sink, result) := Assembly.write p.toNode sink
    (sink, result.mapError .ofOutput)
  log s ⟨.debug, "assembly written", [("file", .text name), ("output", .text path)]⟩
  closeTarget target

/-- Shows the forest of a source. -/
def performTree (s : Setup) : ExceptT Failure m Unit := do
  let src ← readSource s
  let trees ← settle (fun e => .within src.name (.source e)) (readForest src.text)
  say (shownForest trees)

/-- The cells of a token in the table of tokens. -/
def tokenCells (t : Token) : List Text :=
  let subkind := t.lexeme.subkind
  [ Text.ofNat t.index,
    t.lexeme.kind.label,
    if subkind = .undivided then [] else subkind.label,
    match t.lexeme.family? with
    | some f => f.name
    | none => [],
    Tree.shownLexeme t.lexeme,
    Text.ofNat t.level,
    t.loc.shown ]

/-- The headings of the table of tokens. -/
def tokenHeadings : List Text := ["#", "KIND", "SUBKIND", "FAMILY", "VALUE", "LEVEL", "AT"]

/-- Shows the tokens of a source as a table; without balanced delimiters all levels are zero. -/
def performTokens (s : Setup) : ExceptT Failure m Unit := do
  let src ← readSource s
  let tokens ← settle (fun e => .within src.name (.source (.lexical e))) (tokenize src.text)
  let tokens ←
    match assignLevels tokens with
    | .ok leveled => do
      log s
        ⟨.debug, "tokenized",
          [("file", .text src.name), ("tokens", .count leveled.length),
            ("depth", .count (deepestLevel leveled))]⟩
      pure leveled
    | .error e => do
      log s
        ⟨.warn, "cannot assign nesting levels",
          [("file", .text src.name), ("error", .text (SourceError.unbalanced e).message)]⟩
      pure tokens
  say (Table.render tokenHeadings (tokens.map tokenCells))

/-- Shows the version. -/
def performVersion : ExceptT Failure m Unit := say "pivot dev"

/-- Carries out a command. -/
def perform (i : Invocation) : ExceptT Failure m Unit := do
  let s ← prepare i.options
  match i.command with
  | .root => if s.options.args.isEmpty then performShell s else performRun s
  | .run => performRun s
  | .ast => performAst s
  | .asm => performAsm s
  | .tree => performTree s
  | .tokens => performTokens s
  | .version => performVersion

/-- Carries out what arguments ask for. -/
def performArguments (args : List Text) : ExceptT Failure m Unit := do
  perform (← settle .usage (Invocation.ofArguments args))

/-- Carries out what arguments ask for in a world. -/
def performIn (args : List Text) (w : World) : Except Failure Unit × World :=
  let action : ExceptT Failure (StateM World) Unit := performArguments args
  action.run.run w

end Command

end Scriptlet
