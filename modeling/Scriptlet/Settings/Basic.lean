import Scriptlet.Frontend
import Scriptlet.Settings.Document.Entry
import Scriptlet.Settings.Path

/-!
# Settings

Settings are kept as written. Those that are missing get defaults, and those that name one of a few
choices are checked. A document defines settings in sections; keys it does not know are ignored, and
section and key names match whatever their case.
-/

namespace Scriptlet

/-! ## §1 Settings and their sections -/

/-- The settings, as written. -/
structure Settings where
  /-- How programs are read. -/
  strategy : Text := []
  /-- What the shell shows before a line. -/
  prompt : Text := []
  /-- What the shell shows before a line that continues others. -/
  continuation : Text := []
  /-- Where the shell keeps earlier lines. -/
  historyFile : Text := []
  /-- What the shell does with a program. -/
  mode : Text := []
  /-- Which log records are written. -/
  level : Text := []
  /-- How log records are written. -/
  format : Text := []
  /-- Where listings are written. -/
  output : Text := []
  deriving DecidableEq, Repr

/-- Why settings cannot be used. -/
inductive SettingsError where
  /-- There is no such file. -/
  | notFound (path : Text)
  /-- The document is malformed, or a setting is not a string. -/
  | malformed
  | unknownStrategy (name : Text)
  | unknownMode (name : Text)
  | unknownLevel (name : Text)
  | unknownFormat (name : Text)
  /-- The settings of a file cannot be used. -/
  | inFile (path : Text) (e : SettingsError)
  deriving DecidableEq, Repr

/-- The wording of an error. -/
def SettingsError.message : SettingsError → Text
  | .notFound path => "config file not found: " ++ path
  | .malformed => "failed to parse config"
  | .unknownStrategy name => "parser.strategy: " ++ Strategy.unknownName name
  | .unknownMode name => "repl.mode: unknown mode " ++ name.quoted
  | .unknownLevel name => "log.level: unknown level " ++ name.quoted
  | .unknownFormat name => "log.format: unknown format " ++ name.quoted
  | .inFile path e => path ++ ": " ++ e.message

namespace Settings

/-- A setting: its section, its key and how it is set. -/
structure Field where
  section_ : Text
  key : Text
  set : Settings → Text → Settings

/-- The settings that documents define. -/
def fields : List Field :=
  [ ⟨"parser", "strategy", fun s t => { s with strategy := t }⟩,
    ⟨"repl", "prompt", fun s t => { s with prompt := t }⟩,
    ⟨"repl", "continuation", fun s t => { s with continuation := t }⟩,
    ⟨"repl", "history_file", fun s t => { s with historyFile := t }⟩,
    ⟨"repl", "mode", fun s t => { s with mode := t }⟩,
    ⟨"log", "level", fun s t => { s with level := t }⟩,
    ⟨"log", "format", fun s t => { s with format := t }⟩,
    ⟨"codegen", "output", fun s t => { s with output := t }⟩ ]

/-- Takes over one entry of a section. -/
def takeSetting (name : Text) (s : Settings) (d : Text × Document.Entry) :
    Except SettingsError Settings :=
  match fields.find? fun f => f.section_.sameFolded name && f.key.sameFolded d.1, d.2 with
  | some f, .string t => .ok (f.set s t)
  | some _, _ => .error .malformed
  | none, _ => .ok s

/-- Takes over one entry of a document. -/
def takeEntry (s : Settings) (d : Text × Document.Entry) : Except SettingsError Settings :=
  if fields.any fun f => f.section_.sameFolded d.1 then
    match d.2 with
    | .table entries => entries.foldlM (takeSetting d.1) s
    | _ => .error .malformed
  else .ok s

/-- The settings that a document defines. -/
def ofDocument (t : Text) : Except SettingsError Settings :=
  match Document.read? t with
  | some entries => entries.foldlM takeEntry {}
  | none => .error .malformed

/-! ## §2 Defaults -/

/-- The text, or another if it is empty. -/
def orElse (t default : Text) : Text := if t.isEmpty then default else t

/-- Where earlier lines are kept by default; nowhere without a home directory. -/
def defaultHistory (home : Text) : Text :=
  if home.isEmpty then [] else Path.join [home, ".pivot_history"]

/-- The settings with those that are missing filled in. -/
def withDefaults (home : Text) (s : Settings) : Settings where
  strategy := orElse s.strategy Strategy.combinator.name
  prompt := orElse s.prompt "pivot> "
  continuation := orElse s.continuation ".... "
  historyFile := orElse s.historyFile (defaultHistory home)
  mode := orElse s.mode "eval"
  level := orElse s.level "warn"
  format := orElse s.format "text"
  output := s.output

/-! ## §3 Choices -/

/-- The strategy that was chosen; the first one if there is none of that name. -/
def chosen (s : Settings) : Strategy := (Strategy.ofName? s.strategy).getD .combinator

/-- The names of the modes of the shell. -/
def modes : List Text := ["eval", "ast", "tree"]

/-- The names of levels. -/
def levels : List Text := ["debug", "info", "warn", "warning", "error"]

/-- The names of formats. -/
def formats : List Text := ["text", "json"]

/-- Checks the settings that name a choice, in order. -/
def validate (s : Settings) : Except SettingsError Unit :=
  if (Strategy.ofName? s.strategy).isNone then .error (.unknownStrategy s.strategy)
  else if !modes.contains s.mode then .error (.unknownMode s.mode)
  else if !levels.contains s.level.lower then .error (.unknownLevel s.level)
  else if !formats.contains s.format.lower then .error (.unknownFormat s.format)
  else .ok ()

end Settings

end Scriptlet
