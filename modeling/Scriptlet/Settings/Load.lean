import Scriptlet.Host
import Scriptlet.Settings.Basic
import Scriptlet.Settings.Expansion

/-!
# Finding and loading settings

Settings come from a file that is named, or from the first that exists of two usual places; without
any the defaults apply. Variables are replaced in the name of the file and in the settings that are
paths.
-/

namespace Scriptlet

namespace Settings

variable {m : Type → Type} [Monad m] [Host m]

/-- The home directory, empty if there is none. -/
def home : m Text := Host.valueOf "HOME"

/-- The default settings. -/
def default : m Settings := do return withDefaults (← home) {}

/-- The settings with variables replaced in those that are paths. -/
def expanded (s : Settings) : m Settings := do
  let historyFile ← Expansion.expand Host.valueOf s.historyFile
  let output ← Expansion.expand Host.valueOf s.output
  return { s with historyFile := historyFile, output := output }

/-- The settings of a document, completed and checked. -/
def decode (t : Text) : m (Except SettingsError Settings) := do
  match ofDocument t with
  | .error e => return .error e
  | .ok s =>
    let s ← expanded (withDefaults (← home) s)
    return s.validate.map fun _ => s

/-- An error of settings that were read from a file; one of the document itself does not name it. -/
def errorIn (path : Text) : SettingsError → SettingsError
  | .malformed => .malformed
  | e => .inFile path e

/-- The settings of the file at a path, in which variables are replaced. -/
def load (path : Text) : m (Except SettingsError Settings) := do
  let path ← Expansion.expand Host.valueOf path
  match ← Host.presence path with
  | .absent => return .error (.notFound path)
  | _ =>
    match ← Host.readFile path with
    | .error _ => return .error .malformed
    | .ok t => return (← decode t).mapError (errorIn path)

/-- The usual places of settings, in order. -/
def usualPaths (home : Text) : List Text :=
  let inHome := if home.isEmpty then [] else [Path.join [home, ".config", "pivot", "config.toml"]]
  "./pivot.toml" :: inHome

/-- The settings of the first file of a list that exists, or the defaults. -/
def loadFirst : List Text → m (Except SettingsError Settings)
  | [] => do return .ok (← default)
  | path :: rest => do
    match ← Host.presence path with
    | .present => load path
    | _ => loadFirst rest

/-- The settings of the file that a variable names, or of one of the usual places. -/
def find : m (Except SettingsError Settings) := do
  let path ← Host.valueOf "PIVOT_CONFIG"
  if path.isEmpty then loadFirst (usualPaths (← home)) else load path

end Settings

end Scriptlet
