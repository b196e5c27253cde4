import Scriptlet.Assembly.Output
import Scriptlet.Command.Flag
import Scriptlet.Eval.Machine
import Scriptlet.Host
import Scriptlet.Program.Yaml
import Scriptlet.Settings.Basic

/-!
# Failures

Everything that can go wrong between arguments and output, as one type. A failure may name the
program it happened in or what was being done, in front of its own words.
-/

namespace Scriptlet

/-- Why something was not done. -/
inductive Failure where
  /-- The source is no program. -/
  | source (e : SourceError)
  | runtime (e : RuntimeError)
  /-- A name cannot be used. -/
  | naming (e : NameFault)
  /-- A function was left where none was being executed. -/
  | leftAtTop
  /-- The program has no code. -/
  | emission (e : Assembly.EmitError)
  /-- A string is not UTF-8. -/
  | unprintable
  /-- Output was refused. -/
  | refused (complaint : Text)
  /-- Input could not be read. -/
  | unreadable (complaint : Text)
  | path (e : PathError)
  | settings (e : SettingsError)
  | usage (e : UsageError)
  /-- A failure in something, or while doing something. -/
  | within (label : Text) (e : Failure)

namespace Failure

/-- The wording of a failure. -/
def message : Failure → Text
  | .source e => e.message
  | .runtime e => e.message
  | .naming e => e.message
  | .leftAtTop => "return outside of function"
  | .emission e => e.message
  | .unprintable => yamlRefusal
  | .refused complaint => complaint
  | .unreadable complaint => complaint
  | .path e => e.message
  | .settings e => e.message
  | .usage e => e.message
  | .within label e => label ++ ": " ++ e.message

/-- The failure itself, whatever it happened in. -/
def cause : Failure → Failure
  | .within _ e => e.cause
  | e => e

/-- More input could have avoided the failure. -/
def isIncomplete (f : Failure) : Bool :=
  match f.cause with
  | .source e => e.isIncomplete
  | _ => false

/-- A failure of an evaluation. -/
def ofEval : EvalError → Failure
  | .runtime e => .runtime e
  | .refused complaint => .refused complaint

/-- A failure of writing a listing. -/
def ofOutput : Assembly.OutputError → Failure
  | .emission e => .emission e
  | .refused complaint => .refused complaint

end Failure

/-- The value that an evaluation ended with. -/
def Outcome.result : Outcome → Except Failure Value
  | .value v => .ok v
  | .left _ => .error .leftAtTop
  | .failed e => .error (.ofEval e)

/-- Reads a program and runs it. There is no result if the evaluation takes too long. -/
def Session.runSource (s : Session) (strategy : Strategy) (source : Text) :
    Option (Except Failure Value) × Session :=
  match readProgram strategy source with
  | .error e => (some (.error (.source e)), s)
  | .ok p =>
    match s.run stepLimit p with
    | some (outcome, s) => (some outcome.result, s)
    | none => (none, s)

end Scriptlet
