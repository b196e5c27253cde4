import Scriptlet.Command.Perform

/-!
# The command line

The requests of commands answered by the system, and the entry point of the program. A failure is
reported in one line and ends the program with status one.
-/

namespace Scriptlet

/-- A text as a string, U+FFFD standing for each stray byte. -/
def Text.toString (t : Text) : String := String.ofList t.chars

/-- The fault that an error of the system stands for. -/
def PathFault.ofSystem : IO.Error → PathFault
  | .inappropriateType .. => .isDirectory
  | .noFileOrDirectory .. => .missing
  | .invalidArgument .. => .invalid
  | .resourceExhausted .. => .full
  | _ => .notDirectory

/-- Everything that is left of a stream. -/
partial def readRest (stream : IO.FS.Stream) (sofar : ByteArray) : IO ByteArray := do
  let bytes ← stream.read 65536
  if bytes.isEmpty then return sofar else readRest stream (sofar ++ bytes)

/-- The bytes of a text. -/
def Text.toBytes (t : Text) : ByteArray := ⟨t.toArray⟩

/-- The contents of a file. -/
def readSystemFile (path : Text) : IO (Except PathFault Text) := do
  try
    let bytes ← IO.FS.readBinFile path.toString
    return .ok bytes.toList
  catch e => return .error (.ofSystem e)

instance : Host IO where
  valueOf name := do
    match ← IO.getEnv name.toString with
    | some v => return Text.ofString v
    | none => return []
  presence path := do
    match ← readSystemFile path with
    | .ok _ | .error .isDirectory => return .present
    | .error .missing => return .absent
    | .error _ => return .blocked
  readFile path := do
    match ← readSystemFile path with
    | .ok t => return .ok t
    | .error .isDirectory => return .error ⟨.reading, path, .isDirectory⟩
    | .error fault => return .error ⟨.opening, path, fault⟩
  createFile path := do
    try
      IO.FS.writeBinFile path.toString .empty
      return .ok ()
    catch e => return .error ⟨.opening, path, .ofSystem e⟩
  fillFile path contents := do
    try
      IO.FS.writeBinFile path.toString contents.toBytes
      return .ok ()
    catch e => return .error ⟨.writing, path, .ofSystem e⟩
  -- the file is closed when it has been filled
  closeFile _ := return .ok ()
  input := do
    let bytes ← readRest (← IO.getStdin) .empty
    return ⟨bytes.toList, none⟩
  output := return .unlimited
  setOutput out := do (← IO.getStdout).write (Text.toBytes out.contents)
  report t := do (← IO.getStderr).write t.toBytes

end Scriptlet

/-- Carries out what the arguments ask for. -/
def main (args : List String) : IO UInt32 := do
  let action : ExceptT Scriptlet.Failure IO Unit :=
    Scriptlet.Command.performArguments (args.map Scriptlet.Text.ofString)
  match ← action.run with
  | .ok _ => return 0
  | .error e =>
    Scriptlet.Host.report (Scriptlet.Text.line ("pivot: " ++ e.message))
    return 1
