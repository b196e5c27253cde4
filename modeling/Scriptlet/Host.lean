import Scriptlet.Settings.Path
import Scriptlet.Sink

/-!
# What commands ask of their surroundings

Commands look up variables, read and create files, read input and write output. `Host` lists these
requests, and commands are written for any monad that answers them. The answers of this module come
from a `World`, a value that holds all of it; a program that runs for real answers from the system.

## Contents

- §1 path errors and input
- §2 requests
- §3 disks
- §4 worlds
-/

namespace Scriptlet

/-! ## §1 Path errors and input -/

/-- Why a path cannot be used. -/
inductive PathFault where
  | missing
  | notDirectory
  | isDirectory
  /-- The path, or a name in it, is longer than the system takes. -/
  | tooLong
  /-- The path contains a zero byte. -/
  | invalid
  /-- There is no room for what is written. -/
  | full
  deriving DecidableEq, Repr

/-- The wording of a fault. -/
def PathFault.message : PathFault → Text
  | .missing => "no such file or directory"
  | .notDirectory => "not a directory"
  | .isDirectory => "is a directory"
  | .tooLong => "file name too long"
  | .invalid => "invalid argument"
  | .full => "no space left on device"

/-- What was being done with a path. -/
inductive PathAction where
  | opening
  | reading
  | writing
  | closing
  deriving DecidableEq, Repr

/-- The word for an action. -/
def PathAction.word : PathAction → Text
  | .opening => "open"
  | .reading => "read"
  | .writing => "write"
  | .closing => "close"

/-- A path that could not be used. -/
structure PathError where
  action : PathAction
  path : Text
  fault : PathFault
  deriving DecidableEq, Repr

/-- The wording of an error. -/
def PathError.message (e : PathError) : Text :=
  e.action.word ++ " " ++ e.path ++ ": " ++ e.fault.message

/-- Input up to its end, or up to a failure. -/
structure Input where
  text : Text
  /-- What is said when reading fails behind the text. -/
  complaint : Option Text
  deriving DecidableEq, Repr

/-- All of the input, or what is said when it cannot be read. -/
def Input.whole (i : Input) : Except Text Text :=
  match i.complaint with
  | some complaint => .error complaint
  | none => .ok i.text

/-- What is at a path. -/
inductive Presence where
  | present
  | absent
  /-- Something in the way cannot be passed. -/
  | blocked
  deriving DecidableEq, Repr

/-! ## §2 Requests -/

/-- The requests of commands. -/
class Host (m : Type → Type) where
  /-- The value of a variable, empty if it has none. -/
  valueOf : Text → m Text
  /-- What is at a path. -/
  presence : Text → m Presence
  /-- The contents of a file. -/
  readFile : Text → m (Except PathError Text)
  /-- Makes an empty file, or empties one. -/
  createFile : Text → m (Except PathError Unit)
  /-- Gives a created file its contents. If that fails, it has a leading part of them. -/
  fillFile : Text → Text → m (Except PathError Unit)
  /-- Ends the work with a created file. -/
  closeFile : Text → m (Except PathError Unit)
  /-- Everything that can be read from the input. -/
  input : m Input
  /-- Where output goes. -/
  output : m Sink
  /-- Replaces the sink of output by one that was written to. -/
  setOutput : Sink → m Unit
  /-- Writes to the channel for errors. -/
  report : Text → m Unit

/-- Actions that may fail make the same requests. -/
instance {ε : Type} {m : Type → Type} [Monad m] [Host m] : Host (ExceptT ε m) where
  valueOf name := ExceptT.lift (Host.valueOf name)
  presence path := ExceptT.lift (Host.presence path)
  readFile path := ExceptT.lift (Host.readFile path)
  createFile path := ExceptT.lift (Host.createFile path)
  fillFile path contents := ExceptT.lift (Host.fillFile path contents)
  closeFile path := ExceptT.lift (Host.closeFile path)
  input := ExceptT.lift Host.input
  output := ExceptT.lift Host.output
  setOutput out := ExceptT.lift (Host.setOutput out)
  report t := ExceptT.lift (Host.report t)

/-! ## §3 Disks -/

/-- Where a way through directories starts. -/
inductive Origin where
  /-- The working directory. -/
  | working
  /-- A directory above the working directory. -/
  | above
  | root
  deriving DecidableEq, Repr

/-- A place: the names on the way to it. -/
structure Place where
  origin : Origin
  names : List Text
  deriving DecidableEq, Repr

namespace Place

/-- The place with a name in the directory at another. -/
def child (p : Place) (name : Text) : Place := { p with names := p.names ++ [name] }

/-- The directory above; the root is above itself. -/
def parent (p : Place) : Place :=
  match p.origin, p.names with
  | .root, [] => p
  | _, [] => ⟨.above, []⟩
  | _, names => { p with names := names.dropLast }

/-- The directories that every system has, by their names from the root. -/
def standard : List (List Text) :=
  [["bin"], ["dev"], ["etc"], ["home"], ["opt"], ["proc"], ["root"], ["sys"], ["tmp"], ["usr"],
    ["usr", "bin"], ["usr", "lib"], ["var"], ["var", "tmp"]]

/-- There is a directory at the place in every system. -/
def isStandard (p : Place) : Bool := p.origin == .root && standard.contains p.names

/-- The place is reached through another. -/
def isUnder (p q : Place) : Bool :=
  p.origin == q.origin && q.names.isPrefixOf p.names && q.names.length < p.names.length

/-- The file that is empty whatever is written to it. -/
def null : Place := ⟨.root, ["dev", "null"]⟩

end Place

/-- What becomes of files that are written. -/
structure Medium where
  /-- The number of bytes that a file can hold, if there is a bound. -/
  room : Option Nat := none
  /-- What goes wrong whenever a file is closed. -/
  fault : Option PathFault := none
  deriving DecidableEq, Repr

namespace Medium

/-- As much of a text as there is room for. -/
def fitting (m : Medium) (t : Text) : Text :=
  match m.room with
  | some room => t.take room
  | none => t

/-- There is room for the whole text. -/
def fits (m : Medium) (t : Text) : Bool := m.room.all (t.length ≤ ·)

end Medium

/-- The files by place. A directory exists if there is a file under it, or if every
system has it. -/
structure Disk where
  files : List (Place × Text)
  medium : Medium := {}
  deriving DecidableEq, Repr

namespace Disk

/-- The length in bytes from which on a path is refused. -/
def pathLimit : Nat := 4096

/-- The length in bytes of the longest name. -/
def nameLimit : Nat := 255

/-- The contents of the file at a place. -/
def file? (d : Disk) (place : Place) : Option Text :=
  if place = .null then some [] else d.files.lookup place

/-- There is a directory at a place. -/
def isDirectory (d : Disk) (place : Place) : Bool :=
  place.names.isEmpty || place.isStandard || d.files.any fun (p, _) => p.isUnder place

/-- Follows the components of a path from a place; only directories can be passed. -/
def follow (d : Disk) (place : Place) : List Text → Except PathFault Place
  | [] => .ok place
  | c :: rest =>
    if !d.isDirectory place then
      .error (if (d.file? place).isSome then .notDirectory else .missing)
    else if c = [] ∨ c = "." then follow d place rest
    else if c = ".." then follow d place.parent rest
    else if c.length > nameLimit then .error .tooLong
    else follow d (place.child c) rest

/-- The place that a path leads to; an empty path leads nowhere. -/
def locate (d : Disk) (path : Text) : Except PathFault Place :=
  if path.contains 0 then .error .invalid
  else if path.isEmpty then .error .missing
  else if path.length ≥ pathLimit then .error .tooLong
  else d.follow ⟨if Path.isRooted path then .root else .working, []⟩ (Path.components path)

/-- What is at a path. -/
def presence (d : Disk) (path : Text) : Presence :=
  match d.locate path with
  | .ok place => if (d.file? place).isSome || d.isDirectory place then .present else .absent
  | .error .missing => .absent
  | .error _ => .blocked

/-- The contents of the file at a path. -/
def read (d : Disk) (path : Text) : Except PathError Text :=
  match d.locate path with
  | .error fault => .error ⟨.opening, path, fault⟩
  | .ok place =>
    match d.file? place with
    | some contents => .ok contents
    | none =>
      if d.isDirectory place then .error ⟨.reading, path, .isDirectory⟩
      else .error ⟨.opening, path, .missing⟩

/-- Gives the file at a place its contents. -/
def put (d : Disk) (place : Place) (contents : Text) : Disk :=
  { d with files := (place, contents) :: d.files.filter fun (p, _) => p != place }

/-- Makes the file at a path, or replaces its contents. A path that ends in a slash names a
directory, whatever is there. -/
def write (d : Disk) (path contents : Text) : Except PathError Disk :=
  match d.locate (Path.withoutLastSlashes path) with
  | .error fault => .error ⟨.opening, path, fault⟩
  | .ok place =>
    if d.isDirectory place || Path.endsInSlash path then .error ⟨.opening, path, .isDirectory⟩
    else .ok (d.put place contents)

/-- What becomes of a file at a path; the null device takes everything. -/
def mediumAt (d : Disk) (path : Text) : Medium :=
  match d.locate (Path.withoutLastSlashes path) with
  | .ok place => if place = .null then {} else d.medium
  | .error _ => d.medium

/-- A disk with the files at the given paths from the working directory. -/
def ofFiles (files : List (Text × Text)) : Disk where
  files := files.map fun (path, contents) =>
    (⟨.working, Path.components (Path.clean path)⟩, contents)

/-- The files under the working directory that differ from those of an earlier disk, by path. -/
def changes (d before : Disk) : List (Text × Text) :=
  (d.files.filter fun (p, contents) =>
    p.origin == .working && before.file? p != some contents).map
    fun (p, contents) => (Text.join [Path.slash] p.names, contents)

end Disk

/-! ## §4 Worlds -/

/-- All that commands can ask for. -/
structure World where
  environment : List (Text × Text)
  disk : Disk
  input : Input
  output : Sink
  /-- What was written to the channel for errors. -/
  errors : Sink

namespace World

/-- The value of a variable, empty if it has none. -/
def valueOf (w : World) (name : Text) : Text := (w.environment.lookup name).getD []

/-- Replaces the contents of a file as far as there is room. -/
def fill (w : World) (path contents : Text) : Except PathError Unit × World :=
  let medium := w.disk.mediumAt path
  match w.disk.write path (medium.fitting contents) with
  | .ok disk =>
    (if medium.fits contents then .ok () else .error ⟨.writing, path, .full⟩,
      { w with disk := disk })
  | .error e => (.error e, w)

/-- How closing a file ends. -/
def close (w : World) (path : Text) : Except PathError Unit :=
  match (w.disk.mediumAt path).fault with
  | some fault => .error ⟨.closing, path, fault⟩
  | none => .ok ()

end World

instance : Host (StateM World) where
  valueOf name := do return (← get).valueOf name
  presence path := do return (← get).disk.presence path
  readFile path := do return (← get).disk.read path
  createFile path := do
    match (← get).disk.write path [] with
    | .ok disk =>
      modify fun w => { w with disk := disk }
      return .ok ()
    | .error e => return .error e
  fillFile path contents := modifyGet (·.fill path contents)
  closeFile path := do return (← get).close path
  input := do return (← get).input
  output := do return (← get).output
  setOutput out := modify fun w => { w with output := out }
  report t := modify fun w => { w with errors := w.errors.offer t }

end Scriptlet
