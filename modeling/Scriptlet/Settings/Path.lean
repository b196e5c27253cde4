import Scriptlet.Text.Basic

/-!
# Paths as texts

Paths are joined by slashes and then *cleaned* without looking at any disk: empty and single-dot
components go, and a double dot takes the component before it along, if there is one.
-/

namespace Scriptlet

namespace Path

/-- The byte between components. -/
def slash : UInt8 := 47

/-- The components of a path; empty ones stand where slashes repeat or end the path. -/
def components (path : Text) : List Text := path.split slash

/-- The path starts at the root. -/
def isRooted (path : Text) : Bool := path.head? == some slash

/-- The path ends in a slash. -/
def endsInSlash (path : Text) : Bool := path.getLast? == some slash

/-- The path up to the slashes it ends in; the path of the root keeps one. -/
def withoutLastSlashes (path : Text) : Text :=
  match (path.reverse.dropWhile (· == slash)).reverse with
  | [] => path.take 1
  | body => body

/-- Adds a component to those kept so far, newest first. -/
def keep (rooted : Bool) (kept : List Text) (c : Text) : List Text :=
  if c = [] ∨ c = "." then kept
  else if c = ".." then
    match kept with
    | [] => if rooted then [] else [c]
    | k :: rest => if k = ".." then c :: k :: rest else rest
  else c :: kept

/-- The shortest path that means the same. -/
def clean (path : Text) : Text :=
  let rooted := isRooted path
  let kept := ((components path).foldl (keep rooted) []).reverse
  let body := Text.join [slash] kept
  if rooted then slash :: body else if kept.isEmpty then "." else body

/-- The parts as one path; empty parts at the start are left out. -/
def join (parts : List Text) : Text :=
  match parts.dropWhile List.isEmpty with
  | [] => []
  | kept => clean (Text.join [slash] kept)

end Path

end Scriptlet
