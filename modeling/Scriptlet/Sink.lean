import Scriptlet.Text.Basic

/-!
# Places that output goes to

A sink takes whole writes. It may have a limit: a write that would push the total above it is
refused and leaves nothing behind. The sink remembers whether its last line is still open, so that
whoever shares it can start on a new one; writes that only steer the terminal do not count for that.
-/

namespace Scriptlet

/-- Where output goes. -/
structure Sink where
  /-- The number of bytes it can hold, if it is limited. -/
  limit : Option Nat
  /-- What it says when it refuses a write. -/
  complaint : Text
  /-- What was written, newest write first. -/
  writes : List Text
  /-- The number of bytes written. -/
  size : Nat
  /-- The last write that counts did not end its line. -/
  lineOpen : Bool
  deriving DecidableEq, Repr

namespace Sink

/-- An empty sink. -/
def empty (limit : Option Nat) (complaint : Text) : Sink := ⟨limit, complaint, [], 0, false⟩

/-- An empty sink without limit. -/
def unlimited : Sink := empty none []

/-- Everything written, in order. -/
def contents (s : Sink) : Text := s.writes.reverse.flatten

/-- The sink takes a write of the length. -/
def accepts (s : Sink) (length : Nat) : Bool :=
  match s.limit with
  | some limit => s.size + length ≤ limit
  | none => true

/-- Writes a text that only steers the terminal. A refused write leaves the sink as it was. -/
def steer (s : Sink) (t : Text) : Sink :=
  if s.accepts t.length then
    { s with writes := t :: s.writes, size := s.size + t.length }
  else s

/-- Writes a text, or says why it is refused. -/
def write (s : Sink) (t : Text) : Except Text Sink :=
  if s.accepts t.length then
    .ok
      { s with
        writes := t :: s.writes
        size := s.size + t.length
        lineOpen :=
          match t.getLast? with
          | some b => b != Text.newline
          | none => s.lineOpen }
  else .error s.complaint

/-- Writes a text if the sink takes it. -/
def offer (s : Sink) (t : Text) : Sink :=
  match s.write t with
  | .ok s' => s'
  | .error _ => s

/-- Ends the line if it is open. -/
def finishLine (s : Sink) : Sink := if s.lineOpen then s.offer [Text.newline] else s

section

variable {s s' : Sink} {t : Text}

/-- A write that succeeds is there, behind what was. -/
theorem contents_write (h : s.write t = .ok s') : s'.contents = s.contents ++ t := by
  unfold write at h
  split at h
  · cases h
    simp [contents]
  · cases h

theorem limit_write (h : s.write t = .ok s') : s'.limit = s.limit := by
  unfold write at h
  split at h
  · cases h
    rfl
  · cases h

/-- The line is open behind a text that does not end it. -/
theorem lineOpen_write (h : s.write t = .ok s') :
    s'.lineOpen = t.getLast?.elim s.lineOpen (· != Text.newline) := by
  unfold write at h
  split at h
  · cases h
    cases t.getLast? <;> rfl
  · cases h

/-- A sink without limit takes every text. -/
theorem write_of_unlimited (h : s.limit = none) (t : Text) : s.write t = .ok (s.offer t) := by
  have haccepts : s.accepts t.length = true := by rw [accepts, h]
  simp [offer, write, haccepts]

/-- What steers the terminal is no line: the limit and the state of the line are as they were. -/
@[simp] theorem limit_steer (s : Sink) (t : Text) : (s.steer t).limit = s.limit := by
  unfold steer
  split <;> rfl

@[simp] theorem lineOpen_steer (s : Sink) (t : Text) : (s.steer t).lineOpen = s.lineOpen := by
  unfold steer
  split <;> rfl

/-- Without a limit, what is steered into a sink is there. -/
theorem contents_steer (h : s.limit = none) (t : Text) :
    (s.steer t).contents = s.contents ++ t := by
  have haccepts : s.accepts t.length = true := by rw [accepts, h]
  simp [steer, haccepts, contents]

end

end Sink

end Scriptlet
