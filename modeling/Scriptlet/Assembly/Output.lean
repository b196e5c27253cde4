import Scriptlet.Assembly.Emit
import Scriptlet.Sink

/-!
# Writing listings

A listing is written through a buffer, line by line. A line that does not fit fills the buffer,
which is then written out; what is left of the line starts the next one, or is written directly if
it is longer than a whole buffer. The first refusal stops all output. After the last line the rest
is written out, but not if the program could not be emitted: what filled whole buffers by then has
been written already.
-/

namespace Scriptlet

namespace Assembly

/-- The number of bytes a buffer holds. -/
def bufferSize : Nat := 4096

/-- A buffer in front of a sink. -/
structure Buffered where
  /-- Bytes not yet written. -/
  pending : Text
  sink : Sink
  /-- What the sink said when it refused a write. -/
  refusal : Option Text

namespace Buffered

/-- Writes bytes to the sink. -/
def direct (b : Buffered) (t : Text) : Buffered :=
  match b.sink.write t with
  | .ok sink => { b with sink := sink }
  | .error complaint => { b with refusal := some complaint }

/-- Writes out what is pending. -/
def flush (b : Buffered) : Buffered :=
  if b.refusal.isSome || b.pending.isEmpty then b else { b.direct b.pending with pending := [] }

/-- Takes a line. -/
def put (b : Buffered) (t : Text) : Buffered :=
  if b.refusal.isSome then b
  else
    let room := bufferSize - b.pending.length
    if t.length ≤ room then { b with pending := b.pending ++ t }
    else if b.pending.isEmpty then b.direct t
    else
      let b' := { b with pending := b.pending ++ t.take room }.flush
      let rest := t.drop room
      if b'.refusal.isSome then b'
      else if rest.length ≤ bufferSize then { b' with pending := rest }
      else b'.direct rest

end Buffered

/-- Why a listing was not written. -/
inductive OutputError where
  /-- The program has no code. -/
  | emission (e : EmitError)
  /-- The sink refused a write, saying this. -/
  | refused (complaint : Text)

/-- Writes the listing of a node. An error of the program is reported before one of the sink. -/
def write (x : Node) (sink : Sink) : Sink × Except OutputError Unit :=
  let emission := emitTop x
  let b := emission.code.foldl (fun b l => b.put l.text) (⟨[], sink, none⟩ : Buffered)
  match emission.result with
  | .error e => (b.sink, .error (.emission e))
  | .ok _ =>
    let b := b.flush
    match b.refusal with
    | some complaint => (b.sink, .error (.refused complaint))
    | none => (b.sink, .ok ())

end Assembly

end Scriptlet
