import Scriptlet.Program.Node

/-!
# Frame layout

A function keeps its variables in words at fixed offsets from the frame pointer. The frame of a
function starts with the four words that its parameters are spilled to; locals follow below, one
word each. The frame of the entry point has locals only. Room for locals is reserved in multiples of
eight bytes.
-/

namespace Scriptlet

namespace Assembly

/-- The offsets of the variables of a frame. -/
structure Layout where
  /-- Names and offsets, newest first. -/
  slots : List (Text × Int)
  /-- The offset of the next local. -/
  next : Int
  /-- The number of locals. -/
  locals : Nat
  deriving DecidableEq, Repr

namespace Layout

/-- Parameters at consecutive words from `offset` on; of equal names the last counts. -/
def spill (offset : Int) : List Text → List (Text × Int) → List (Text × Int)
  | [], slots => slots
  | p :: ps, slots => spill (offset + 4) ps ((p, offset) :: slots)

/-- The frame of a function. -/
def ofParams (params : List Text) : Layout := ⟨spill (-16) params [], -20, 0⟩

/-- The frame of the entry point. -/
def ofMain : Layout := ⟨[], -4, 0⟩

/-- The offset of a name. -/
def offset? (l : Layout) (name : Text) : Option Int := l.slots.lookup name

/-- The offset of a name, which gets a word of its own if it has none. -/
def declare (l : Layout) (name : Text) : Int × Layout :=
  match l.offset? name with
  | some off => (off, l)
  | none => (l.next, ⟨(name, l.next) :: l.slots, l.next - 4, l.locals + 1⟩)

/-- The number of bytes reserved for locals. -/
def size (l : Layout) : Nat := (4 * l.locals + 7) / 8 * 8

mutual

/-- Gives a word to every variable that a statement declares, outside nested functions. -/
def reserve (l : Layout) : Node → Layout
  | .declare name _ _ => (l.declare name).2
  | .block stmts _ => l.reserveAll stmts
  | .choice _ yes no _ => (l.reserve yes).reserve no
  | .loop _ body _ => l.reserve body
  | _ => l

/-- Gives a word to every variable that some statements declare. -/
def reserveAll (l : Layout) : List Node → Layout
  | [] => l
  | x :: xs => (l.reserve x).reserveAll xs

end

end Layout

end Assembly

end Scriptlet
