/-!
# Byte texts

A source file, a string value and a message are all sequences of bytes. They usually are UTF-8, but
nothing forces them to be, so `Text` is the list of bytes itself and every operation says what it
does with bytes that encode no character.

This module holds the texts of characters, literals and numbers, cutting texts into pieces and
lines, and the order on texts.
-/

namespace Scriptlet

/-- A text is the list of its bytes. -/
abbrev Text := List UInt8

namespace Text

/-! ## §1 Characters and literals -/

/-- The UTF-8 bytes of one character. -/
def ofChar (c : Char) : Text := String.utf8EncodeChar c

/-- The UTF-8 bytes of a sequence of characters. -/
def ofChars (cs : List Char) : Text := cs.flatMap ofChar

/-- The UTF-8 bytes of a string. -/
def ofString (s : String) : Text := ofChars s.toList

instance : Coe String Text := ⟨ofString⟩

@[simp] theorem ofChars_nil : ofChars [] = [] := rfl

@[simp] theorem ofChars_cons (c : Char) (cs : List Char) :
    ofChars (c :: cs) = ofChar c ++ ofChars cs := rfl

@[simp] theorem ofChars_append (cs ds : List Char) :
    ofChars (cs ++ ds) = ofChars cs ++ ofChars ds := by
  simp [ofChars]

/-- The byte that ends a line. -/
def newline : UInt8 := 10

/-! ## §2 Joining -/

/-- The parts in order with `sep` between neighbours. -/
def join (sep : Text) : List Text → Text
  | [] => []
  | [part] => part
  | part :: rest => part ++ sep ++ join sep rest

/-- The parts in order with one space between neighbours. -/
def words (parts : List Text) : Text := join " " parts

/-- The text followed by a line end. -/
def line (t : Text) : Text := t ++ [newline]

/-! ## §3 Cutting -/

/-- The pieces between the bytes `sep`; a text without it is one piece. -/
def split (sep : UInt8) : Text → List Text
  | [] => [[]]
  | b :: rest =>
    match split sep rest with
    | [] => [[b]]
    | piece :: pieces => if b == sep then [] :: piece :: pieces else (b :: piece) :: pieces

/-- The lines of the text, each with the byte that ends it, and what follows the last line end. -/
def lines : Text → List Text × Text
  | [] => ([], [])
  | b :: rest =>
    match lines rest with
    | ([], tail) => if b == newline then ([[b]], tail) else ([], b :: tail)
    | (l :: ls, tail) => if b == newline then ([b] :: l :: ls, tail) else ((b :: l) :: ls, tail)

/-! ## §4 Numbers -/

/-- Decimal text of a natural number. -/
def ofNat (n : Nat) : Text := ofChars (Nat.toDigits 10 n)

/-- Decimal text of an integer; only negative numbers carry a sign. -/
def ofInt : Int → Text
  | .ofNat n => ofNat n
  | .negSucc n => "-" ++ ofNat (n + 1)

/-- Lower-case hexadecimal digits of `n`, at least `width` of them. -/
def hex (width n : Nat) : List Char :=
  let digits := Nat.toDigits 16 n
  List.replicate (width - digits.length) '0' ++ digits

/-- The label with a number; numbers without one are unknown. -/
def labelAt (labels : List Text) (code : Int) : Text :=
  match code with
  | .ofNat n => labels.getD n "unknown"
  | .negSucc _ => "unknown"

/-! ## §5 Order and search -/

/-- Byte-wise lexicographic order, a proper start of a text coming first. -/
def order : Text → Text → Ordering
  | [], [] => .eq
  | [], _ :: _ => .lt
  | _ :: _, [] => .gt
  | a :: as, b :: bs => if a < b then .lt else if b < a then .gt else order as bs

/-- Whether `t` begins with `start`. -/
def startsWith (t start : Text) : Bool := start.isPrefixOf t

end Text

end Scriptlet
