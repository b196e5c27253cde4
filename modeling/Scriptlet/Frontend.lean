import Scriptlet.Forest.Lower
import Scriptlet.Parser.Grammar
import Scriptlet.Text.Blank

/-!
# Reading programs

A program is read by one of two strategies: by the grammar, or by reducing a forest and lowering it.
Errors of both say where the source went wrong and whether more input could complete it.
-/

namespace Scriptlet

/-! ## §1 Strategies -/

/-- A way to read programs. -/
inductive Strategy where
  /-- The grammar over terminals. -/
  | combinator
  /-- Reduction of a forest of tokens. -/
  | reducer
  /-- A number that names no strategy. -/
  | unknown (number : Int)
  deriving DecidableEq, Repr

namespace Strategy

/-- The strategy with a number. -/
def ofNumber : Int → Strategy
  | 0 => .combinator
  | 1 => .reducer
  | n => .unknown n

/-- The number of a strategy. -/
def number : Strategy → Int
  | .combinator => 0
  | .reducer => 1
  | .unknown n => n

/-- The name of a strategy. -/
def name : Strategy → Text
  | .combinator => "combinator"
  | .reducer => "reducer"
  | .unknown _ => "unknown"

/-- The strategy with a name; case and white space around it do not matter, and an empty name is the
first strategy. -/
def ofName? (t : Text) : Option Strategy :=
  let key := t.trim.lower
  if key.isEmpty || key = Strategy.combinator.name then some .combinator
  else if key = Strategy.reducer.name then some .reducer
  else none

/-- The wording of a name that no strategy has. -/
def unknownName (t : Text) : Text := "unknown parser strategy " ++ t.quoted

end Strategy

/-! ## §2 Errors -/

/-- Why a source is no program. -/
inductive SourceError where
  | lexical (e : LexError)
  | unbalanced (e : UnbalancedError)
  | construct (e : ConstructError)
  | grammar (e : ParseError)
  | unknownStrategy (number : Int)
  deriving DecidableEq, Repr

namespace SourceError

/-- An error of a forest. -/
def ofForest : ForestError → SourceError
  | .lexical e => .lexical e
  | .unbalanced e => .unbalanced e
  | .construct e => .construct e

/-- The wording of an error with its place. -/
def message : SourceError → Text
  | .lexical e => e.loc.tagged e.fault.message
  | .unbalanced e => e.loc.tagged ("unbalanced delimiters: " ++ e.cause.message)
  | .construct e => e.loc.tagged e.message
  | .grammar e => e.loc.tagged e.fault.message
  | .unknownStrategy n => "unknown parser strategy " ++ Text.ofInt n

/-- More input could complete the source. -/
def isIncomplete : SourceError → Bool
  | .lexical e => e.fault.isIncomplete
  | .unbalanced e => e.cause.isIncomplete
  | .construct _ => false
  | .grammar e => e.fault.isIncomplete
  | .unknownStrategy _ => false

end SourceError

/-! ## §3 Reading -/

/-- The reduced forest of a source. -/
def readForest (source : Text) : Except SourceError (List Tree) :=
  (forestOf source).mapError .ofForest

/-- The program of a source. -/
def readProgram (strategy : Strategy) (source : Text) : Except SourceError Program :=
  match strategy with
  | .combinator => (Grammar.parse source).mapError .grammar
  | .reducer => do
    let forest ← readForest source
    (lower forest).mapError .construct
  | .unknown n => .error (.unknownStrategy n)

/-- A source as read from a file: a first line that starts with `#!` is blanked, so that line
numbers stay. -/
def blankDirective (contents : Text) : Text :=
  if contents.startsWith "#!" then contents.dropWhile (· != Text.newline) else contents

end Scriptlet
