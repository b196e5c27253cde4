import Scriptlet.Assembly.Emit
import Scriptlet.Assembly.Instr
import Scriptlet.Assembly.Layout
import Scriptlet.Assembly.Output
import Scriptlet.Command.Flag
import Scriptlet.Command.Perform
import Scriptlet.Decimal.Reading
import Scriptlet.Decimal.Shortest
import Scriptlet.Decimal.Written
import Scriptlet.Eval.Machine
import Scriptlet.Eval.Operation
import Scriptlet.Eval.Power
import Scriptlet.Eval.Scope
import Scriptlet.Eval.Value
import Scriptlet.Failure
import Scriptlet.Forest.Fold
import Scriptlet.Forest.Levelwise
import Scriptlet.Forest.Loose
import Scriptlet.Forest.Lower
import Scriptlet.Forest.Precedence
import Scriptlet.Forest.Reduce
import Scriptlet.Forest.Tree
import Scriptlet.Frontend
import Scriptlet.Host
import Scriptlet.Location
import Scriptlet.Log
import Scriptlet.Main
import Scriptlet.Parser.Basic
import Scriptlet.Parser.Form
import Scriptlet.Parser.Grammar
import Scriptlet.Program.Node
import Scriptlet.Program.Sexpr
import Scriptlet.Program.Yaml
import Scriptlet.Settings.Basic
import Scriptlet.Settings.Document.Entry
import Scriptlet.Settings.Document.Number
import Scriptlet.Settings.Document.Quoted
import Scriptlet.Settings.Document.Statement
import Scriptlet.Settings.Expansion
import Scriptlet.Settings.Load
import Scriptlet.Settings.Path
import Scriptlet.Shell
import Scriptlet.Sink
import Scriptlet.Terminal.Scan
import Scriptlet.Text.Base64
import Scriptlet.Text.Basic
import Scriptlet.Text.Blank
import Scriptlet.Text.Cluster
import Scriptlet.Text.Glyph
import Scriptlet.Text.Printable
import Scriptlet.Text.Quoted
import Scriptlet.Text.Table
import Scriptlet.Text.Width
import Scriptlet.Token.Lexeme
import Scriptlet.Token.Mark
import Scriptlet.Token.Scan
import Scriptlet.Yaml.Scalar
import Scriptlet.Proofs.Derivation
import Scriptlet.Proofs.Expression
import Scriptlet.Proofs.Agreement
import Scriptlet.Proofs.Phrases
import Scriptlet.Proofs.Rendering
import Scriptlet.Proofs.RoundTrip
import Scriptlet.Proofs.Behaviour
import Scriptlet.Proofs.Scanners
import Scriptlet.Proofs.Incomplete
import Scriptlet.Proofs.Translation
import Scriptlet.Proofs.Folding
import Scriptlet.Proofs.Reduction
import Scriptlet.Proofs.Discipline
import Scriptlet.Proofs.Marks
import Scriptlet.Proofs.Precedence
import Scriptlet.Proofs.Chunks
import Scriptlet.Proofs.Crashes
import Scriptlet.Proofs.Finality
import Scriptlet.Proofs.Separators
import Scriptlet.Proofs.Unclosed
import Scriptlet.Proofs.Accessors
import Scriptlet.Proofs.Heads
import Scriptlet.Proofs.Nesting
import Scriptlet.Proofs.WellFormed
import Scriptlet.Proofs.Respelling
import Scriptlet.Proofs.Literals
import Scriptlet.Proofs.Legible
import Scriptlet.Proofs.Bindings
import Scriptlet.Proofs.Depth
import Scriptlet.Proofs.Branches
import Scriptlet.Proofs.Listings
import Scriptlet.Proofs.Slots
import Scriptlet.Proofs.Comparison
import Scriptlet.Proofs.Disk
import Scriptlet.Proofs.Strings
import Scriptlet.Proofs.Composition
import Scriptlet.Proofs.Termination
import Scriptlet.Proofs.LineEnds
import Scriptlet.Proofs.Transcript
