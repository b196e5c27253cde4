import Scriptlet.Program.Node
import Scriptlet.Decimal.Written
import Scriptlet.Text.Quoted

/-!
# Programs as s-expressions

Every node is written on one line in parentheses with its head first. Numbers, quoted strings and
names stand for themselves, and a part that is missing is `nil`, except that the value of a return
and the second branch of a choice are left out.
-/

namespace Scriptlet

namespace Node

/-- A head and items in parentheses. -/
def listText (head : Text) (items : List Text) : Text := "(" ++ Text.words (head :: items) ++ ")"

mutual

/-- The node as an s-expression. -/
def sexpr : Node → Text
  | .missing => "nil"
  | .number v _ => Decimal.written v
  | .string v _ => v.quoted
  | .ident n _ => n
  | .unary op x _ => listText op.symbol [x.sexpr]
  | .binary op x y _ => listText op.symbol [x.sexpr, y.sexpr]
  | .call f args _ => listText ("call " ++ f) (sexprs args)
  | .giveBack .missing _ => "(return)"
  | .giveBack x _ => listText "return" [x.sexpr]
  | .block ss _ => listText "block" (sexprs ss)
  | .choice c x .missing _ => listText "if" [c.sexpr, x.sexpr]
  | .choice c x y _ => listText "if" [c.sexpr, x.sexpr, y.sexpr]
  | .loop c x _ => listText "while" [c.sexpr, x.sexpr]
  | .declare n x _ => listText ("var " ++ n) [x.sexpr]
  | .assign n x _ => listText ("set " ++ n) [x.sexpr]
  | .function n ps ss _ _ =>
    listText ("function " ++ n) ["(" ++ Text.words ps ++ ")", listText "block" (sexprs ss)]
  | .prototype n ps _ => listText ("function " ++ n) ["(" ++ Text.words ps ++ ")", "nil"]
  | .main ss _ => listText "main" (sexprs ss)
  | .assert c _ => listText "assert" [c.sexpr]

/-- The nodes as s-expressions. -/
def sexprs : List Node → List Text
  | [] => []
  | x :: xs => x.sexpr :: sexprs xs

end

end Node

end Scriptlet
