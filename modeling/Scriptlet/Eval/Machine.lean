import Scriptlet.Eval.Operation
import Scriptlet.Sink

/-!
# The evaluator

Programs are evaluated by a machine. Its *control* says what is going on: a node is to be evaluated,
a value has been found, a function is being left, or something failed. Its *frames* say what to do
with the outcome, innermost first. A step looks at the control and at most one frame, so the depth
of calls is bounded by the language and not by the machine that runs it.

The state that outlives one evaluation is the *session*: scopes, output, and the entry point seen
last.

## Contents

- §1 sessions, frames and configurations
- §2 evaluating nodes
- §3 calling
- §4 delivering values
- §5 unwinding and steps
- §6 running
-/

namespace Scriptlet

/-! ## §1 Sessions and configurations -/

/-- An error with its place. -/
structure RuntimeError where
  fault : Fault
  loc : Location
  deriving DecidableEq, Repr

/-- The wording of an error; the place is left out if there is none. -/
def RuntimeError.message (e : RuntimeError) : Text :=
  if e.loc.line = 0 then e.fault.message else e.loc.tagged e.fault.message

/-- Why an evaluation stopped. -/
inductive EvalError where
  | runtime (e : RuntimeError)
  /-- The sink refused a mark, saying this. -/
  | refused (complaint : Text)
  deriving DecidableEq, Repr

/-- The wording of an error. -/
def EvalError.message : EvalError → Text
  | .runtime e => e.message
  | .refused complaint => complaint

/-- What outlives an evaluation. -/
structure Session where
  store : Store
  /-- The identity of the next function. -/
  nextId : Nat
  /-- The entry point defined last at the top. -/
  entry : Option Closure
  /-- The number of functions being executed. -/
  depth : Nat
  out : Sink

/-- Changes the store. The session is taken apart first, so that the store can be
changed in place. -/
@[inline] def Session.mapStore (f : Store → Store) : Session → Session
  | ⟨store, nextId, entry, depth, out⟩ => ⟨f store, nextId, entry, depth, out⟩

/-- The greatest number of functions that can be executed at a time. -/
def maxDepth : Nat := 10000

/-- What to do with an outcome. -/
inductive Frame where
  /-- Apply the operator. -/
  | unary (op : UnaryOp) (loc : Location)
  /-- The left operand is on its way; the right one is next. -/
  | left (op : BinaryOp) (right : Node) (scope : Nat) (loc : Location)
  /-- The right operand is on its way. -/
  | right (op : BinaryOp) (left : Value) (loc : Location)
  /-- The value decides a conjunction or disjunction. -/
  | truth
  /-- An argument is on its way; those before it newest first, those after it in order. -/
  | argument (callee : Value) (name : Text) (before : List Value) (after : List Node)
      (scope : Nat) (loc : Location)
  /-- Leave the function with the value. -/
  | giveBack
  /-- Choose a branch. -/
  | choose (yes no : Node) (scope : Nat)
  /-- The condition of a loop is on its way. -/
  | test (cond body : Node) (scope : Nat)
  /-- The body of a loop is being executed. -/
  | again (cond body : Node) (scope : Nat)
  /-- Introduce the name. -/
  | declare (name : Text) (scope : Nat) (loc : Location)
  /-- Change the name. -/
  | assign (name : Text) (scope : Nat) (loc : Location)
  /-- Leave a mark. -/
  | mark
  /-- More statements follow. -/
  | sequence (rest : List Node) (scope : Nat)
  /-- A function is being executed. -/
  | call

/-- What is going on. -/
inductive Control where
  /-- The node is to be evaluated in the scope. -/
  | eval (node : Node) (scope : Nat)
  /-- A value has been found. -/
  | deliver (v : Value)
  /-- The innermost function is being left with the value. -/
  | leave (v : Value)
  /-- Something failed. -/
  | fail (e : EvalError)

/-- A state of the machine. -/
structure Config where
  control : Control
  frames : List Frame
  session : Session

namespace Config

/-- Fails with a fault at a place. -/
def faulted (fault : Fault) (loc : Location) (frames : List Frame) (s : Session) : Config :=
  ⟨.fail (.runtime ⟨fault, loc⟩), frames, s⟩

/-- Delivers the result of an operation, or fails at a place. -/
def ofResult (r : Except Fault Value) (loc : Location) (frames : List Frame) (s : Session) :
    Config :=
  match r with
  | .ok v => ⟨.deliver v, frames, s⟩
  | .error fault => faulted fault loc frames s

/-- Starts a sequence of statements; an empty one is nil. -/
def sequence (stmts : List Node) (scope : Nat) (frames : List Frame) (s : Session) : Config :=
  match stmts with
  | [] => ⟨.deliver .nil, frames, s⟩
  | x :: rest => ⟨.eval x scope, .sequence rest scope :: frames, s⟩

/-! ## §2 Evaluating nodes -/

/-- Makes a function and binds it to its name. -/
def defineFunction (name : Text) (params : List Text) (body : List Node) (scope : Nat)
    (s : Session) : Closure × Session :=
  let id := s.nextId
  let f : Closure := ⟨id, name, params, body, some scope⟩
  (f, { s.mapStore (·.define scope name (.function (some f))) with nextId := id + 1 })

/-! ## §3 Calling -/

/-- Starts a function, if it has the right number of arguments and the calls are not too deep. -/
def enter (f : Closure) (args : List Value) (loc : Location) (frames : List Frame) (s : Session) :
    Config :=
  if args.length ≠ f.params.length then
    faulted (.argumentCount f.name f.params.length args.length) loc frames s
  else if maxDepth ≤ s.depth then
    faulted (.depthExceeded f.name) loc frames s
  else
    let scope := s.store.fresh
    let depth := s.depth
    let s := s.mapStore fun st => (st.push f.scope).defineAll scope (f.params.zip args)
    sequence f.body scope (.call :: frames) { s with depth := depth + 1 }

/-- Calls a primitive by a name. A failure of its own becomes an error of the call. -/
def callPrimitive (p : Primitive) (name : Text) (args : List Value) (loc : Location)
    (frames : List Frame) (s : Session) : Config :=
  let settle (r : Except Text Value) : Config :=
    match r with
    | .ok v => ⟨.deliver v, frames, s⟩
    | .error message => faulted (.primitive name message) loc frames s
  match p with
  | .print =>
    match s.out.write (printedLine args) with
    | .ok out => ⟨.deliver .nil, frames, { s with out := out }⟩
    | .error complaint => settle (.error complaint)
  | .len => settle (do lengthOf (← soleArgument args))
  | .str => settle (do return .string (← soleArgument args).display)
  | .num => settle (do numberFrom? (← soleArgument args))
  | .failing message => settle (.error message)
  | .faulting message => faulted (.custom message) .nowhere frames s

/-- Calls a value by a name. -/
def applyValue (callee : Value) (name : Text) (args : List Value) (loc : Location)
    (frames : List Frame) (s : Session) : Config :=
  match callee with
  | .primitive (some p) => callPrimitive p name args loc frames s
  | .function (some f) => enter f args loc frames s
  | _ => faulted (.notCallable name) loc frames s

/-- Evaluates the next argument, or calls once there is none left. -/
def nextArgument (callee : Value) (name : Text) (before : List Value) (after : List Node)
    (scope : Nat) (loc : Location) (frames : List Frame) (s : Session) : Config :=
  match after with
  | x :: rest => ⟨.eval x scope, .argument callee name before rest scope loc :: frames, s⟩
  | [] => applyValue callee name before.reverse loc frames s

/-- Starts the evaluation of a node. A prototype has no body at all, so that to call its function is
a crash rather than an evaluation. No text of a program is a prototype; here its body is empty and
a call gives nil. -/
def evalNode (x : Node) (scope : Nat) (frames : List Frame) (s : Session) : Config :=
  match x with
  | .missing => ⟨.deliver .nil, frames, s⟩
  | .number v _ => ⟨.deliver (.number v), frames, s⟩
  | .string v _ => ⟨.deliver (.string v), frames, s⟩
  | .ident name loc => ofResult ((s.store.get scope name).mapError .naming) loc frames s
  | .unary op x loc => ⟨.eval x scope, .unary op loc :: frames, s⟩
  | .binary op x y loc => ⟨.eval x scope, .left op y scope loc :: frames, s⟩
  | .call name args loc =>
    match s.store.get scope name with
    | .ok callee => nextArgument callee name [] args scope loc frames s
    | .error fault => faulted (.naming fault) loc frames s
  | .giveBack x _ => ⟨.eval x scope, .giveBack :: frames, s⟩
  | .block stmts _ =>
    let inner := s.store.fresh
    sequence stmts inner frames (s.mapStore (·.push (some scope)))
  | .choice cond yes no _ => ⟨.eval cond scope, .choose yes no scope :: frames, s⟩
  | .loop cond body _ => ⟨.eval cond scope, .test cond body scope :: frames, s⟩
  | .declare name x loc => ⟨.eval x scope, .declare name scope loc :: frames, s⟩
  | .assign name x loc => ⟨.eval x scope, .assign name scope loc :: frames, s⟩
  | .function name params body _ _ =>
    let (f, s') := defineFunction name params body scope s
    ⟨.deliver (.function (some f)), frames, s'⟩
  | .prototype name params _ =>
    let (f, s') := defineFunction name params [] scope s
    ⟨.deliver (.function (some f)), frames, s'⟩
  | .main stmts _ =>
    let (f, s') := defineFunction "main" [] stmts scope s
    let entry := if scope = Store.global then some f else s'.entry
    ⟨.deliver (.function (some f)), frames, { s' with entry := entry }⟩
  | .assert cond _ => ⟨.eval cond scope, .mark :: frames, s⟩

/-! ## §4 Delivering values -/

/-- The left operand has been found: a conjunction or disjunction may be decided already. -/
def afterLeft (op : BinaryOp) (v : Value) (right : Node) (scope : Nat) (loc : Location)
    (frames : List Frame) (s : Session) : Config :=
  match op with
  | .and =>
    if v.isTruthy then ⟨.eval right scope, .truth :: frames, s⟩
    else ⟨.deliver (.bool false), frames, s⟩
  | .or =>
    if v.isTruthy then ⟨.deliver (.bool true), frames, s⟩
    else ⟨.eval right scope, .truth :: frames, s⟩
  | _ => ⟨.eval right scope, .right op v loc :: frames, s⟩

/-- Introduces a name with a value, which is delivered. -/
def declareName (name : Text) (scope : Nat) (v : Value) (loc : Location) (frames : List Frame)
    (s : Session) : Config :=
  if s.store.forbids scope name then faulted (.naming (.alreadyDeclared name)) loc frames s
  else ⟨.deliver v, frames, s.mapStore (·.define scope name v)⟩

/-- Changes the value of a name, which is delivered. -/
def assignName (name : Text) (scope : Nat) (v : Value) (loc : Location) (frames : List Frame)
    (s : Session) : Config :=
  match s.store.owner? scope name with
  | some owner => ⟨.deliver v, frames, s.mapStore (·.define owner name v)⟩
  | none => faulted (.naming (.unbound name)) loc frames s

/-- Leaves the mark of a check. -/
def leaveMark (v : Value) (frames : List Frame) (s : Session) : Config :=
  match s.out.write (if v.isTruthy then "." else "F") with
  | .ok out => ⟨.deliver .nil, frames, { s with out := out }⟩
  | .error complaint => ⟨.fail (.refused complaint), frames, s⟩

/-- A function is no longer being executed. -/
def exitCall (s : Session) : Session := { s with depth := s.depth - 1 }

/-- Hands a value to the innermost frame. -/
def deliverTo (v : Value) (f : Frame) (frames : List Frame) (s : Session) : Config :=
  match f with
  | .unary op loc => ofResult (op.apply v) loc frames s
  | .left op right scope loc => afterLeft op v right scope loc frames s
  | .right op left loc => ofResult (op.apply left v) loc frames s
  | .truth => ⟨.deliver (.bool v.isTruthy), frames, s⟩
  | .argument callee name before after scope loc =>
    nextArgument callee name (v :: before) after scope loc frames s
  | .giveBack => ⟨.leave v, frames, s⟩
  | .choose yes no scope => ⟨.eval (if v.isTruthy then yes else no) scope, frames, s⟩
  | .test cond body scope =>
    if v.isTruthy then ⟨.eval body scope, .again cond body scope :: frames, s⟩
    else ⟨.deliver .nil, frames, s⟩
  | .again cond body scope => ⟨.eval cond scope, .test cond body scope :: frames, s⟩
  | .declare name scope loc => declareName name scope v loc frames s
  | .assign name scope loc => assignName name scope v loc frames s
  | .mark => leaveMark v frames s
  | .sequence rest scope =>
    match rest with
    | [] => ⟨.deliver v, frames, s⟩
    | x :: more => ⟨.eval x scope, .sequence more scope :: frames, s⟩
  -- a function that ends without leaving gives nil
  | .call => ⟨.deliver .nil, frames, exitCall s⟩

/-! ## §5 Unwinding and steps -/

/-- Leaving passes frames by up to the one of the function, which takes the value. -/
def leaveThrough (v : Value) (f : Frame) (frames : List Frame) (s : Session) : Config :=
  match f with
  | .call => ⟨.deliver v, frames, exitCall s⟩
  | _ => ⟨.leave v, frames, s⟩

/-- A failure passes all frames by. -/
def failThrough (e : EvalError) (f : Frame) (frames : List Frame) (s : Session) : Config :=
  match f with
  | .call => ⟨.fail e, frames, exitCall s⟩
  | _ => ⟨.fail e, frames, s⟩

end Config

/-- How an evaluation ends. -/
inductive Outcome where
  | value (v : Value)
  /-- A function was left where none was being executed. -/
  | left (v : Value)
  | failed (e : EvalError)

/-- One step: another configuration, or the end. -/
inductive Step where
  | next (c : Config)
  | done (o : Outcome) (s : Session)

/-- Takes a step. -/
def Config.step : Config → Step
  | ⟨control, frames, session⟩ =>
    match control, frames with
    | .eval x scope, frames => .next (evalNode x scope frames session)
    | .deliver v, f :: frames => .next (deliverTo v f frames session)
    | .leave v, f :: frames => .next (leaveThrough v f frames session)
    | .fail e, f :: frames => .next (failThrough e f frames session)
    | .deliver v, [] => .done (.value v) session
    | .leave v, [] => .done (.left v) session
    | .fail e, [] => .done (.failed e) session

/-- Takes at most `steps` steps; nothing if that is not enough. -/
def Config.run : Nat → Config → Option (Outcome × Session)
  | 0, _ => none
  | steps + 1, c =>
    match c.step with
    | .next c' => run steps c'
    | .done o s => some (o, s)

/-! ## §6 Running -/

/-- The number of steps after which an evaluation is given up. -/
def stepLimit : Nat := Nat.pow 2 60

namespace Session

/-- The names every session starts with. -/
def builtins : List (Text × Value) :=
  [ ("print", .primitive (some .print)),
    ("len", .primitive (some .len)),
    ("str", .primitive (some .str)),
    ("num", .primitive (some .num)),
    ("true", .bool true),
    ("false", .bool false),
    ("nil", .nil) ]

/-- A new session that writes to the sink. -/
def start (out : Sink) : Session :=
  ⟨Store.initial.defineAll Store.global builtins, 0, none, 0, out⟩

/-- Evaluates a node at the top. -/
def evalNode (steps : Nat) (x : Node) (s : Session) : Option (Outcome × Session) :=
  Config.run steps ⟨.eval x Store.global, [], s⟩

/-- Calls the entry point, if there is one; the value is `last` otherwise. -/
def runEntry (steps : Nat) (loc : Location) (last : Value) (s : Session) :
    Option (Outcome × Session) :=
  match s.entry with
  | some f => Config.run steps (Config.enter f [] loc [] s)
  | none => some (.value last, s)

/-- Evaluates statements at the top one after the other and then calls the entry point. Leaving at
the top ends the program with the value. -/
def runStatements (steps : Nat) (loc : Location) (last : Value) :
    List Node → Session → Option (Outcome × Session)
  | [], s => runEntry steps loc last s
  | x :: rest, s =>
    match evalNode steps x s with
    | some (.value v, s') => runStatements steps loc v rest s'
    | some (.left v, s') => some (.value v, s')
    | other => other

/-- Runs a program. -/
def run (steps : Nat) (p : Program) (s : Session) : Option (Outcome × Session) :=
  runStatements steps p.loc .nil p.stmts { s with entry := none }

/-- A new function without parameters and with an empty body, from a host. -/
def hostFunction (name : Text) (s : Session) : Value × Session :=
  (.function (some ⟨s.nextId, name, [], [], none⟩), { s with nextId := s.nextId + 1 })

/-- Binds a name at the top. -/
def define (name : Text) (v : Value) (s : Session) : Session :=
  s.mapStore (·.define Store.global name v)

/-- The value of a name at the top. -/
def get (name : Text) (s : Session) : Except NameFault Value := s.store.get Store.global name

/-- Changes the value of a name at the top. -/
def set (name : Text) (v : Value) (s : Session) : Except NameFault Session := do
  let store ← s.store.set Store.global name v
  return { s with store := store }

end Session

end Scriptlet
