import Scriptlet.Eval.Machine
import Scriptlet.Proofs.Derivation

/-!
# Evaluation reads no places

The places that nodes carry end up in errors and nowhere else. To say so, places are removed from
everything the machine works on: from the bodies of functions, hence from values, scopes and
sessions, from the frames that wait for an outcome, and from errors. The machine commutes with this
removal step by step, so it does over whole runs. Two programs that are equal without their places
therefore run in lockstep.

## Contents

- §1 removing places from what the machine works on
- §2 values and operations
- §3 scopes
- §4 one step
- §5 whole runs
-/

namespace Scriptlet

/-! ## §1 Removing places -/

def Closure.cleared (f : Closure) : Closure := { f with body := Node.clearedAll f.body }

def Value.cleared : Value → Value
  | .function f => .function (f.map Closure.cleared)
  | v => v

def Scope.cleared (s : Scope) : Scope :=
  { s with bindings := s.bindings.map fun b => (b.1, b.2.cleared) }

def Store.cleared (s : Store) : Store := ⟨s.scopes.map Scope.cleared⟩

def Session.cleared (s : Session) : Session :=
  { s with store := s.store.cleared, entry := s.entry.map Closure.cleared }

def Frame.cleared : Frame → Frame
  | .unary op _ => .unary op .nowhere
  | .left op y scope _ => .left op y.cleared scope .nowhere
  | .right op v _ => .right op v.cleared .nowhere
  | .argument callee name before after scope _ =>
    .argument callee.cleared name (before.map Value.cleared) (Node.clearedAll after) scope .nowhere
  | .choose yes no scope => .choose yes.cleared no.cleared scope
  | .test cond body scope => .test cond.cleared body.cleared scope
  | .again cond body scope => .again cond.cleared body.cleared scope
  | .declare name scope _ => .declare name scope .nowhere
  | .assign name scope _ => .assign name scope .nowhere
  | .sequence rest scope => .sequence (Node.clearedAll rest) scope
  | .truth => .truth
  | .giveBack => .giveBack
  | .mark => .mark
  | .call => .call

def EvalError.cleared : EvalError → EvalError
  | .runtime e => .runtime { e with loc := .nowhere }
  | .refused complaint => .refused complaint

def Control.cleared : Control → Control
  | .eval x scope => .eval x.cleared scope
  | .deliver v => .deliver v.cleared
  | .leave v => .leave v.cleared
  | .fail e => .fail e.cleared

def Config.cleared (c : Config) : Config :=
  ⟨c.control.cleared, c.frames.map Frame.cleared, c.session.cleared⟩

def Outcome.cleared : Outcome → Outcome
  | .value v => .value v.cleared
  | .left v => .left v.cleared
  | .failed e => .failed e.cleared

def Step.cleared : Step → Step
  | .next c => .next c.cleared
  | .done o s => .done o.cleared s.cleared

/-! ## §2 Values and operations -/

namespace Value

@[simp] theorem type_cleared (v : Value) : v.cleared.type = v.type := by cases v <;> rfl

@[simp] theorem isTruthy_cleared (v : Value) : v.cleared.isTruthy = v.isTruthy := by
  cases v <;> rfl

/-- Values are displayed without looking at places. -/
@[simp] theorem display_cleared (v : Value) : v.cleared.display = v.display := by
  cases v with
  | function f => cases f <;> rfl
  | _ => rfl

/-- Functions are compared by identity, which has no place. -/
@[simp] theorem equal_cleared (v w : Value) : v.cleared.equal w.cleared = v.equal w := by
  cases v with
  | function f =>
    cases w with
    | function g => cases f <;> cases g <;> rfl
    | _ => cases f <;> rfl
  | _ => cases w <;> rfl

end Value

/-- A unary operator does the same to values whose trees have no places. -/
theorem UnaryOp.apply_cleared (op : UnaryOp) (v : Value) :
    op.apply v.cleared = (op.apply v).map Value.cleared := by
  cases op with
  | not => rw [apply, Value.isTruthy_cleared]; rfl
  | negate => cases v <;> rfl
  | unknown code => rfl

/-- Arithmetic makes numbers, in which there are no places to clear. -/
theorem BinaryOp.applyNumbers_cleared (op : BinaryOp) (x y : Float) :
    (op.applyNumbers x y).map Value.cleared = op.applyNumbers x y := by
  cases op with
  | divide | modulo =>
    rw [applyNumbers]
    split <;> rfl
  | _ => rfl

/-- A binary operator does the same to values whose trees have no places. -/
theorem BinaryOp.apply_cleared (op : BinaryOp) (v w : Value) :
    op.apply v.cleared w.cleared = (op.apply v w).map Value.cleared := by
  cases op with
  | equal | notEqual =>
    rw [apply, apply, Value.equal_cleared]
    rfl
  | add =>
    -- a function joined to a string shows its name, which is kept
    cases v with
    | string s => exact congrArg (fun t => Except.ok (Value.string (s ++ t))) w.display_cleared
    | function f =>
      cases w with
      | string t =>
        exact congrArg (fun s => Except.ok (Value.string (s ++ t))) (Value.display_cleared (.function f))
      | _ => rfl
    | _ => cases w <;> rfl
  | divide | modulo =>
    cases v with
    | number x =>
      cases w with
      | number y => simp only [Value.cleared, apply, applyNumbers_cleared]
      | _ => rfl
    | _ => cases w <;> rfl
  | _ => cases v <;> cases w <;> rfl

theorem soleArgument_cleared (args : List Value) :
    soleArgument (args.map Value.cleared) = (soleArgument args).map Value.cleared := by
  match args with
  | [] => rfl
  | [v] => rfl
  | v :: w :: rest => simp [soleArgument, Except.map]

theorem lengthOf_cleared (v : Value) : lengthOf v.cleared = (lengthOf v).map Value.cleared := by
  cases v <;> rfl

theorem numberFrom?_cleared (v : Value) :
    numberFrom? v.cleared = (numberFrom? v).map Value.cleared := by
  cases v with
  | string t =>
    simp only [Value.cleared, numberFrom?]
    split <;> rfl
  | _ => rfl

/-- What `print` writes does not depend on places. -/
@[simp] theorem printedLine_cleared (args : List Value) :
    printedLine (args.map Value.cleared) = printedLine args := by
  simp [printedLine, Function.comp_def]

/-! ## §3 Scopes -/

/-- Looking up a name finds the cleared value. -/
theorem Scope.get?_cleared (s : Scope) (name : Text) :
    s.cleared.get? name = (s.get? name).map Value.cleared := by
  obtain ⟨parent, bs⟩ := s
  simp only [get?, cleared]
  induction bs with
  -- names are kept, so the same binding is found
  | nil => rfl
  | cons b bs ih =>
    obtain ⟨n, v⟩ := b
    simp only [List.map_cons, List.lookup_cons]
    cases name == n with
    | true => rfl
    | false => exact ih

@[simp] theorem Scope.parent_cleared (s : Scope) : s.cleared.parent = s.parent := rfl

@[simp] theorem Scope.binds_cleared (s : Scope) (name : Text) :
    s.cleared.binds name = s.binds name := by
  rw [binds, binds, get?_cleared, Option.isSome_map]

/-- Putting a value under a name commutes with clearing a scope's list. -/
theorem Scope.replaced_cleared (name : Text) (v : Value) (bs : List (Text × Value)) :
    replaced name v.cleared (bs.map fun b => (b.1, b.2.cleared))
      = (replaced name v bs).map fun b => (b.1, b.2.cleared) := by
  induction bs with
  | nil => rfl
  | cons b bs ih =>
    simp only [List.map_cons, replaced]
    split
    · rfl
    · rw [ih]
      rfl

theorem Scope.put_cleared (s : Scope) (name : Text) (v : Value) :
    s.cleared.put name v.cleared = (s.put name v).cleared := by
  unfold put
  rw [binds_cleared]
  split
  · simp only [cleared, replaced_cleared]
  · rfl

namespace Store

@[simp] theorem scope_cleared (s : Store) (i : Nat) : s.cleared.scope i = (s.scope i).cleared := by
  unfold scope cleared
  simp only [Array.getElem?_map]
  cases s.scopes[i]? <;> rfl

@[simp] theorem fresh_cleared (s : Store) : s.cleared.fresh = s.fresh := Array.size_map

theorem push_cleared (s : Store) (parent : Option Nat) :
    s.cleared.push parent = (s.push parent).cleared := by
  simp [push, cleared, Scope.cleared]

theorem define_cleared (s : Store) (i : Nat) (name : Text) (v : Value) :
    s.cleared.define i name v.cleared = (s.define i name v).cleared := by
  unfold define cleared
  congr 1
  apply Array.ext_getElem?
  intro j
  simp only [Array.getElem?_modify, Array.getElem?_map]
  -- at the one index that changed the scopes are cleared versions of each other
  split
  · cases s.scopes[j]? with
    | none => rfl
    | some sc => exact congrArg some (Scope.put_cleared sc name v)
  · rfl

theorem defineAll_cleared (s : Store) (i : Nat) (bs : List (Text × Value)) :
    s.cleared.defineAll i (bs.map fun b => (b.1, b.2.cleared)) = (s.defineAll i bs).cleared := by
  unfold defineAll
  induction bs generalizing s with
  | nil => rfl
  | cons b bs ih =>
    simp only [List.map_cons, List.foldl_cons, define_cleared]
    exact ih _

/-- The scope that owns a name is found by names alone. -/
theorem ownerWithin?_cleared (s : Store) (name : Text) (fuel i : Nat) :
    s.cleared.ownerWithin? name fuel i = s.ownerWithin? name fuel i := by
  induction fuel generalizing i with
  | zero => rfl
  | succ fuel ih =>
    simp only [ownerWithin?, scope_cleared, Scope.binds_cleared, Scope.parent_cleared, ih]

@[simp] theorem owner?_cleared (s : Store) (i : Nat) (name : Text) :
    s.cleared.owner? i name = s.owner? i name := by
  rw [owner?, owner?, ownerWithin?_cleared, cleared, Array.size_map]

/-- A name's value, looked up through the enclosing scopes, is the cleared one. -/
theorem get_cleared (s : Store) (i : Nat) (name : Text) :
    s.cleared.get i name = (s.get i name).map Value.cleared := by
  unfold get
  rw [owner?_cleared]
  split
  · next j _ =>
    rw [scope_cleared, Scope.get?_cleared]
    cases (s.scope j).get? name <;> rfl
  · rfl

@[simp] theorem forbids_cleared (s : Store) (i : Nat) (name : Text) :
    s.cleared.forbids i name = s.forbids i name := by
  simp only [forbids, scope_cleared, Scope.binds_cleared, Scope.parent_cleared]

end Store

/-! ## §4 One step -/

/-- What a change of the store commutes with, the change of a session's store does. -/
theorem Session.mapStore_cleared {f g : Store → Store} (s : Session)
    (h : ∀ st : Store, f st.cleared = (g st).cleared) :
    s.cleared.mapStore f = (s.mapStore g).cleared := by
  obtain ⟨store, nextId, entry, depth, out⟩ := s
  simp only [cleared, mapStore, h]

namespace Config

variable (frames : List Frame) (s : Session)

theorem ofResult_cleared (r : Except Fault Value) (loc : Location) :
    ofResult (r.map Value.cleared) .nowhere (frames.map Frame.cleared) s.cleared
      = (ofResult r loc frames s).cleared := by
  cases r <;> rfl

/-- Beginning a list of statements commutes with clearing. -/
theorem sequence_cleared (stmts : List Node) (scope : Nat) :
    sequence (Node.clearedAll stmts) scope (frames.map Frame.cleared) s.cleared
      = (sequence stmts scope frames s).cleared := by
  cases stmts <;> rfl

/-- Defining a function commutes with clearing: the closure's body is the cleared one. -/
theorem defineFunction_cleared (name : Text) (params : List Text) (body : List Node)
    (scope : Nat) :
    defineFunction name params (Node.clearedAll body) scope s.cleared
      = ((defineFunction name params body scope s).1.cleared,
          (defineFunction name params body scope s).2.cleared) := by
  unfold defineFunction
  simp only
  rw [s.mapStore_cleared fun st => st.define_cleared scope name
    (.function (some ⟨s.nextId, name, params, body, some scope⟩))]
  rfl

/-- Entering a call commutes with clearing, also where the depth is exceeded. -/
theorem enter_cleared (f : Closure) (args : List Value) (loc : Location) :
    enter f.cleared (args.map Value.cleared) .nowhere (frames.map Frame.cleared) s.cleared
      = (enter f args loc frames s).cleared := by
  obtain ⟨store, nextId, entry, depth, out⟩ := s
  have hargs : f.params.zip (args.map Value.cleared)
      = (f.params.zip args).map fun b => (b.1, b.2.cleared) := List.zip_map_right ..
  have hstore : (store.cleared.push f.scope).defineAll store.fresh
        (f.params.zip (args.map Value.cleared))
      = ((store.push f.scope).defineAll store.fresh (f.params.zip args)).cleared := by
    rw [Store.push_cleared, hargs, Store.defineAll_cleared]
  -- neither the count of arguments nor the depth has a place
  simp only [enter, List.length_map, Closure.cleared, Session.cleared, Session.mapStore,
    Store.fresh_cleared, hstore]
  split
  · rfl
  · split
    · rfl
    · rw [← sequence_cleared]
      rfl

/-- Every primitive commutes with clearing, and so do its errors. -/
theorem callPrimitive_cleared (p : Primitive) (name : Text) (args : List Value) (loc : Location) :
    callPrimitive p name (args.map Value.cleared) .nowhere (frames.map Frame.cleared) s.cleared
      = (callPrimitive p name args loc frames s).cleared := by
  -- each primitive reads its arguments up to places and places its error at the call
  cases p with
  | print =>
    have hout : s.cleared.out = s.out := rfl
    simp only [callPrimitive, printedLine_cleared, hout]
    cases s.out.write (printedLine args) <;> rfl
  | len =>
    simp only [callPrimitive, soleArgument_cleared]
    cases soleArgument args with
    | error message => rfl
    | ok v =>
      simp only [Except.map, bind, Except.bind, lengthOf_cleared]
      cases lengthOf v <;> rfl
  | str =>
    simp only [callPrimitive, soleArgument_cleared]
    cases soleArgument args with
    | error message => rfl
    | ok v =>
      simp only [Except.map, bind, Except.bind, Value.display_cleared]
      rfl
  | num =>
    simp only [callPrimitive, soleArgument_cleared]
    cases soleArgument args with
    | error message => rfl
    | ok v =>
      simp only [Except.map, bind, Except.bind, numberFrom?_cleared]
      cases numberFrom? v <;> rfl
  | failing message => rfl
  | faulting message => rfl

/-- Applying any value commutes with clearing, also one that is no function. -/
theorem applyValue_cleared (callee : Value) (name : Text) (args : List Value) (loc : Location) :
    applyValue callee.cleared name (args.map Value.cleared) .nowhere (frames.map Frame.cleared)
        s.cleared
      = (applyValue callee name args loc frames s).cleared := by
  cases callee with
  | primitive p =>
    cases p with
    | none => rfl
    | some p => exact callPrimitive_cleared frames s p name args loc
  | function f =>
    cases f with
    | none => rfl
    | some f => exact enter_cleared frames s f args loc
  | _ => rfl

/-- Going on to the next argument commutes with clearing. -/
theorem nextArgument_cleared (callee : Value) (name : Text) (before : List Value)
    (after : List Node) (scope : Nat) (loc : Location) :
    nextArgument callee.cleared name (before.map Value.cleared) (Node.clearedAll after) scope
        .nowhere (frames.map Frame.cleared) s.cleared
      = (nextArgument callee name before after scope loc frames s).cleared := by
  cases after with
  | nil =>
    simp only [nextArgument, Node.clearedAll, ← List.map_reverse]
    exact applyValue_cleared frames s callee name before.reverse loc
  | cons x rest => rfl

/-- Beginning to evaluate a node commutes with clearing, for every kind of node. -/
theorem evalNode_cleared (x : Node) (scope : Nat) :
    evalNode x.cleared scope (frames.map Frame.cleared) s.cleared
      = (evalNode x scope frames s).cleared := by
  cases x with
  | ident name loc =>
    simp only [Node.cleared, evalNode, ← ofResult_cleared]
    change ofResult ((s.store.cleared.get scope name).mapError _) _ _ _ = _
    rw [Store.get_cleared]
    cases s.store.get scope name <;> rfl
  | call name args loc =>
    have hstore : s.cleared.store = s.store.cleared := rfl
    simp only [Node.cleared, evalNode, hstore]
    rw [Store.get_cleared]
    cases s.store.get scope name with
    | error fault => rfl
    | ok callee => exact nextArgument_cleared frames s callee name [] args scope loc
  | block stmts loc =>
    simp only [Node.cleared, evalNode]
    change sequence _ s.store.cleared.fresh _ _ = _
    rw [Store.fresh_cleared, s.mapStore_cleared fun st => st.push_cleared (some scope)]
    exact sequence_cleared ..
  | function name params body bodyLoc loc =>
    simp only [Node.cleared, evalNode, defineFunction_cleared]
    rfl
  | prototype name params loc =>
    have hempty := defineFunction_cleared s name params [] scope
    simp only [Node.cleared, evalNode]
    rw [Node.clearedAll] at hempty
    rw [hempty]
    rfl
  | main stmts loc =>
    -- the entry point changes at the top only
    simp only [Node.cleared, evalNode, defineFunction_cleared]
    by_cases h : scope = Store.global
    · simp only [if_pos h]
      rfl
    · simp only [if_neg h]
      rfl
  | _ => rfl

/-- What follows the left operand commutes with clearing. -/
theorem afterLeft_cleared (op : BinaryOp) (v : Value) (y : Node) (scope : Nat) (loc : Location) :
    afterLeft op v.cleared y.cleared scope .nowhere (frames.map Frame.cleared) s.cleared
      = (afterLeft op v y scope loc frames s).cleared := by
  cases op with
  | and | or =>
    simp only [afterLeft, Value.isTruthy_cleared]
    split <;> rfl
  | _ => rfl

theorem declareName_cleared (name : Text) (scope : Nat) (v : Value) (loc : Location) :
    declareName name scope v.cleared .nowhere (frames.map Frame.cleared) s.cleared
      = (declareName name scope v loc frames s).cleared := by
  unfold declareName
  change (if s.store.cleared.forbids scope name then _ else _) = _
  rw [Store.forbids_cleared, s.mapStore_cleared fun st => st.define_cleared scope name v]
  split <;> rfl

theorem assignName_cleared (name : Text) (scope : Nat) (v : Value) (loc : Location) :
    assignName name scope v.cleared .nowhere (frames.map Frame.cleared) s.cleared
      = (assignName name scope v loc frames s).cleared := by
  have hstore : s.cleared.store = s.store.cleared := rfl
  unfold assignName
  rw [hstore, Store.owner?_cleared]
  -- the scope that owns the name is found by names alone
  cases s.store.owner? scope name with
  | none => rfl
  | some owner =>
    simp only
    rw [s.mapStore_cleared fun st => st.define_cleared owner name v]
    rfl

/-- Leaving a mark commutes with clearing, up to the frame that it unwinds to. -/
theorem leaveMark_cleared (v : Value) :
    leaveMark v.cleared (frames.map Frame.cleared) s.cleared = (leaveMark v frames s).cleared := by
  have hout : s.cleared.out = s.out := rfl
  unfold leaveMark
  rw [Value.isTruthy_cleared, hout]
  cases s.out.write (if v.isTruthy then "." else "F") <;> rfl

/-- Handing a value to a frame commutes with clearing, for every kind of frame. -/
theorem deliverTo_cleared (v : Value) (f : Frame) :
    deliverTo v.cleared f.cleared (frames.map Frame.cleared) s.cleared
      = (deliverTo v f frames s).cleared := by
  -- one case for each frame that waits, with the lemma of what is delivered there
  cases f with
  | unary op loc =>
    simp only [Frame.cleared, deliverTo, UnaryOp.apply_cleared]
    exact ofResult_cleared ..
  | left op y scope loc => exact afterLeft_cleared ..
  | right op left loc =>
    simp only [Frame.cleared, deliverTo, BinaryOp.apply_cleared]
    exact ofResult_cleared ..
  | argument callee name before after scope loc =>
    exact nextArgument_cleared frames s callee name (v :: before) after scope loc
  | choose yes no scope =>
    simp only [Frame.cleared, deliverTo, Value.isTruthy_cleared]
    split <;> rfl
  | test cond body scope =>
    simp only [Frame.cleared, deliverTo, Value.isTruthy_cleared]
    split <;> rfl
  | declare name scope loc => exact declareName_cleared ..
  | assign name scope loc => exact assignName_cleared ..
  | mark => exact leaveMark_cleared ..
  | sequence rest scope => cases rest <;> rfl
  | truth =>
    simp only [Frame.cleared, deliverTo, Value.isTruthy_cleared]
    rfl
  | _ => rfl

/-- A step of the machine reads no places. -/
theorem step_cleared (c : Config) : c.cleared.step = c.step.cleared := by
  obtain ⟨control, frames, s⟩ := c
  cases control with
  -- a step evaluates, delivers, or unwinds one frame
  | eval x scope => exact congrArg Step.next (evalNode_cleared frames s x scope)
  | deliver v =>
    cases frames with
    | nil => rfl
    | cons f frames => exact congrArg Step.next (deliverTo_cleared frames s v f)
  | leave v =>
    cases frames with
    | nil => rfl
    | cons f frames => cases f <;> rfl
  | fail e =>
    cases frames with
    | nil => rfl
    | cons f frames => cases f <;> rfl

/-! ## §5 Whole runs -/

/-- A run reads no places. -/
theorem run_cleared (steps : Nat) (c : Config) :
    c.cleared.run steps = (c.run steps).map fun r => (r.1.cleared, r.2.cleared) := by
  induction steps generalizing c with
  | zero => rfl
  | succ steps ih =>
    rw [run, run, step_cleared]
    cases c.step with
    | next c' => exact ih c'
    | done o s => rfl

end Config

namespace Session

/-- The evaluation of a node is, step by step, that of its cleared tree. -/
theorem evalNode_cleared (steps : Nat) (x : Node) (s : Session) :
    s.cleared.evalNode steps x.cleared
      = (s.evalNode steps x).map fun r => (r.1.cleared, r.2.cleared) :=
  Config.run_cleared steps ⟨.eval x Store.global, [], s⟩

/-- The call of the entry point commutes with clearing. -/
theorem runEntry_cleared (steps : Nat) (loc : Location) (last : Value) (s : Session) :
    s.cleared.runEntry steps .nowhere last.cleared
      = (s.runEntry steps loc last).map fun r => (r.1.cleared, r.2.cleared) := by
  obtain ⟨store, nextId, entry, depth, out⟩ := s
  cases entry with
  | none => rfl
  | some f =>
    have henter := Config.enter_cleared [] ⟨store, nextId, some f, depth, out⟩ f [] loc
    change Config.run steps _ = Option.map _ (Config.run steps _)
    rw [← Config.run_cleared, ← henter]
    rfl

/-- The run of a list of statements commutes with clearing. -/
theorem runStatements_cleared (steps : Nat) (loc : Location) (last : Value) (stmts : List Node)
    (s : Session) :
    s.cleared.runStatements steps .nowhere last.cleared (Node.clearedAll stmts)
      = (s.runStatements steps loc last stmts).map fun r => (r.1.cleared, r.2.cleared) := by
  induction stmts generalizing last s with
  | nil => exact runEntry_cleared ..
  | cons x rest ih =>
    rw [Node.clearedAll, runStatements, runStatements, evalNode_cleared]
    -- a value goes on to the next statement, everything else ends the program
    cases s.evalNode steps x with
    | none => rfl
    | some r =>
      obtain ⟨o, s'⟩ := r
      cases o with
      | value v => exact ih v s'
      | left v => rfl
      | failed e => rfl

/-- Programs that are equal without their places run alike. -/
theorem run_cleared (steps : Nat) (p : Program) (s : Session) :
    s.cleared.run steps ⟨Node.clearedAll p.stmts, .nowhere⟩
      = (s.run steps p).map fun r => (r.1.cleared, r.2.cleared) :=
  runStatements_cleared steps p.loc .nil p.stmts { s with entry := none }

end Session

end Scriptlet
