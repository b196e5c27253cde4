import Mathlib.Logic.Relation
import Scriptlet.Eval.Machine

/-!
# What a step of the evaluator can do

A step looks at the control and at most one frame, and both name at most one scope. Whatever it
does, it does in that scope: it binds a name there, or gives another value to a name that is bound
somewhere, or opens a scope, and the work goes on in the same scope or in the one just opened. It
starts a function if not too many are being executed, or ends one. It adds at most one write to the
output. All this is said once, in `Config.Moves`; what evaluations keep is derived from it.

## Contents

- §1 scopes and calls in a configuration
- §2 changes of the store and of the output
- §3 steps
- §4 evaluations above frames
- §5 programs
-/

namespace Scriptlet

/-! ## §1 Scopes and calls in a configuration -/

/-- The scopes that a control works in. -/
def Control.scopes : Control → List Nat
  | .eval _ scope => [scope]
  | .deliver _ | .leave _ | .fail _ => []

/-- There is an outcome, which the next frame takes. -/
def Control.isOutcome : Control → Bool
  | .eval _ _ => false
  | .deliver _ | .leave _ | .fail _ => true

/-- No work is done before an outcome is taken. -/
theorem Control.scopes_of_isOutcome {control : Control} (h : control.isOutcome = true) :
    control.scopes = [] := by
  cases control with
  | eval => cases h
  | _ => rfl

/-- The scopes that the work of a frame is done in. -/
def Frame.scopes : Frame → List Nat
  | .left _ _ scope _ | .argument _ _ _ _ scope _ | .choose _ _ scope | .test _ _ scope
  | .again _ _ scope | .declare _ scope _ | .assign _ scope _ | .sequence _ scope => [scope]
  | .unary _ _ | .right _ _ _ | .truth | .giveBack | .mark | .call => []

/-- The frame is that of a function being executed. -/
def Frame.isCall : Frame → Bool
  | .call => true
  | _ => false

/-- The number of functions being executed. -/
def activeCalls (frames : List Frame) : Nat := frames.countP Frame.isCall

@[simp] theorem activeCalls_nil : activeCalls [] = 0 := rfl

@[simp] theorem activeCalls_append (fs gs : List Frame) :
    activeCalls (fs ++ gs) = activeCalls fs + activeCalls gs :=
  List.countP_append

@[simp] theorem activeCalls_call (frames : List Frame) :
    activeCalls (.call :: frames) = activeCalls frames + 1 :=
  List.countP_cons_of_pos rfl

theorem activeCalls_cons {f : Frame} (hf : f.isCall = false) (frames : List Frame) :
    activeCalls (f :: frames) = activeCalls frames :=
  List.countP_cons_of_neg (by simp [hf])

/-! ## §2 Changes of the store and of the output -/

/-- How work in some scopes changes the store in one step, and the scopes it goes on in. -/
inductive Store.Shifts (scopes : List Nat) (s : Store) : List Nat → Store → Prop where
  | same : Shifts scopes s scopes s
  /-- A name is bound where the work is done. -/
  | bound {i : Nat} (hi : i ∈ scopes) (name : Text) (v : Value) :
      Shifts scopes s scopes (s.define i name v)
  /-- A name that is bound gets another value. -/
  | changed {i : Nat} {name : Text} (hname : (s.scope i).binds name = true) (v : Value) :
      Shifts scopes s scopes (s.define i name v)
  /-- A scope is opened, perhaps with bindings. -/
  | opened (parent : Option Nat) (bindings : List (Text × Value)) :
      Shifts scopes s [s.fresh] ((s.push parent).defineAll s.fresh bindings)

/-- The scope found for a name binds it. -/
theorem Store.binds_of_owner? {s : Store} {name : Text} {i owner : Nat}
    (h : s.owner? i name = some owner) : (s.scope owner).binds name = true := by
  -- the search climbs from scope to parent and stops only where the name is bound
  have hwithin : ∀ fuel i, s.ownerWithin? name fuel i = some owner →
      (s.scope owner).binds name = true := by
    intro fuel
    induction fuel with
    | zero => exact fun _ h => nomatch h
    | succ fuel ih =>
      intro i h
      rw [ownerWithin?] at h
      split at h
      next hbinds =>
        cases h
        exact hbinds
      next =>
        split at h
        next p _ => exact ih p h
        next => cases h
  exact hwithin _ i h

/-- What a step does to the output: nothing, or one write, which is taken whole. -/
inductive Sink.Takes (o : Sink) : Sink → Prop where
  | nothing : Takes o o
  | write {o' : Sink} (t : Text) (h : o.write t = .ok o') : Takes o o'

/-! ## §3 Steps -/

namespace Config

/-- What may come of work in some scopes, above the frames `rest`: other work with frames of its own
above them, perhaps in a function that has been started. -/
inductive Comes (scopes : List Nat) (rest : List Frame) (s : Session) : Config → Prop where
  | stays {control : Control} {pushed : List Frame} {next : List Nat} {s' : Session}
      (hscopes : control.scopes ++ pushed.flatMap Frame.scopes ⊆ next)
      (hstore : Store.Shifts scopes s.store next s'.store) (hcalls : activeCalls pushed = 0)
      (hdepth : s'.depth = s.depth) (hout : s.out.Takes s'.out) :
      Comes scopes rest s ⟨control, pushed ++ rest, s'⟩
  | enters {control : Control} {pushed : List Frame} {next : List Nat} {s' : Session}
      (hscopes : control.scopes ++ pushed.flatMap Frame.scopes ⊆ next)
      (hstore : Store.Shifts scopes s.store next s'.store) (hcalls : activeCalls pushed = 1)
      (hlt : s.depth < maxDepth) (hdepth : s'.depth = s.depth + 1)
      (hout : s.out.Takes s'.out) :
      Comes scopes rest s ⟨control, pushed ++ rest, s'⟩

/-- What a step can do: evaluate a node, hand an outcome to a frame, or end a function. -/
inductive Moves : Config → Config → Prop where
  | evaluates {x : Node} {scope : Nat} {frames : List Frame} {s : Session} {c : Config}
      (h : Comes [scope] frames s c) : Moves ⟨.eval x scope, frames, s⟩ c
  | takes {control : Control} {f : Frame} {frames : List Frame} {s : Session} {c : Config}
      (hcontrol : control.isOutcome = true) (hf : f.isCall = false)
      (h : Comes f.scopes frames s c) : Moves ⟨control, f :: frames, s⟩ c
  | exits {control control' : Control} {frames : List Frame} {s : Session}
      (hcontrol : control.isOutcome = true) (hcontrol' : control'.isOutcome = true) :
      Moves ⟨control, .call :: frames, s⟩ ⟨control', frames, exitCall s⟩

namespace Comes

variable {scopes : List Nat} {rest : List Frame} {s s' : Session} {control : Control}

/-- An outcome for the frames below. -/
theorem outcome (hcontrol : control.isOutcome = true) (hstore : s'.store = s.store)
    (hdepth : s'.depth = s.depth) (hout : s.out.Takes s'.out) :
    Comes scopes rest s ⟨control, rest, s'⟩ := by
  have hsame : Store.Shifts scopes s.store scopes s'.store := by
    rw [hstore]
    exact .same
  show Comes scopes rest s ⟨control, [] ++ rest, s'⟩
  apply stays _ hsame rfl hdepth hout
  simp [Control.scopes_of_isOutcome hcontrol]

/-- An outcome for the frames below, after a change of the store. -/
theorem stored {v : Value} {store : Store} (hstore : Store.Shifts scopes s.store scopes store)
    (hs : s'.store = store) (hdepth : s'.depth = s.depth)
    (hout : s.out.Takes s'.out) : Comes scopes rest s ⟨.deliver v, rest, s'⟩ := by
  have hchanged : Store.Shifts scopes s.store scopes s'.store := by rwa [hs]
  show Comes scopes rest s ⟨.deliver v, [] ++ rest, s'⟩
  apply stays _ hchanged rfl hdepth hout
  simp [Control.scopes]

/-- Other work in the scope, for the frames below. -/
theorem work {x : Node} {scope : Nat} (hscope : scope ∈ scopes) :
    Comes scopes rest s ⟨.eval x scope, rest, s⟩ := by
  show Comes scopes rest s ⟨.eval x scope, [] ++ rest, s⟩
  apply stays _ .same rfl rfl .nothing
  simpa [Control.scopes] using hscope

/-- Other work in the scope, for a frame that goes on in it. -/
theorem part {x : Node} {scope : Nat} {f : Frame} (hscope : scope ∈ scopes)
    (hf : f.scopes ⊆ scopes) (hcall : f.isCall = false) :
    Comes scopes rest s ⟨.eval x scope, f :: rest, s⟩ := by
  show Comes scopes rest s ⟨.eval x scope, [f] ++ rest, s⟩
  apply stays _ .same (activeCalls_cons hcall []) rfl .nothing
  rw [List.flatMap_singleton]
  exact List.append_subset.mpr ⟨by simpa [Control.scopes] using hscope, hf⟩

theorem ofResult (r : Except Fault Value) (loc : Location) :
    Comes scopes rest s (Config.ofResult r loc rest s) := by
  cases r with
  | ok v => exact outcome rfl rfl rfl .nothing
  | error fault => exact outcome rfl rfl rfl .nothing

end Comes

variable {rest : List Frame} {s s' : Session}

/-- A sequence is work in its scope. -/
theorem sequence_eq (stmts : List Node) (scope : Nat) (frames : List Frame) (s : Session) :
    ∃ control pushed, sequence stmts scope frames s = ⟨control, pushed ++ frames, s⟩ ∧
      control.scopes ++ pushed.flatMap Frame.scopes ⊆ [scope] ∧ activeCalls pushed = 0 := by
  cases stmts with
  | nil => exact ⟨.deliver .nil, [], rfl, by simp [Control.scopes], rfl⟩
  | cons x more =>
    exact ⟨.eval x scope, [.sequence more scope], rfl,
      by simp [Control.scopes, Frame.scopes], rfl⟩

/-- A function is started in a scope of its own, if it has its arguments and there is room for one
more. -/
theorem comes_enter (scopes : List Nat) (f : Closure) (args : List Value) (loc : Location) :
    Comes scopes rest s (enter f args loc rest s) := by
  unfold enter
  -- a call that fails is over before anything is opened or counted
  split
  · exact .outcome rfl rfl rfl .nothing
  split
  · exact .outcome rfl rfl rfl .nothing
  next hroom =>
    obtain ⟨control, pushed, hsequence, hscopes, hcalls⟩ := sequence_eq f.body s.store.fresh
      (.call :: rest) { s.mapStore fun st =>
        (st.push f.scope).defineAll s.store.fresh (f.params.zip args) with depth := s.depth + 1 }
    rw [hsequence, List.append_cons]
    refine .enters ?_ (.opened f.scope (f.params.zip args)) ?_ (Nat.not_le.mp hroom) rfl .nothing
    · simpa [Frame.scopes] using hscopes
    · simp [hcalls]

/-- A block is work in a scope of its own. -/
theorem comes_block (scopes : List Nat) (stmts : List Node) (loc : Location) (scope : Nat) :
    Comes scopes rest s (evalNode (.block stmts loc) scope rest s) := by
  obtain ⟨control, pushed, hsequence, hscopes, hcalls⟩ := sequence_eq stmts s.store.fresh rest
    (s.mapStore (·.push (some scope)))
  simp only [evalNode, hsequence]
  exact .stays hscopes (.opened (some scope) []) hcalls rfl .nothing

theorem comes_applyValue (scopes : List Nat) (callee : Value) (name : Text) (args : List Value)
    (loc : Location) : Comes scopes rest s (applyValue callee name args loc rest s) := by
  unfold applyValue
  split
  next p =>
    cases p with
    | print =>
      -- a printed line is the only thing a primitive does to the session, and it may be refused
      simp only [callPrimitive]
      split
      next hwrite => exact .outcome rfl rfl rfl (.write _ hwrite)
      next => exact .outcome rfl rfl rfl .nothing
    | len | str | num =>
      simp only [callPrimitive]
      split
      · exact .outcome rfl rfl rfl .nothing
      · exact .outcome rfl rfl rfl .nothing
    | failing | faulting => exact .outcome rfl rfl rfl .nothing
  next f => exact comes_enter scopes f args loc
  next => exact .outcome rfl rfl rfl .nothing

theorem comes_nextArgument {scopes : List Nat} {scope : Nat} (hscope : scope ∈ scopes)
    (callee : Value) (name : Text) (before : List Value) (after : List Node) (loc : Location) :
    Comes scopes rest s (nextArgument callee name before after scope loc rest s) := by
  cases after with
  | nil => exact comes_applyValue scopes callee name before.reverse loc
  | cons x more => exact .part hscope (by simpa [Frame.scopes] using hscope) rfl

theorem comes_evalNode (x : Node) (scope : Nat) : Comes [scope] rest s (evalNode x scope rest s) := by
  have hscope : scope ∈ [scope] := List.mem_singleton_self scope
  -- evaluation goes to a part, gives an outcome, or writes a name in the scope it is in
  cases x with
  | missing | number | string => exact .outcome rfl rfl rfl .nothing
  | ident name loc => exact .ofResult _ loc
  | unary | giveBack | assert => exact .part hscope (List.nil_subset _) rfl
  | binary | choice | loop | declare | assign => exact .part hscope (List.Subset.refl _) rfl
  | call name args loc =>
    simp only [evalNode]
    split
    next callee _ => exact comes_nextArgument hscope callee name [] args loc
    next => exact .outcome rfl rfl rfl .nothing
  | block stmts loc => exact comes_block [scope] stmts loc scope
  | function name | prototype name => exact .stored (.bound hscope name _) rfl rfl .nothing
  | main stmts loc => exact .stored (.bound hscope "main" _) rfl rfl .nothing

theorem comes_deliverTo {f : Frame} (hf : f.isCall = false) (v : Value) :
    Comes f.scopes rest s (deliverTo v f rest s) := by
  cases f with
  -- a frame that waits in a scope goes on there, or it is done
  | unary op loc | right op left loc => exact .ofResult _ loc
  | left op right scope loc =>
    have hscope : scope ∈ (Frame.left op right scope loc).scopes := List.mem_singleton_self scope
    simp only [deliverTo, afterLeft]
    split
    · split
      · exact .part hscope (List.nil_subset _) rfl
      · exact .outcome rfl rfl rfl .nothing
    · split
      · exact .outcome rfl rfl rfl .nothing
      · exact .part hscope (List.nil_subset _) rfl
    · exact .part hscope (List.nil_subset _) rfl
  | truth | giveBack => exact .outcome rfl rfl rfl .nothing
  | argument callee name before after scope loc =>
    exact comes_nextArgument (List.mem_singleton_self scope) callee name (v :: before) after loc
  | choose yes no scope => exact .work (List.mem_singleton_self scope)
  | test cond body scope =>
    simp only [deliverTo]
    split
    · exact .part (List.mem_singleton_self scope) (List.Subset.refl _) rfl
    · exact .outcome rfl rfl rfl .nothing
  | again cond body scope => exact .part (List.mem_singleton_self scope) (List.Subset.refl _) rfl
  | declare name scope loc =>
    simp only [deliverTo, declareName]
    split
    · exact .outcome rfl rfl rfl .nothing
    · exact .stored (.bound (List.mem_singleton_self scope) name v) rfl rfl .nothing
  | assign name scope loc =>
    simp only [deliverTo, assignName]
    split
    next howner => exact .stored (.changed (Store.binds_of_owner? howner) v) rfl rfl .nothing
    next => exact .outcome rfl rfl rfl .nothing
  | mark =>
    simp only [deliverTo, leaveMark]
    split
    next hwrite => exact .outcome rfl rfl rfl (.write _ hwrite)
    next => exact .outcome rfl rfl rfl .nothing
  | sequence more scope =>
    cases more with
    | nil => exact .outcome rfl rfl rfl .nothing
    | cons x more => exact .part (List.mem_singleton_self scope) (List.Subset.refl _) rfl
  | call => cases hf

/-- **One step.** Whatever a step does, it is one of the moves. -/
theorem moves_of_step {c c' : Config} (h : c.step = .next c') : c.Moves c' := by
  obtain ⟨control, frames, s⟩ := c
  cases control with
  | eval x scope =>
    cases h
    exact .evaluates (comes_evalNode x scope)
  | deliver v =>
    cases frames with
    | nil => cases h
    | cons f frames =>
      cases h
      -- only the frame of a call changes the count of functions
      cases hf : f.isCall with
      | false => exact .takes rfl hf (comes_deliverTo hf v)
      | true =>
        cases f with
        | call => exact .exits rfl rfl
        | _ => cases hf
  | leave v =>
    cases frames with
    | nil => cases h
    | cons f frames =>
      cases h
      cases f with
      | call => exact .exits rfl rfl
      | _ => exact .takes rfl rfl (.outcome rfl rfl rfl .nothing)
  | fail e =>
    cases frames with
    | nil => cases h
    | cons f frames =>
      cases h
      cases f with
      | call => exact .exits rfl rfl
      | _ => exact .takes rfl rfl (.outcome rfl rfl rfl .nothing)

theorem Comes.takes {scopes : List Nat} {c : Config} (h : Comes scopes rest s c) :
    s.out.Takes c.session.out := by
  cases h with
  | stays _ _ _ _ hout | enters _ _ _ _ _ hout => exact hout

/-- A step adds at most one write to the output. -/
theorem takes_of_step {c c' : Config} (h : c.step = .next c') :
    c.session.out.Takes c'.session.out := by
  cases moves_of_step h with
  | evaluates hcomes | takes _ _ hcomes => exact hcomes.takes
  | exits => exact .nothing

/-! ## §4 Evaluations above frames -/

/-- The evaluation above some frames has not ended: an outcome is still to be taken by a frame
above them. -/
def IsAbove (below : List Frame) (c : Config) : Prop :=
  c.control.isOutcome = true → below.length < c.frames.length

/-- The machine gets from one configuration to another without handing anything to the frames below. -/
def Reaches (below : List Frame) : Config → Config → Prop :=
  Relation.ReflTransGen fun c c' => c.IsAbove below ∧ c.step = .next c'

/-- A frame that takes an outcome of the evaluation is one of its own. -/
theorem exists_of_taken {f : Frame} {frames fs below : List Frame}
    (hlong : below.length < (f :: frames).length) (h : f :: frames = fs ++ below) :
    ∃ gs, fs = f :: gs ∧ frames = gs ++ below := by
  cases fs with
  | nil =>
    rw [List.nil_append] at h
    rw [h] at hlong
    exact absurd hlong (Nat.lt_irrefl _)
  | cons g gs =>
    obtain ⟨rfl, rfl⟩ := List.cons.inj h
    exact ⟨gs, rfl, rfl⟩

/-- With no frames below, every step is one of the evaluation. -/
theorem isAbove_nil {c c' : Config} (h : c.step = .next c') : c.IsAbove [] := by
  obtain ⟨control, frames, s⟩ := c
  intro hcontrol
  cases frames with
  | nil =>
    cases control <;> cases h
    all_goals cases hcontrol
  | cons f frames => simp

/-- A run that ends gets to a configuration without frames that holds the outcome. -/
theorem exists_reaches_of_run {steps : Nat} {c : Config} {o : Outcome} {s : Session}
    (h : c.run steps = some (o, s)) :
    ∃ control, control.isOutcome = true ∧ c.Reaches [] ⟨control, [], s⟩ ∧
      Config.step ⟨control, [], s⟩ = .done o s := by
  induction steps generalizing c with
  | zero => cases h
  | succ steps ih =>
    rw [run] at h
    split at h
    next c' hstep =>
      obtain ⟨control, hcontrol, hreaches, hdone⟩ := ih h
      exact ⟨control, hcontrol, .head ⟨isAbove_nil hstep, hstep⟩ hreaches, hdone⟩
    next o' s' hstep =>
      cases h
      obtain ⟨control, frames, s'⟩ := c
      cases frames with
      -- only without frames is a step the last
      | cons f frames => cases control <;> cases hstep
      | nil =>
        cases control with
        | eval => cases hstep
        | _ =>
          cases hstep
          exact ⟨_, rfl, .refl, rfl⟩

end Config

/-! ## §5 Programs -/

/-- What holds between the sessions before and after every evaluation, and goes on from one to the
next, holds between those before and after a program. -/
theorem Session.runStatements_induct {R : Session → Session → Prop} (hrefl : ∀ s, R s s)
    (htrans : ∀ {s s' s''}, R s s' → R s' s'' → R s s'')
    (heval : ∀ {steps x s o s'}, s.evalNode steps x = some (o, s') → R s s')
    (henter : ∀ {steps f loc s o s'},
      Config.run steps (Config.enter f [] loc [] s) = some (o, s') → R s s')
    {steps : Nat} {loc : Location} {last : Value} {stmts : List Node} {s s' : Session} {o : Outcome}
    (h : s.runStatements steps loc last stmts = some (o, s')) : R s s' := by
  induction stmts generalizing s last with
  | nil =>
    -- after the statements the entry function is called, if there is one
    rw [runStatements, runEntry] at h
    split at h
    next => exact henter h
    next =>
      cases h
      exact hrefl _
  | cons x rest ih =>
    rw [runStatements] at h
    split at h
    next hx => exact htrans (heval hx) (ih h)
    next hx =>
      cases h
      exact heval hx
    next => exact heval h

end Scriptlet
