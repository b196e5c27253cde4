import Scriptlet.Proofs.Moves

/-!
# The depth of calls

A session counts the functions that are being executed, and starts no more than `maxDepth` at a
time. The frames of the machine tell the same number: each function being executed has one. Every
step keeps the two equal, whether functions end with a value, by leaving or by failing, so the count
is zero again whenever nothing is being evaluated.

## Contents

- §1 counts and frames
- §2 calls of functions
- §3 requests to a session
- §4 the main result
-/

namespace Scriptlet

namespace Config

variable {c c' : Config} {s s' : Session}

/-! ## §1 Counts and frames -/

/-- The session counts the functions being executed, and they are not too many. -/
structure Balanced (c : Config) : Prop where
  count : c.session.depth = activeCalls c.frames
  bound : c.session.depth ≤ maxDepth

theorem Comes.balanced {scopes : List Nat} {rest : List Frame} (h : Comes scopes rest s c)
    (hcount : s.depth = activeCalls rest) (hbound : s.depth ≤ maxDepth) : c.Balanced := by
  -- the count grows by one exactly if a frame of a call is pushed
  cases h with
  | stays _ _ hcalls hdepth =>
    refine ⟨?_, by rw [hdepth]; exact hbound⟩
    rw [hdepth, hcount, activeCalls_append, hcalls, Nat.zero_add]
  | enters _ _ hcalls hlt hdepth =>
    refine ⟨?_, by rw [hdepth]; exact hlt⟩
    rw [hdepth, hcount, activeCalls_append, hcalls, Nat.add_comm]

/-- **One step** keeps the count. -/
theorem Balanced.step (h : c.Balanced) (hstep : c.step = .next c') : c'.Balanced := by
  obtain ⟨hcount, hbound⟩ := h
  cases moves_of_step hstep with
  | evaluates hcomes => exact hcomes.balanced hcount hbound
  | takes _ hf hcomes =>
    rw [activeCalls_cons hf] at hcount
    exact hcomes.balanced hcount hbound
  | exits =>
    rw [activeCalls_call] at hcount
    refine ⟨?_, Nat.le_trans (Nat.sub_le _ 1) hbound⟩
    rw [exitCall, hcount, Nat.add_sub_cancel]

theorem Balanced.reaches {below : List Frame} (h : c.Balanced) (hreaches : c.Reaches below c') :
    c'.Balanced := by
  induction hreaches with
  | refl => exact h
  | tail _ hgo ih => exact ih.step hgo.2

theorem balanced_start {control : Control} (h : s.depth = 0) : Balanced ⟨control, [], s⟩ :=
  ⟨h, by rw [h]; exact Nat.zero_le _⟩

/-- An evaluation that begins with no function being executed ends with none. -/
theorem Balanced.run {steps : Nat} {o : Outcome} (h : c.Balanced)
    (hrun : c.run steps = some (o, s')) : s'.depth = 0 := by
  obtain ⟨control, -, hreaches, -⟩ := exists_reaches_of_run hrun
  exact (h.reaches hreaches).count

/-! ## §2 Calls of functions -/

/-- The next step calls the function with the arguments, above the frames: there are no arguments to
evaluate, or the last one has been. -/
inductive Applies : Config → Closure → List Value → Location → List Frame → Prop where
  | bare {name : Text} {f : Closure} {loc : Location} {scope : Nat} {frames : List Frame}
      {s : Session} (h : s.store.get scope name = .ok (.function (some f))) :
      Applies ⟨.eval (.call name [] loc) scope, frames, s⟩ f [] loc frames
  | last {v : Value} {f : Closure} {name : Text} {before : List Value} {scope : Nat}
      {loc : Location} {frames : List Frame} {s : Session} :
      Applies ⟨.deliver v, .argument (.function (some f)) name before [] scope loc :: frames, s⟩ f
        (before.reverse ++ [v]) loc frames

variable {f : Closure} {args : List Value} {loc : Location} {frames : List Frame}

theorem Applies.step_eq (h : c.Applies f args loc frames) :
    c.step = .next (enter f args loc frames c.session) ∧
      activeCalls c.frames = activeCalls frames := by
  cases h with
  | bare h => simp [step, evalNode, h, nextArgument, applyValue]
  | last =>
    refine ⟨?_, activeCalls_cons rfl frames⟩
    simp [step, deliverTo, nextArgument, applyValue]

/-- A call finds the calls too deep if it has the right number of arguments and as many functions as
possible are being executed. -/
theorem enter_exceeds_iff (hbound : s.depth ≤ maxDepth) :
    (enter f args loc frames s).control = .fail (.runtime ⟨.depthExceeded f.name, loc⟩) ↔
      args.length = f.params.length ∧ s.depth = maxDepth := by
  unfold enter
  split
  next hcount =>
    simp [faulted, hcount]
  next hcount =>
    split
    next hfull =>
      simp [faulted, Decidable.not_not.mp hcount, Nat.le_antisymm hbound hfull]
    next hroom =>
      -- the body is started, which is no failure
      have hdepth : s.depth ≠ maxDepth := Nat.ne_of_lt (Nat.not_le.mp hroom)
      cases hbody : f.body with
      | nil => simp [sequence, hdepth]
      | cons x rest => simp [sequence, hdepth]

end Config

/-! ## §3 Requests to a session -/

/-- What a host asks of a session. -/
inductive Request where
  /-- Evaluate the node in the scope. -/
  | eval (x : Node) (scope : Nat)
  /-- Run the program. -/
  | run (p : Program)

namespace Session

/-- How a request ends, if it does within some steps. -/
def answer (steps : Nat) (s : Session) : Request → Option (Outcome × Session)
  | .eval x scope => Config.run steps ⟨.eval x scope, [], s⟩
  | .run p => s.run steps p

/-- The sessions that a new one becomes by requests, however they end. -/
inductive Lived : Session → Prop where
  | start (out : Sink) : Lived (.start out)
  | answered {s s' : Session} {r : Request} {steps : Nat} {o : Outcome} (h : Lived s)
      (hr : s.answer steps r = some (o, s')) : Lived s'

/-- The statements end with values, one after the other. -/
def Through : List Node → Session → Session → Prop
  | [], s, s' => s' = s
  | x :: rest, s, s' =>
    ∃ steps v s₁, s.evalNode steps x = some (.value v, s₁) ∧ Through rest s₁ s'

/-- The evaluations that a request consists of, as they begin. -/
inductive Begins (s : Session) : Request → Config → Prop where
  | node (x : Node) (scope : Nat) : Begins s (.eval x scope) ⟨.eval x scope, [], s⟩
  | statement {p : Program} {before after : List Node} {x : Node} {s₁ : Session}
      (hp : p.stmts = before ++ x :: after) (h : Through before { s with entry := none } s₁) :
      Begins s (.run p) ⟨.eval x Store.global, [], s₁⟩
  | entry {p : Program} {f : Closure} {s₁ : Session}
      (h : Through p.stmts { s with entry := none } s₁) (hf : s₁.entry = some f) :
      Begins s (.run p) (Config.enter f [] p.loc [] s₁)

/-- The configuration occurs in the course of a request. -/
def Passes (s : Session) (r : Request) (c : Config) : Prop :=
  ∃ first, s.Begins r first ∧ first.Reaches [] c

/-- In the course of a request a function is called with some arguments at a place, above some
frames, and what the call comes to. -/
inductive Calls (s : Session) : Request → Closure → List Value → Location → List Frame → Config →
    Prop where
  | expression {r : Request} {c c' : Config} {f : Closure} {args : List Value} {loc : Location}
      {frames : List Frame} (hc : s.Passes r c) (h : c.Applies f args loc frames)
      (hstep : c.step = .next c') : Calls s r f args loc frames c'
  | entry {p : Program} {f : Closure} {s₁ : Session}
      (h : Through p.stmts { s with entry := none } s₁) (hf : s₁.entry = some f) :
      Calls s (.run p) f [] p.loc [] (Config.enter f [] p.loc [] s₁)

variable {s s' : Session} {r : Request} {c : Config}

theorem Through.depth {stmts : List Node} (h : Through stmts s s') (hs : s.depth = 0) :
    s'.depth = 0 := by
  induction stmts generalizing s with
  | nil =>
    cases h
    exact hs
  | cons x rest ih =>
    obtain ⟨steps, v, s₁, hx, hrest⟩ := h
    exact ih hrest ((Config.balanced_start hs).run hx)

/-- Every evaluation begins with the count of its frames. -/
theorem Begins.balanced (h : s.Begins r c) (hs : s.depth = 0) : c.Balanced := by
  cases h with
  | node => exact Config.balanced_start hs
  | statement _ h => exact Config.balanced_start (h.depth hs)
  | entry h =>
    have hdepth := h.depth hs
    exact (Config.comes_enter [] _ [] _).balanced hdepth (by rw [hdepth]; exact Nat.zero_le _)

theorem Passes.balanced (h : s.Passes r c) (hs : s.depth = 0) : c.Balanced := by
  obtain ⟨first, hbegins, hreaches⟩ := h
  exact (hbegins.balanced hs).reaches hreaches

/-- A request leaves no function being executed. -/
theorem depth_of_answer {steps : Nat} {o : Outcome} (hs : s.depth = 0)
    (h : s.answer steps r = some (o, s')) : s'.depth = 0 := by
  cases r with
  | eval x scope => exact (Config.balanced_start hs).run h
  | run p =>
    refine runStatements_induct (R := fun s s' => s.depth = 0 → s'.depth = 0) (fun _ hs => hs)
      (fun h h' hs => h' (h hs)) (fun hx hs => (Config.balanced_start hs).run hx) ?_ h hs
    -- the entry point is called by the host, with no frame below it
    intro _ f loc _ _ _ hrun hs
    exact ((Config.comes_enter [] f [] loc).balanced hs (by rw [hs]; exact Nat.zero_le _)).run hrun

/-! `Begins` and `Passes` are about runs as they are: a run ends in one of its evaluations, and it
fails when one of them does. -/

theorem Through.snoc {stmts : List Node} {x : Node} {steps : Nat} {v : Value} {s₁ s₂ : Session}
    (h : Through stmts s s₁) (hx : s₁.evalNode steps x = some (.value v, s₂)) :
    Through (stmts ++ [x]) s s₂ := by
  induction stmts generalizing s with
  | nil =>
    cases h
    exact ⟨steps, v, s₂, hx, rfl⟩
  | cons y rest ih =>
    obtain ⟨n, w, s₃, hy, hrest⟩ := h
    exact ⟨n, w, s₃, hy, ih hrest⟩

/-- The end of an evaluation is passed. -/
theorem passes_of_begins {steps : Nat} {o : Outcome} (h : s.Begins r c)
    (hrun : c.run steps = some (o, s')) :
    ∃ c', s.Passes r c' ∧ c'.step = .done o s' := by
  obtain ⟨control, -, hreaches, hdone⟩ := Config.exists_reaches_of_run hrun
  exact ⟨_, ⟨c, h, hreaches⟩, hdone⟩

/-- A run of statements, behind others that have ended with values, ends in an evaluation of the
program, or has none left. -/
theorem passes_of_runStatements {p : Program} {before stmts : List Node} {steps : Nat} {last : Value}
    {s₁ : Session} {o : Outcome} (hp : p.stmts = before ++ stmts)
    (h : Through before { s with entry := none } s₁)
    (hrun : s₁.runStatements steps p.loc last stmts = some (o, s')) :
    (∃ c o', s.Passes (.run p) c ∧ c.step = .done o' s') ∨
      Through p.stmts { s with entry := none } s' ∧ s'.entry = none := by
  induction stmts generalizing before last s₁ with
  | nil =>
    rw [List.append_nil] at hp
    subst hp
    rw [runStatements, runEntry] at hrun
    split at hrun
    next f hf =>
      obtain ⟨c, hc, hdone⟩ := passes_of_begins (.entry h hf) hrun
      exact .inl ⟨c, o, hc, hdone⟩
    next hnone =>
      cases hrun
      exact .inr ⟨h, hnone⟩
  | cons x rest ih =>
    rw [runStatements] at hrun
    have hbegins : s.Begins (.run p) ⟨.eval x Store.global, [], s₁⟩ := .statement hp h
    -- a value goes on to the next statement, everything else ends the program there
    split at hrun
    next hx => exact ih (by rw [hp, List.append_assoc]; rfl) (h.snoc hx) hrun
    next hx =>
      cases hrun
      obtain ⟨c, hc, hdone⟩ := passes_of_begins hbegins hx
      exact .inl ⟨c, _, hc, hdone⟩
    next =>
      obtain ⟨c, hc, hdone⟩ := passes_of_begins hbegins hrun
      exact .inl ⟨c, o, hc, hdone⟩

/-- **A request ends in one of its evaluations**, unless all statements have ended with values and
there is no entry point. -/
theorem passes_of_answer {steps : Nat} {o : Outcome} (h : s.answer steps r = some (o, s')) :
    (∃ c o', s.Passes r c ∧ c.step = .done o' s') ∨
      ∃ p, r = .run p ∧ Through p.stmts { s with entry := none } s' ∧ s'.entry = none := by
  cases r with
  | eval x scope =>
    obtain ⟨c, hc, hdone⟩ := passes_of_begins (.node x scope) h
    exact .inl ⟨c, o, hc, hdone⟩
  | run p =>
    have hstart : Through [] { s with entry := none } { s with entry := none } := rfl
    have hrun := passes_of_runStatements rfl hstart h
    exact hrun.imp_right fun hend => ⟨p, rfl, hend⟩

/-- More steps do no harm. -/
theorem Config.run_of_le {n m : Nat} {a : Outcome × Session} (hle : n ≤ m)
    (h : c.run n = some a) : c.run m = some a := by
  induction n generalizing m c with
  | zero => cases h
  | succ n ih =>
    obtain ⟨m, rfl⟩ := Nat.exists_eq_add_of_le' (Nat.le_trans (Nat.succ_pos n) hle)
    rw [Config.run] at h ⊢
    split at h
    next hstep => exact ih (Nat.le_of_succ_le_succ hle) h
    next hstep => exact h

/-- Statements that end with values are passed by, if there are enough steps. -/
theorem Through.runStatements_append {before : List Node} {s₁ : Session}
    (h : Through before s s₁) (rest : List Node) (loc : Location) :
    ∃ n, ∀ steps, n ≤ steps → ∀ last, ∃ last',
      s.runStatements steps loc last (before ++ rest) =
        s₁.runStatements steps loc last' rest := by
  induction before generalizing s with
  | nil =>
    cases h
    exact ⟨0, fun _ _ last => ⟨last, rfl⟩⟩
  | cons x more ih =>
    obtain ⟨k, v, s₂, hx, hmore⟩ := h
    obtain ⟨n, hn⟩ := ih hmore
    refine ⟨max k n, fun steps hsteps last => ?_⟩
    have hx' : s.evalNode steps x = some (.value v, s₂) :=
      Config.run_of_le (Nat.le_trans (Nat.le_max_left k n) hsteps) hx
    obtain ⟨last', hrest⟩ := hn steps (Nat.le_trans (Nat.le_max_right k n) hsteps) v
    exact ⟨last', by rw [List.cons_append, runStatements, hx', ← hrest]⟩

/-- **Every evaluation takes place**: when it fails, so does the request. -/
theorem answer_of_begins {k : Nat} {e : EvalError} (h : s.Begins r c)
    (hfails : c.run k = some (.failed e, s')) :
    ∃ steps, s.answer steps r = some (.failed e, s') := by
  cases h with
  | node => exact ⟨k, hfails⟩
  | @statement p before after x s₁ hp h =>
    obtain ⟨n, hn⟩ := h.runStatements_append (x :: after) p.loc
    obtain ⟨last, hrun⟩ := hn (max n k) (Nat.le_max_left n k) .nil
    have hx : s₁.evalNode (max n k) x = some (.failed e, s') :=
      Config.run_of_le (Nat.le_max_right n k) hfails
    exact ⟨max n k, by rw [answer, run, hp, hrun, runStatements, hx]⟩
  | @entry p f s₁ h hf =>
    obtain ⟨n, hn⟩ := h.runStatements_append [] p.loc
    obtain ⟨last, hrun⟩ := hn (max n k) (Nat.le_max_left n k) .nil
    rw [List.append_nil] at hrun
    refine ⟨max n k, ?_⟩
    rw [answer, run, hrun, runStatements, runEntry, hf]
    exact Config.run_of_le (Nat.le_max_right n k) hfails

theorem Lived.depth (h : s.Lived) : s.depth = 0 := by
  induction h with
  | start out => rfl
  | answered _ hr ih => exact depth_of_answer ih hr

end Session

/-! ## §4 The main result -/

/-- **The depth of calls.** In a session that has answered any requests, however they ended, no
function counts as being executed, and so it is after every further request. While a request is
dealt with, the session counts the functions being executed, which are never more than `maxDepth`.
A call of a function finds the calls too deep exactly if it has the right number of arguments and
`maxDepth` functions are being executed. -/
theorem calls_are_counted (s : Session) (hs : s.Lived) :
    s.depth = 0 ∧ ∀ r : Request,
      (∀ steps o s', s.answer steps r = some (o, s') → s'.depth = 0) ∧
      (∀ c, s.Passes r c →
        c.session.depth = activeCalls c.frames ∧ activeCalls c.frames ≤ maxDepth) ∧
      ∀ f args loc frames c, s.Calls r f args loc frames c →
        (c.control = .fail (.runtime ⟨.depthExceeded f.name, loc⟩) ↔
          args.length = f.params.length ∧ activeCalls frames = maxDepth) := by
  have hdepth := hs.depth
  refine ⟨hdepth, fun r => ⟨fun steps o s' h => Session.depth_of_answer hdepth h, fun c hc => ?_,
    fun f args loc frames c hcall => ?_⟩⟩
  · obtain ⟨hcount, hbound⟩ := hc.balanced hdepth
    exact ⟨hcount, hcount ▸ hbound⟩
  · cases hcall with
    -- before the step the count is that of the frames, and the call sees this count
    | expression hc happlies hstep =>
      obtain ⟨hcount, hbound⟩ := hc.balanced hdepth
      obtain ⟨hstep', hframes⟩ := happlies.step_eq
      rw [hstep'] at hstep
      cases hstep
      rw [Config.enter_exceeds_iff hbound, hcount, hframes]
    | entry h =>
      have hzero := h.depth hdepth
      rw [Config.enter_exceeds_iff (by rw [hzero]; exact Nat.zero_le _), hzero, activeCalls_nil]

/-- A function that calls another one, which fails. -/
def failingCall : Program :=
  ⟨[ .function "f" [] [.call "g" [] .nowhere] .nowhere .nowhere,
      .function "g" [] [.ident "z" .nowhere] .nowhere .nowhere,
      .call "f" [] .nowhere ], .nowhere⟩

theorem calls_are_counted_failing :
    ∃ o s', (Session.start .unlimited).answer 40 (.run failingCall) = some (o, s') ∧
      (o matches .failed _) ∧ s'.Lived ∧ s'.depth = 0 := by
  have hrun : ((Session.start .unlimited).answer 40 (.run failingCall)).any
      (fun r => r.1 matches .failed _) := by
    decide +kernel
  obtain ⟨⟨o, s'⟩, hrun, hend⟩ := (Option.any_eq_true _ _).mp hrun
  have hlived : s'.Lived := .answered (.start _) hrun
  exact ⟨o, s', hrun, hend, hlived, (calls_are_counted s' hlived).1⟩

end Scriptlet
