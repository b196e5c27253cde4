import Scriptlet.Proofs.Moves

/-!
# Blocks and calls keep the names of scopes

A block and a function work in a scope of their own, and so does everything that is evaluated on
their behalf. So a scope that was there before is not worked in until they have ended: no name is
introduced in it, and assignments only change the values of names that it binds already.

`Config.Inside` is what carries the proof: above the frames that were there before, only scopes
from a number on are worked in.

## Contents

- §1 names of scopes
- §2 work inside new scopes
- §3 the main result
-/

namespace Scriptlet

/-! ## §1 Names of scopes -/

/-- The names that a scope binds. -/
def Scope.names (s : Scope) : List Text := s.bindings.map Prod.fst

/-- Which names a scope binds shows in its names. -/
theorem Scope.binds_congr {s s' : Scope} (h : s'.names = s.names) (name : Text) :
    s'.binds name = s.binds name := by
  have hbinds : ∀ s : Scope, s.binds name = s.names.any (name == ·) := fun s => by
    rw [Bool.eq_iff_iff, Scope.binds, Scope.get?, List.lookup_isSome_iff, Scope.names,
      List.any_map, List.any_eq_true]
    rfl
  rw [hbinds, hbinds, h]

/-- Another value for a name is no other name. -/
theorem Scope.names_put {s : Scope} {name : Text} (h : s.binds name = true) (v : Value) :
    (s.put name v).names = s.names := by
  -- the list of bindings keeps its names in their order
  have hreplaced : ∀ bs : List (Text × Value),
      (replaced name v bs).map Prod.fst = bs.map Prod.fst := by
    intro bs
    induction bs with
    | nil => rfl
    | cons b bs ih =>
      rw [replaced]
      split
      · rfl
      · rw [List.map_cons, List.map_cons, ih]
  rw [put, if_pos h]
  exact hreplaced s.bindings

theorem Scope.parent_put (s : Scope) (name : Text) (v : Value) : (s.put name v).parent = s.parent := by
  unfold put
  split <;> rfl

namespace Store

variable {s s' s'' : Store} {n i : Nat}

/-- The scopes up to a number have the same names and the same scope around them. -/
structure Keeps (n : Nat) (s s' : Store) : Prop where
  size : s.scopes.size ≤ s'.scopes.size
  parent : ∀ i < n, (s'.scope i).parent = (s.scope i).parent
  names : ∀ i < n, (s'.scope i).names = (s.scope i).names

theorem Keeps.refl (n : Nat) (s : Store) : Keeps n s s :=
  ⟨Nat.le_refl _, fun _ _ => rfl, fun _ _ => rfl⟩

theorem Keeps.trans (h : Keeps n s s') (h' : Keeps n s' s'') : Keeps n s s'' :=
  ⟨Nat.le_trans h.size h'.size, fun i hi => (h'.parent i hi).trans (h.parent i hi),
    fun i hi => (h'.names i hi).trans (h.names i hi)⟩

theorem size_define (s : Store) (i : Nat) (name : Text) (v : Value) :
    (s.define i name v).scopes.size = s.scopes.size :=
  Array.size_modify

theorem scope_define_ne {j : Nat} (h : i ≠ j) (name : Text) (v : Value) :
    (s.define i name v).scope j = s.scope j := by
  simp [scope, define, Array.getElem?_modify, h]

theorem scope_define_self (h : i < s.scopes.size) (name : Text) (v : Value) :
    (s.define i name v).scope i = (s.scope i).put name v := by
  simp [scope, define, Array.getElem_modify, h]

/-- A name bound in a later scope. -/
theorem keeps_define (hi : n ≤ i) (name : Text) (v : Value) : Keeps n s (s.define i name v) := by
  have hother : ∀ j < n, (s.define i name v).scope j = s.scope j := fun j hj =>
    scope_define_ne (by omega) name v
  exact ⟨Nat.le_of_eq (size_define s i name v).symm, fun j hj => by rw [hother j hj],
    fun j hj => by rw [hother j hj]⟩

/-- Another value for a name, whatever scope binds it. -/
theorem keeps_change {name : Text} (h : (s.scope i).binds name = true) (v : Value) :
    Keeps n s (s.define i name v) := by
  -- a scope that binds a name exists
  have hi : i < s.scopes.size := by
    refine Nat.lt_of_not_le fun hge => ?_
    simp [scope, hge, Scope.binds, Scope.get?] at h
  have hself := scope_define_self hi name v
  refine ⟨Nat.le_of_eq (size_define s i name v).symm, fun j _ => ?_, fun j _ => ?_⟩
  · by_cases hij : i = j
    · rw [← hij, hself, Scope.parent_put]
    · rw [scope_define_ne hij]
  · by_cases hij : i = j
    · rw [← hij, hself, Scope.names_put h]
    · rw [scope_define_ne hij]

theorem keeps_defineAll (hi : n ≤ i) (bindings : List (Text × Value)) :
    Keeps n s (s.defineAll i bindings) := by
  unfold defineAll
  induction bindings generalizing s with
  | nil => exact .refl n s
  | cons b bindings ih => exact (keeps_define hi b.1 b.2).trans ih

theorem keeps_push (hn : n ≤ s.scopes.size) (parent : Option Nat) : Keeps n s (s.push parent) := by
  have hold : ∀ i < n, (s.push parent).scope i = s.scope i := fun i hi => by
    simp [scope, push, Array.getElem?_push, show i ≠ s.scopes.size by omega]
  exact ⟨by simp [push], fun i hi => by rw [hold i hi], fun i hi => by rw [hold i hi]⟩

/-- Work in later scopes keeps the earlier ones, and goes on in later ones. -/
theorem Shifts.keeps {scopes next : List Nat} (h : Shifts scopes s next s')
    (hscopes : ∀ i ∈ scopes, n ≤ i) (hn : n ≤ s.scopes.size) :
    Keeps n s s' ∧ ∀ i ∈ next, n ≤ i := by
  cases h with
  | same => exact ⟨.refl n s, hscopes⟩
  | bound hi name v => exact ⟨keeps_define (hscopes _ hi) name v, hscopes⟩
  | changed hname v => exact ⟨keeps_change hname v, hscopes⟩
  | opened parent bindings =>
    refine ⟨(keeps_push hn parent).trans (keeps_defineAll hn bindings), ?_⟩
    exact List.forall_mem_singleton.mpr hn

end Store

/-! ## §2 Work inside new scopes -/

namespace Config

/-- Above the frames `below`, all work is done in scopes from `n` on. -/
def Inside (n : Nat) (below : List Frame) (c : Config) : Prop :=
  n ≤ c.session.store.scopes.size ∧ ∃ fs, c.frames = fs ++ below ∧
    ∀ i ∈ c.control.scopes ++ fs.flatMap Frame.scopes, n ≤ i

variable {n : Nat} {below : List Frame} {c c' : Config} {s : Session}

/-- What comes of work in new scopes is work in new scopes. -/
theorem Comes.inside {scopes : List Nat} {fs : List Frame} (h : Comes scopes (fs ++ below) s c)
    (hn : n ≤ s.store.scopes.size) (hscopes : ∀ i ∈ scopes, n ≤ i)
    (hfs : ∀ i ∈ fs.flatMap Frame.scopes, n ≤ i) :
    c.Inside n below ∧ s.store.Keeps n c.session.store := by
  cases h with
  | @stays control pushed next s' hnext hstore | @enters control pushed next s' hnext hstore =>
    -- the scopes worked in next are those of the move or of frames that were there already
    obtain ⟨hkeeps, hlater⟩ := hstore.keeps hscopes hn
    refine ⟨⟨Nat.le_trans hn hkeeps.size, pushed ++ fs, (List.append_assoc _ _ _).symm,
      fun i hi => ?_⟩, hkeeps⟩
    rw [List.flatMap_append, ← List.append_assoc] at hi
    rcases List.mem_append.mp hi with hi | hi
    · exact hlater i (hnext hi)
    · exact hfs i hi

/-- **One step** of an evaluation inside new scopes stays inside, and keeps the earlier ones. -/
theorem Inside.step (h : c.Inside n below) (habove : c.IsAbove below) (hstep : c.step = .next c') :
    c'.Inside n below ∧ c.session.store.Keeps n c'.session.store := by
  obtain ⟨hn, fs, hframes, hscopes⟩ := h
  cases moves_of_step hstep with
  | evaluates hcomes =>
    rw [List.forall_mem_append] at hscopes
    simp only at hframes
    subst hframes
    exact hcomes.inside hn hscopes.1 hscopes.2
  | takes hcontrol hf hcomes =>
    obtain ⟨gs, rfl, rfl⟩ := exists_of_taken (habove hcontrol) hframes
    rw [List.flatMap_cons, List.forall_mem_append, List.forall_mem_append] at hscopes
    exact hcomes.inside hn hscopes.2.1 hscopes.2.2
  | exits hcontrol hcontrol' =>
    obtain ⟨gs, rfl, rfl⟩ := exists_of_taken (habove hcontrol) hframes
    rw [List.flatMap_cons, List.forall_mem_append, List.forall_mem_append] at hscopes
    refine ⟨⟨hn, gs, rfl, ?_⟩, .refl n _⟩
    -- what is left is the work of the frames around the call
    rw [Control.scopes_of_isOutcome hcontrol']
    exact hscopes.2.2

/-- All of an evaluation inside new scopes. -/
theorem Inside.reaches (h : c.Inside n below) (hreaches : c.Reaches below c') :
    c'.Inside n below ∧ c.session.store.Keeps n c'.session.store := by
  induction hreaches with
  | refl => exact ⟨h, .refl n _⟩
  | tail _ hgo ih =>
    obtain ⟨hinside, hkeeps⟩ := ih
    obtain ⟨hinside', hkeeps'⟩ := hinside.step hgo.1 hgo.2
    exact ⟨hinside', hkeeps.trans hkeeps'⟩

/-- Whatever work in no scope from before comes to, the scopes from before keep their names. -/
theorem Comes.keeps (h : Comes [] below s c) (hreaches : c.Reaches below c') :
    s.store.Keeps s.store.scopes.size c'.session.store := by
  have hnone : Comes [] ([] ++ below) s c := h
  obtain ⟨hinside, hkeeps⟩ :=
    hnone.inside (Nat.le_refl _) (List.forall_mem_nil _) (List.forall_mem_nil _)
  exact hkeeps.trans (hinside.reaches hreaches).2

end Config

/-! ## §3 The main result -/

/-- The scopes of one session are still there in the other: each lies in the same scope and binds the
same names. -/
def Session.KeepsScopes (s s' : Session) : Prop :=
  ∀ i < s.store.scopes.size, (s'.store.scope i).parent = (s.store.scope i).parent ∧
    ∀ name, (s'.store.scope i).binds name = (s.store.scope i).binds name

/-- **Blocks and calls keep names.** Throughout the evaluation of a block in any scope and the
application of any function, whatever is going on around them and however they end, the scopes that
were there before bind the same names. -/
theorem blocks_and_calls_keep_names (s : Session) (below : List Frame) (c : Config)
    (hc : (∃ stmts loc scope, c = ⟨.eval (.block stmts loc) scope, below, s⟩) ∨
      ∃ f args loc, c = Config.enter f args loc below s) :
    (∀ c', c.Reaches below c' → s.KeepsScopes c'.session) ∧
      ∀ steps o s', below = [] → c.run steps = some (o, s') → s.KeepsScopes s' := by
  have hkeeps : ∀ c', c.Reaches below c' → s.KeepsScopes c'.session := by
    intro c' hreaches
    have hstore : s.store.Keeps s.store.scopes.size c'.session.store := by
      rcases hc with ⟨stmts, loc, scope, rfl⟩ | ⟨f, args, loc, rfl⟩
      · -- the first step opens the scope of the block
        rcases Relation.ReflTransGen.cases_head hreaches with rfl | ⟨c₁, ⟨-, hstep⟩, hreaches⟩
        · exact .refl _ _
        · cases hstep
          exact (Config.comes_block [] stmts loc scope).keeps hreaches
      · exact (Config.comes_enter [] f args loc).keeps hreaches
    exact fun i hi => ⟨hstore.parent i hi, Scope.binds_congr (hstore.names i hi)⟩
  refine ⟨hkeeps, fun steps o s' hbelow hrun => ?_⟩
  subst hbelow
  obtain ⟨control, -, hreaches, -⟩ := Config.exists_reaches_of_run hrun
  exact hkeeps _ hreaches

/-- A block that defines a function and calls it, and then fails. The function declares a variable
and gives its value to `nil`. -/
def meddling : Node :=
  .block [
    .function "f" [] [
      .declare "y" (.string "a" .nowhere) .nowhere,
      .assign "nil" (.ident "y" .nowhere) .nowhere] .nowhere .nowhere,
    .call "f" [] .nowhere,
    .ident "z" .nowhere] .nowhere

theorem blocks_and_calls_keep_names_meddling :
    let s := Session.start .unlimited
    ∃ o s', Config.run 20 ⟨.eval meddling Store.global, [], s⟩ = some (o, s') ∧
      (o matches .failed _) ∧
      ((s'.store.scope Store.global).get? "nil").any (·.equal (.string "a")) ∧
      s.KeepsScopes s' := by
  intro s
  have hrun : (Config.run 20 ⟨.eval meddling Store.global, [], s⟩).any (fun r =>
      (r.1 matches .failed _) &&
        ((r.2.store.scope Store.global).get? "nil").any (·.equal (.string "a"))) := by
    decide +kernel
  obtain ⟨⟨o, s'⟩, hrun, hend⟩ := (Option.any_eq_true _ _).mp hrun
  rw [Bool.and_eq_true] at hend
  exact ⟨o, s', hrun, hend.1, hend.2,
    (blocks_and_calls_keep_names s [] _ (.inl ⟨_, _, _, rfl⟩)).2 20 o s' rfl hrun⟩

end Scriptlet
