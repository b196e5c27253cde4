import Mathlib
import Scriptlet.Proofs.Height
import Scriptlet.Proofs.Translation

/-!
# Generated code keeps the stack in order

The code of every expression and statement leaves the stack pointer where it was: what it pushes it
pops, and the words for arguments are taken off before the call. Nodes come with heights for their
labels (`Tame`), and the heights of a function are put together from those of its parts. Whatever
path is taken through a function, the stack pointer then stands where the heights say, calls find it
aligned, and the caller has its stack and its frame back.

No assumption is made about the nodes. Calls may be nested in calls and declarations in expressions,
as long as there is code for them.

## Contents

- §1 offsets
- §2 code with heights
- §3 nodes
- §4 functions
- §5 the main result
-/

namespace Scriptlet

namespace Assembly

/-! ## §1 Offsets -/

namespace Layout

variable {slot : Int → Prop} {l : Layout} {name : Text}

/-- The offsets of variables, now and later. -/
structure Within (slot : Int → Prop) (l : Layout) : Prop where
  slots : ∀ p ∈ l.slots, slot p.2
  free : ∀ off ≤ l.next, slot off

theorem within_true (l : Layout) : l.Within fun _ => True :=
  ⟨fun _ _ => trivial, fun _ _ => trivial⟩

/-- The slots of names are of the kind that the layout stays within. -/
theorem Within.offset (h : l.Within slot) {off : Int} (hoff : l.offset? name = some off) :
    slot off :=
  h.slots _ (mem_of_offset? hoff)

/-- A declaration stays within, for the slot below is of the kind too. -/
theorem Within.declare (h : l.Within slot) (name : Text) :
    slot (l.declare name).1 ∧ (l.declare name).2.Within slot := by
  unfold Layout.declare
  split
  next off hoff => exact ⟨h.offset hoff, h⟩
  next =>
    refine ⟨h.free _ le_rfl, List.forall_mem_cons.mpr ⟨h.free _ le_rfl, h.slots⟩, fun off hoff => ?_⟩
    apply h.free
    simp only at hoff
    omega

theorem Within.reserveAll (h : l.Within slot) (xs : List Node) : (l.reserveAll xs).Within slot :=
  reserveAll_of_declare (fun _ name h => (h.declare name).2) h xs

theorem within_ofMain : ofMain.Within BelowFrame :=
  ⟨by simp [ofMain], fun _ h => h⟩

/-- Parameters have the four words below the saved ones. -/
theorem within_ofParams {params : List Text} (h : params.length ≤ maxArgs) :
    (ofParams params).Within BelowFrame := by
  have hspill : ∀ (ps : List Text) (off : Int) (slots : List (Text × Int)),
      off + 4 * ps.length ≤ 0 → (∀ p ∈ slots, BelowFrame p.2) →
        ∀ p ∈ spill off ps slots, BelowFrame p.2 := by
    -- the words are given out upwards, and the last of four ends below the saved ones
    intro ps
    induction ps with
    | nil => exact fun _ _ _ hslots => hslots
    | cons p ps ih =>
      intro off slots hoff hslots
      rw [List.length_cons] at hoff
      refine ih _ _ (by omega) (List.forall_mem_cons.mpr ⟨?_, hslots⟩)
      show off ≤ -4
      omega
  have hlength : params.length ≤ 4 := h
  constructor
  · exact hspill params (-16) [] (by omega) (by simp)
  · intro off hoff
    have hnext : off ≤ -20 := hoff
    show off ≤ -4
    omega

end Layout

/-! ## §2 Code with heights -/

variable {slot : Int → Prop} {k k' k'' : Int} {a b : List Line}

/-- Code that takes the stack from one height to another, with heights for its own labels. -/
def Levels (slot : Int → Prop) (k : Int) (code : List Line) (k' : Int) : Prop :=
  ∃ marks : List (Label × Int),
    (marks.map Prod.fst).Perm (placed code) ∧ Steady marks slot k code k'

theorem Levels.nil : Levels slot k [] k := ⟨[], .nil, .nil⟩

/-- Levels along code, one part behind the other. -/
theorem Levels.append (ha : Levels slot k a k') (hb : Levels slot k' b k'') :
    Levels slot k (a ++ b) k'' := by
  obtain ⟨marks, hperm, hsteady⟩ := ha
  obtain ⟨marks', hperm', hsteady'⟩ := hb
  refine ⟨marks ++ marks', ?_, ?_⟩
  · rw [List.map_append, placed_append]
    exact hperm.append hperm'
  · apply Steady.append (hsteady.mono (List.subset_append_left _ _))
    exact hsteady'.mono (List.subset_append_right _ _)

/-- One instruction takes the level up by its rise. -/
theorem Levels.instr {i : Instr} {d : Int} (hrise : i.rise? = some d)
    (hi : i.Allowed [] slot k) : Levels slot k [.instr i] (k + d) :=
  ⟨[], .nil, .instr hrise hi .nil⟩

/-- The instruction works on scratch registers only. -/
def Instr.onScratch : Instr → Bool
  | .literal dst _ | .load dst _ _ | .move _ dst _ | .mls dst _ _ _ | .arith _ dst _ _ =>
    dst.isScratch
  | .compare _ _ => true
  | _ => false

/-- An instruction on scratch registers leaves the stack alone and is allowed at any height. -/
theorem Instr.still_of_onScratch {i : Instr} (h : i.onScratch = true) :
    i.rise? = some 0 ∧ ∀ marks slot k, i.Allowed marks slot k := by
  cases i with
  | literal | load | move | mls | arith => exact ⟨if_pos h, fun _ _ _ => trivial⟩
  | compare => exact ⟨rfl, fun _ _ _ => trivial⟩
  | _ => cases h

/-- Instructions that leave the stack alone. -/
theorem Levels.instrs {is : List Instr} (h : ∀ i ∈ is, i.rise? = some 0 ∧ i.Allowed [] slot k) :
    Levels slot k (is.map .instr) k := by
  induction is with
  | nil => exact .nil
  | cons i is ih =>
    rw [List.forall_mem_cons] at h
    have hfirst := Levels.instr h.1.1 h.1.2
    rw [Int.add_zero] at hfirst
    exact hfirst.append (ih h.2)

theorem Levels.leaving : Levels slot k leaving k := ⟨[], .nil, .leave .nil⟩

section Branches

variable {marks : List (Label × Int)} {rest : List Line} {cond : Cond} {l : Label}

/-- An instruction that leaves the stack alone. -/
theorem Steady.still {i : Instr} (hrise : i.rise? = some 0) (hi : i.Allowed marks slot k)
    (h : Steady marks slot k rest k') : Steady marks slot k (.instr i :: rest) k' := by
  apply Steady.instr hrise hi
  rwa [Int.add_zero]

/-- A branch to a mark is steady where the mark has the level. -/
theorem Steady.branch (hl : (l, k) ∈ marks) (h : Steady marks slot k rest k') :
    Steady marks slot k (.instr (.branch cond l) :: rest) k' :=
  .still rfl hl h

/-- A test branches to a label of its height. -/
theorem Steady.test (hl : (l, k) ∈ marks) (h : Steady marks slot k rest k') :
    Steady marks slot k (Assembly.test cond l ++ rest) k' :=
  .still rfl trivial (.branch hl h)

end Branches

/-- What a production gives within a function, started at any height up to `top` that is aligned:
code that keeps the height, and labels of its own. -/
structure Tame (slot : Int → Prop) (top : Int) (n : Nat) (code : List Line) (c : Context) :
    Prop where
  layout : ∃ l, c.layout = some l ∧ l.Within slot
  numbered : Numbered n code c.labels
  levels : ∀ k ≤ top, 8 ∣ k → Levels slot k code k

/-- The code places two labels of its own among those of its parts. All of them have heights if its
parts do. -/
theorem Tame.withLabels (s t : Text) {top : Int} {n : Nat} {parts code : List Line} {c : Context}
    (hlayout : ∃ l, c.layout = some l ∧ l.Within slot) (hparts : Numbered (n + 2) parts c.labels)
    (hplaced : (placed code).Perm (⟨s, n + 1⟩ :: ⟨t, n + 2⟩ :: placed parts))
    (hlevels : ∀ k ≤ top, 8 ∣ k → ∃ marks : List (Label × Int),
      (marks.map Prod.fst).Perm (placed parts) ∧
        ∀ all, marks ⊆ all → (⟨s, n + 1⟩, k) ∈ all → (⟨t, n + 2⟩, k) ∈ all →
          Steady all slot k code k) : Tame slot top n code c := by
  refine ⟨hlayout, hparts.withLabels s t hplaced, fun k hk hdvd => ?_⟩
  -- the two labels stand at the height where the node starts
  obtain ⟨marks, hperm, hsteady⟩ := hlevels k hk hdvd
  refine ⟨(⟨s, n + 1⟩, k) :: (⟨t, n + 2⟩, k) :: marks, ?_, ?_⟩
  · exact ((hperm.cons _).cons _).trans hplaced.symm
  · apply hsteady
    · exact fun j hj => List.mem_cons_of_mem _ (List.mem_cons_of_mem _ hj)
    · simp
    · simp

/-- A production gives tame code in every frame. -/
def Tames (slot : Int → Prop) (top : Int) (m : Emit Unit) : Prop :=
  ∀ n l code c, l.Within slot → m.Gives ⟨n, some l⟩ code () c → Tame slot top n code c

namespace Tames

variable {top : Int} {m m' : Emit Unit} {x y z : Node} {loc : Location}

/-- What is tame up to a level is tame up to a lower one. -/
theorem mono {top' : Int} (htop : top' ≤ top) (h : Tames slot top m) : Tames slot top' m := by
  intro n l code c hl hm
  have htame := h n l code c hl hm
  exact ⟨htame.layout, htame.numbered, fun k hk => htame.levels k (hk.trans htop)⟩

theorem constant : Tames slot top (Emit.constant ()) := by
  intro n l code c hl hm
  obtain ⟨rfl, -, rfl⟩ := Emit.gives_constant.mp hm
  exact ⟨⟨l, rfl, hl⟩, .none rfl, fun _ _ _ => .nil⟩

theorem refuse (fault : EmitFault) : Tames slot top (Emit.refuse fault loc) :=
  fun _ _ _ _ _ hm => (Emit.gives_refuse.mp hm).elim

/-- Instructions that are allowed everywhere are tame. -/
theorem instrs {is : List Instr}
    (h : ∀ i ∈ is, i.rise? = some 0 ∧ ∀ k ≤ top, 8 ∣ k → i.Allowed [] slot k) :
    Tames slot top (Emit.instrs is) := by
  intro n l code c hl hm
  obtain ⟨rfl, rfl⟩ := Emit.gives_instrs.mp hm
  refine ⟨⟨l, rfl, hl⟩, .none (placed_instrs is), fun k hk hdvd => ?_⟩
  exact .instrs fun i hi => ⟨(h i hi).1, (h i hi).2 k hk hdvd⟩

/-- Instructions on scratch registers are tame. -/
theorem scratch {is : List Instr} (h : is.all Instr.onScratch = true) :
    Tames slot top (Emit.instrs is) :=
  instrs fun i hi =>
    have hstill := Instr.still_of_onScratch (List.all_eq_true.mp h i hi)
    ⟨hstill.1, fun k _ _ => hstill.2 [] slot k⟩

theorem leave : Tames slot top Emit.leave := by
  intro n l code c hl hm
  obtain ⟨rfl, rfl⟩ := Emit.gives_instrs.mp hm
  exact ⟨⟨l, rfl, hl⟩, .none rfl, fun _ _ _ => .leaving⟩

/-- Tame productions are tame one behind the other. -/
theorem seq (h : Tames slot top m) (h' : Tames slot top m') :
    Tames slot top (m >>= fun _ => m') := by
  intro n l code c hl hm
  obtain ⟨a, ⟨n₁, layout⟩, ha, b, hb, rfl⟩ := Emit.gives_seq.mp hm
  have htame := h n l a _ hl ha
  obtain ⟨l₁, rfl, hl₁⟩ := htame.layout
  have htame' := h' n₁ l₁ b c hl₁ hb
  exact ⟨htame'.layout, htame.numbered.append htame'.numbered,
    fun k hk hdvd => (htame.levels k hk hdvd).append (htame'.levels k hk hdvd)⟩

/-! ## §3 Nodes -/

theorem number (v : Float) : Tames slot top (emit (.number v loc)) := by
  rw [emit, Emit.number]
  split
  next n =>
    split
    · exact scratch rfl
    · exact refuse _
  next => exact refuse _

theorem ident (name : Text) : Tames slot top (emit (.ident name loc)) := by
  intro n l code c hl hm
  rw [emit] at hm
  obtain ⟨_, _, _, hlookup, _, hload, rfl⟩ := Emit.gives_bind.mp hm
  obtain ⟨rfl, -, rfl⟩ := Emit.gives_offsetOf hlookup
  exact scratch rfl n l _ c hl hload

/-- A unary operator is as tame as its operand. -/
theorem unary (op : UnaryOp) (hx : Tames slot top (emit x)) :
    Tames slot top (emit (.unary op x loc)) := by
  rw [emit]
  apply hx.seq
  cases op with
  | unknown => exact refuse _
  | _ => exact scratch rfl

/-- An operator works on scratch registers only. -/
theorem operator (op : BinaryOp) : Tames slot top (Emit.binary op loc) := by
  cases op with
  | power | and | or | unknown => exact refuse _
  | _ => exact scratch rfl

/-- The left operand waits on the stack, eight bytes of it, while the right one is computed. -/
theorem operands {op : BinaryOp} (hop : logical? op = none) (hx : Tames slot (-8) (emit x))
    (hy : Tames slot (-8) (emit y)) : Tames slot (-8) (emit (.binary op x y loc)) := by
  by_cases hpower : op = .power
  · subst hpower
    rw [emit]
    exact refuse _
  rw [emit_operands hop hpower]
  apply hx.seq
  intro n l code c hl hm
  simp only [Emit.gives_emit_bind, Emit.gives_instrs_bind] at hm
  -- the right operand is eight bytes lower, and the pop takes them back
  obtain ⟨_, ⟨b, ⟨n₁, layout⟩, hb, _, ⟨d, hd, rfl⟩, rfl⟩, rfl⟩ := hm
  have htame := hy n l b _ hl hb
  obtain ⟨l₁, rfl, hl₁⟩ := htame.layout
  have hop : Tames slot (-8) (Emit.binary op loc) := operator op
  have htame' := hop n₁ l₁ d c hl₁ hd
  refine ⟨htame'.layout, ?_, fun k hk hdvd => ?_⟩
  · exact (Numbered.none rfl).append (htame.numbered.append
      ((Numbered.none rfl).append htame'.numbered))
  · have hpush : Levels slot k [.instr (.push [.r0, .ip])] (k - 8) := .instr rfl trivial
    have hpop : Levels slot (k - 8) [.instr (.pop [.r1, .ip])] (k - 8 + 8) :=
      .instr rfl (by show k - 8 + 4 * 2 ≤ -8; omega)
    rw [Int.sub_add_cancel] at hpop
    exact hpush.append ((htame.levels _ (by omega) (by omega)).append
      (hpop.append (htame'.levels k hk hdvd)))

/-- A deciding operator is tame: both its labels are met at one level. -/
theorem logical {op : BinaryOp} {cond : Cond} {v : Bool} (hop : logical? op = some (cond, v))
    (hx : Tames slot top (emit x)) (hy : Tames slot top (emit y)) :
    Tames slot top (emit (.binary op x y loc)) := by
  intro n l code c hl hm
  obtain ⟨a, ⟨n₁, layout⟩, b, ha, hb, rfl⟩ := gives_logical hop hm
  have htame := hx _ l a _ hl ha
  obtain ⟨l₁, rfl, hl₁⟩ := htame.layout
  have htame' := hy n₁ l₁ b _ hl₁ hb
  refine .withLabels "short" "end" htame'.layout (htame.numbered.append htame'.numbered)
    (placed_logicalCode n a b cond v) fun k hk hdvd => ?_
  obtain ⟨marks, hperm, hsteady⟩ := htame.levels k hk hdvd
  obtain ⟨marks', hperm', hsteady'⟩ := htame'.levels k hk hdvd
  refine ⟨marks ++ marks', ?_, fun all hsub hshort hdone => ?_⟩
  · rw [List.map_append, placed_append]
    exact hperm.append hperm'
  rw [List.append_subset] at hsub
  refine (hsteady.mono hsub.1).append (.test hshort ?_)
  refine (hsteady'.mono hsub.2).append (.test hshort ?_)
  -- both ways to the end have the height
  refine .still rfl trivial (.branch hdone (.label hshort ?_))
  exact .still rfl trivial (.label hdone .nil)

/-- A choice is tame: its branches come together at one level. -/
theorem choice (hx : Tames slot top (emit x)) (hy : Tames slot top (emit y))
    (hz : Tames slot top (emit z)) : Tames slot top (emit (.choice x y z loc)) := by
  intro n l code c hl hm
  obtain ⟨a, ⟨n₁, layout⟩, b, ⟨n₂, layout'⟩, d, ha, hb, hd, rfl⟩ := gives_choice hm
  have htame := hx _ l a _ hl ha
  obtain ⟨l₁, rfl, hl₁⟩ := htame.layout
  have htame' := hy n₁ l₁ b _ hl₁ hb
  obtain ⟨l₂, rfl, hl₂⟩ := htame'.layout
  have htame'' := hz n₂ l₂ d _ hl₂ hd
  refine .withLabels "else" "endif" htame''.layout
    (htame.numbered.append (htame'.numbered.append htame''.numbered))
    (placed_choiceCode n a b d) fun k hk hdvd => ?_
  obtain ⟨marks, hperm, hsteady⟩ := htame.levels k hk hdvd
  obtain ⟨marks', hperm', hsteady'⟩ := htame'.levels k hk hdvd
  obtain ⟨marks'', hperm'', hsteady''⟩ := htame''.levels k hk hdvd
  -- the heights of the three parts are put together, and each part reads those it knows
  refine ⟨marks ++ (marks' ++ marks''), ?_, fun all hsub hotherwise hdone => ?_⟩
  · rw [List.map_append, List.map_append, placed_append, placed_append]
    exact hperm.append (hperm'.append hperm'')
  rw [List.append_subset, List.append_subset] at hsub
  refine (hsteady.mono hsub.1).append (.test hotherwise ?_)
  refine (hsteady'.mono hsub.2.1).append (.branch hdone (.label hotherwise ?_))
  exact (hsteady''.mono hsub.2.2).append (.label hdone .nil)

/-- A loop is tame: it comes back at the level that it began with. -/
theorem loop (hx : Tames slot top (emit x)) (hy : Tames slot top (emit y)) :
    Tames slot top (emit (.loop x y loc)) := by
  intro n l code c hl hm
  obtain ⟨a, ⟨n₁, layout⟩, b, ha, hb, rfl⟩ := gives_loop hm
  have htame := hx _ l a _ hl ha
  obtain ⟨l₁, rfl, hl₁⟩ := htame.layout
  have htame' := hy n₁ l₁ b _ hl₁ hb
  refine .withLabels "loop" "endloop" htame'.layout (htame.numbered.append htame'.numbered)
    (placed_loopCode n a b) fun k hk hdvd => ?_
  obtain ⟨marks, hperm, hsteady⟩ := htame.levels k hk hdvd
  obtain ⟨marks', hperm', hsteady'⟩ := htame'.levels k hk hdvd
  -- both branches of the loop come back to its height
  refine ⟨marks ++ marks', ?_, fun all hsub hagain hdone => ?_⟩
  · rw [List.map_append, placed_append]
    exact hperm.append hperm'
  rw [List.append_subset] at hsub
  refine .label hagain ((hsteady.mono hsub.1).append (.test hdone ?_))
  exact (hsteady'.mono hsub.2).append (.branch hagain (.label hdone .nil))

/-- The value of a declaration may declare names of its own, which the layout then has, too. -/
theorem declare {name : Text} (hx : Tames slot top (emit x)) :
    Tames slot top (emit (.declare name x loc)) := by
  intro n l code c hl hm
  rw [emit, Emit.gives_layout_bind] at hm
  obtain ⟨a, ⟨n₁, layout⟩, ha, b, hb, rfl⟩ := Emit.gives_emit_bind.mp hm
  have htame := hx n l a _ hl ha
  obtain ⟨l₁, rfl, hl₁⟩ := htame.layout
  obtain ⟨hoff, hl₂⟩ := hl₁.declare name
  have hb := Emit.gives_setLayout_bind.mp (Emit.gives_layout_bind.mp hb)
  have hstore : Tames slot top (Emit.instrs [.store .r0 .fp (l₁.declare name).1]) :=
    instrs (List.forall_mem_singleton.mpr ⟨rfl, fun _ _ _ => hoff⟩)
  -- the store is one line more, at the height of the declaration
  have htame' := hstore n₁ _ b c hl₂ hb
  exact ⟨htame'.layout, htame.numbered.append htame'.numbered,
    fun k hk hdvd => (htame.levels k hk hdvd).append (htame'.levels k hk hdvd)⟩

/-- An assignment stores in a slot and nowhere else. -/
theorem assign {name : Text} (hx : Tames slot top (emit x)) :
    Tames slot top (emit (.assign name x loc)) := by
  intro n l code c hl hm
  rw [emit] at hm
  obtain ⟨_, off, _, hlookup, code, hrest, rfl⟩ := Emit.gives_bind.mp hm
  obtain ⟨rfl, hoff, rfl⟩ := Emit.gives_offsetOf hlookup
  have hstore : Tames slot top (Emit.instrs [.store .r0 .fp off]) :=
    instrs (List.forall_mem_singleton.mpr ⟨rfl, fun _ _ _ => hl.offset hoff⟩)
  exact hx.seq hstore n l _ c hl hrest

/-- A return leaves from any level, for it gives the frame back. -/
theorem giveBack (hx : Tames slot top (emit x)) : Tames slot top (emit (.giveBack x loc)) := by
  intro n l code c hl hm
  rw [emit, Emit.gives_layout_bind] at hm
  simp only at hm
  split at hm
  · have hzero : Tames slot top (Emit.instrs [.move .always .r0 (.imm 0)]) :=
      scratch rfl
    exact hzero.seq leave n l code c hl hm
  · exact hx.seq leave n l code c hl hm

/-- An assertion is tame around its call. -/
theorem assert (hx : Tames slot top (emit x)) : Tames slot top (emit (.assert x loc)) := by
  rw [emit]
  apply hx.seq
  refine instrs ?_
  rw [List.forall_mem_cons, List.forall_mem_cons, List.forall_mem_cons, List.forall_mem_singleton]
  -- only the call asks something of the height
  exact ⟨⟨rfl, fun _ _ _ => trivial⟩, ⟨rfl, fun _ _ _ => trivial⟩, ⟨rfl, fun _ _ _ => trivial⟩,
    rfl, fun _ _ haligned => haligned⟩

/-- Arguments are stored in the four words that the call has made room for. -/
theorem arguments {xs : List Node} (h : ∀ x ∈ xs, Tames slot (-8) (emit x)) {i : Nat}
    (hi : i + xs.length ≤ 4) : Tames slot (-24) (emitArgs i xs) := by
  -- each argument is stored before the next is computed, at the height below all four
  induction xs generalizing i with
  | nil =>
    rw [emitArgs]
    exact constant
  | cons x xs ih =>
    rw [List.forall_mem_cons] at h
    rw [List.length_cons] at hi
    have hstore : Tames slot (-24) (Emit.instrs [.store .r0 .sp (4 * i)]) := by
      apply instrs
      intro j hj
      rw [List.mem_singleton] at hj
      subst hj
      refine ⟨rfl, fun k hk _ => ?_⟩
      show k + 4 * (i : Int) ≤ -12
      omega
    rw [emitArgs]
    exact (h.1.mono (by decide)).seq (hstore.seq (ih h.2 (by omega)))

/-- The words for arguments are popped into the registers before the call. -/
theorem call {callee : Text} {args : List Node} (h : ∀ x ∈ args, Tames slot (-8) (emit x)) :
    Tames slot (-8) (emit (.call callee args loc)) := by
  have hcall : Tames slot (-8) (Emit.instrs [.call callee]) :=
    instrs (List.forall_mem_singleton.mpr ⟨rfl, fun _ _ haligned => haligned⟩)
  unfold emit
  split
  next => exact refuse _
  next hlength =>
    cases args with
    | nil => exact hcall
    | cons x xs =>
      have hargs : Tames slot (-24) (emitArgs 0 (x :: xs)) := by
        apply arguments h
        simp only [maxArgs] at hlength
        omega
      intro n l code c hl hm
      obtain ⟨_, hrest, rfl⟩ := Emit.gives_instrs_bind.mp hm
      obtain ⟨a, ⟨n₁, layout⟩, ha, b, hb, rfl⟩ := Emit.gives_seq.mp hrest
      obtain ⟨rfl, rfl⟩ := Emit.gives_instrs.mp hb
      have htame := hargs n l a _ hl ha
      -- sixteen bytes down for the arguments, and up again before the call
      refine ⟨htame.layout, ?_, fun k hk hdvd => ?_⟩
      · exact (Numbered.none rfl).append (htame.numbered.append (.none rfl))
      · have hroom : Levels slot k [.instr (.arith .sub .sp .sp (.imm 16))] (k - 16) :=
          .instr rfl trivial
        have hpop : Levels slot (k - 16) [.instr (.pop [.r0, .r1, .r2, .r3])] (k - 16 + 16) :=
          .instr rfl (by show k - 16 + 4 * 4 ≤ -8; omega)
        rw [Int.sub_add_cancel] at hpop
        have hlast : Levels slot k [.instr (.call callee)] (k + 0) := .instr rfl hdvd
        rw [Int.add_zero] at hlast
        exact hroom.append ((htame.levels _ (by omega) (by omega)).append (hpop.append hlast))

/-- Statements are tame one behind the other. -/
theorem statements {xs : List Node} (h : ∀ x ∈ xs, Tames slot top (emit x)) :
    Tames slot top (emitAll xs) := by
  induction xs with
  | nil =>
    rw [emitAll]
    exact constant
  | cons x xs ih =>
    rw [List.forall_mem_cons] at h
    rw [emitAll]
    exact h.1.seq (ih h.2)

end Tames

mutual

/-- Whatever code there is for a node within a function, it is tame. -/
theorem tames_emit (slot : Int → Prop) : ∀ x : Node, Tames slot (-8) (emit x)
  | .missing => by
    rw [emit]
    exact .constant
  | .number v _ => .number v
  | .string t _ => by
    rw [emit]
    exact .refuse _
  | .ident name _ => .ident name
  | .unary op x _ => .unary op (tames_emit slot x)
  | .binary op x y loc => by
    cases hop : logical? op with
    | some p => exact .logical hop (tames_emit slot x) (tames_emit slot y)
    | none => exact .operands hop (tames_emit slot x) (tames_emit slot y)
  | .call _ args _ => .call (tames_emitAll slot args)
  | .giveBack x _ => .giveBack (tames_emit slot x)
  | .block stmts loc => by
    rw [emit]
    exact .statements (tames_emitAll slot stmts)
  | .choice x y z _ => .choice (tames_emit slot x) (tames_emit slot y) (tames_emit slot z)
  | .loop x y _ => .loop (tames_emit slot x) (tames_emit slot y)
  | .declare _ x _ => .declare (tames_emit slot x)
  | .assign _ x _ => .assign (tames_emit slot x)
  | .assert x _ => .assert (tames_emit slot x)
  | .function _ _ _ _ _ | .prototype _ _ _ | .main _ _ => by
    -- functions do not stand in functions
    intro n l code c hl hm
    rw [emit, Emit.gives_layout_bind] at hm
    exact (Emit.gives_refuse.mp hm).elim

/-- All members of a list are tame. -/
theorem tames_emitAll (slot : Int → Prop) : ∀ xs : List Node, ∀ x ∈ xs, Tames slot (-8) (emit x)
  | [] => List.forall_mem_nil _
  | x :: xs => List.forall_mem_cons.mpr ⟨tames_emit slot x, tames_emitAll slot xs⟩

end

/-! ## §4 Functions -/

/-- The node has a frame of its own: a function, the head of one, or the entry point. -/
def opensFrame : Node → Bool
  | .function _ _ _ _ _ | .prototype _ _ _ | .main _ _ => true
  | _ => false

/-- The statements of a function. -/
def bodyOf : Node → List Node
  | .function _ _ body _ _ => body
  | .main stmts _ => stmts
  | _ => []

/-- The parameters of a function. -/
def paramsOf : Node → List Text
  | .function _ params _ _ _ | .prototype _ params _ => params
  | _ => []

/-- The function has words for its parameters. -/
def spills : Node → Bool
  | .function _ _ _ _ _ | .prototype _ _ _ => true
  | _ => false

/-- The number of bytes for parameters. -/
def spilled (x : Node) : Nat := if spills x then 16 else 0

/-- The variables of a function: its parameters and what its statements declare. -/
def layoutOf (x : Node) : Layout :=
  (if spills x then Layout.ofParams (paramsOf x) else Layout.ofMain).reserveAll (bodyOf x)

/-- The lines that a function starts with: its name and what saves the frame. -/
def entering (name : Text) : List Line :=
  [ .global name, .entry name, .instr (.push [.fp, .lr]),
    .instr (.move .always .fp (.reg .sp)) ]

/-- The instructions that make room for parameters and locals. -/
def reserving (spill : Bool) (size : Nat) : List Instr :=
  (if spill then [.push [.r0, .r1, .r2, .r3]] else []) ++
    if size > 0 then [.arith .sub .sp .sp (.imm size)] else []

/-- The lines of a function behind those that save the frame, with the code of its statements. -/
def framed (x : Node) (body : List Line) : List Line :=
  (reserving (spills x) (layoutOf x).size).map .instr ++ (body ++ epilogue)

/-- Frames keep the stack pointer aligned to eight. -/
theorem eight_dvd_size (l : Layout) : 8 ∣ l.size := by
  unfold Layout.size
  omega

/-- The layout of a function stays below its frame, with as many parameters as registers. -/
theorem within_layoutOf {x : Node} (h : (paramsOf x).length ≤ maxArgs) :
    (layoutOf x).Within BelowFrame := by
  unfold layoutOf
  split
  · exact (Layout.within_ofParams h).reserveAll _
  · exact Layout.within_ofMain.reserveAll _

/-- The code of a function: its name, a frame with room, and statements with the return behind
them. -/
theorem gives_function {x : Node} {c c' : Context} {code : List Line} (hx : opensFrame x = true)
    (h : (emit x).Gives c code () c') :
    ∃ name body c₁, (paramsOf x).length ≤ maxArgs ∧
      (emitAll (bodyOf x)).Gives ⟨c.labels, some (layoutOf x)⟩ body () c₁ ∧
      code = entering name ++ framed x body := by
  -- the three kinds of node that open a frame; every other has none
  cases x with
  | main stmts loc =>
    obtain ⟨body, c₁, hbody, rfl⟩ := gives_main h
    rw [emit_block] at hbody
    refine ⟨"main", body, c₁, Nat.zero_le _, hbody, ?_⟩
    simp [prologue, entering, framed, reserving, spills, layoutOf, bodyOf]
  | function name params stmts bodyLoc loc =>
    rw [emit, Emit.gives_layout_bind] at h
    split at h
    next => exact (Emit.gives_refuse.mp h).elim
    next =>
      split at h
      next => exact (Emit.gives_refuse.mp h).elim
      next hlength =>
        obtain ⟨_, _, hopen, _, hafter, rfl⟩ := Emit.gives_seq.mp h
        cases hopen
        obtain ⟨_, hroom, rfl⟩ := Emit.gives_instrs_bind.mp hafter
        obtain ⟨_, _, hreserve, _, hframe, rfl⟩ := Emit.gives_seq.mp hroom
        obtain ⟨rfl, rfl⟩ := gives_reserveLocals hreserve
        obtain ⟨body, c₁, hbody, _, hrest, rfl⟩ :=
          Emit.gives_seq.mp (Emit.gives_setLayout_bind.mp hframe)
        obtain ⟨_, _, hclose, _, hend, rfl⟩ := Emit.gives_seq.mp hrest
        cases hclose
        cases hend
        refine ⟨name, body, c₁, Nat.not_lt.mp hlength, hbody, ?_⟩
        simp [Emit.lines, Emit.instrs, Emit.leave, entering, framed, reserving, epilogue, leaving,
          spills, layoutOf, paramsOf, bodyOf]
  | prototype name params loc =>
    rw [emit, Emit.gives_layout_bind] at h
    split at h
    next => exact (Emit.gives_refuse.mp h).elim
    next =>
      split at h
      next => exact (Emit.gives_refuse.mp h).elim
      next hlength =>
        obtain ⟨_, _, hopen, _, hafter, rfl⟩ := Emit.gives_seq.mp h
        cases hopen
        obtain ⟨_, hclose, rfl⟩ := Emit.gives_instrs_bind.mp hafter
        cases hclose
        refine ⟨name, [], _, Nat.not_lt.mp hlength, rfl, ?_⟩
        have hsize : (layoutOf (.prototype name params loc)).size = 0 := by
          simp [layoutOf, spills, bodyOf, Layout.reserveAll, Layout.size, Layout.ofParams]
        simp [Emit.lines, Emit.instrs, Emit.leave, entering, framed, reserving, epilogue, leaving,
          spills, hsize]
  | _ => cases hx

/-- The height behind the instructions that make room. -/
def floorOf (x : Node) : Int := -8 - (spilled x + (layoutOf x).size : Nat)

/-- Reserving a frame goes from its top down to its floor. -/
theorem levels_reserving (slot : Int → Prop) (x : Node) :
    Levels slot (-8) ((reserving (spills x) (layoutOf x).size).map .instr) (floorOf x) := by
  -- registers spilled are sixteen bytes, and the variables come below them
  have hspill : Levels slot (-8)
      ((if spills x then [Instr.push [.r0, .r1, .r2, .r3]] else []).map .instr)
      (-8 - (spilled x : Nat)) := by
    unfold spilled
    split
    · have hpush : Levels slot (-8) [.instr (.push [.r0, .r1, .r2, .r3])] (-8 + -16) :=
        .instr rfl trivial
      exact hpush
    · exact .nil
  have hfloor : floorOf x = -8 - (spilled x : Nat) + -((layoutOf x).size : Int) := by
    unfold floorOf
    omega
  rw [reserving, List.map_append, hfloor]
  apply hspill.append
  split
  · exact .instr (by simp [Instr.rise?, Reg.isScratch]) trivial
  next hsize =>
    have hzero : (layoutOf x).size = 0 := by omega
    rw [hzero]
    simpa using Levels.nil

theorem steady_epilogue {marks : List (Label × Int)} : Steady marks slot k epilogue k :=
  .still rfl trivial (.leave .nil)

/-- A label is found where one stands. -/
theorem exists_of_linesBehind {l : Label} {code target : List Line}
    (h : linesBehind l code = some target) : ∃ before, code = before ++ .label l :: target := by
  fun_induction linesBehind l code with
  | case1 => cases h
  | case2 =>
    cases h
    exact ⟨[], rfl⟩
  | case3 line code _ ih =>
    obtain ⟨before, rfl⟩ := ih h
    exact ⟨line :: before, rfl⟩

/-- The lines of a function behind those that save the frame have heights. -/
theorem graded_of_body {x : Node} {n : Nat} {c : Context} {body : List Line} (name : Text)
    (hparams : (paramsOf x).length ≤ maxArgs)
    (hbody : (emitAll (bodyOf x)).Gives ⟨n, some (layoutOf x)⟩ body () c) :
    ∃ marks, Graded marks BelowFrame (entering name ++ framed x body) (framed x body)
      (floorOf x) := by
  have hfloor : floorOf x ≤ -8 ∧ 8 ∣ floorOf x := by
    have hdvd := eight_dvd_size (layoutOf x)
    unfold floorOf spilled
    split <;> omega
  have hstmts : Tames BelowFrame (-8) (emitAll (bodyOf x)) := .statements (tames_emitAll _ _)
  have htame := hstmts _ _ body c (within_layoutOf hparams) hbody
  have hend : Levels BelowFrame (floorOf x) epilogue (floorOf x) := ⟨[], .nil, steady_epilogue⟩
  -- the lines that reserve, those of the body, and the return
  obtain ⟨marks, hperm, hsteady⟩ := (levels_reserving BelowFrame x).append
    ((htame.levels _ hfloor.1 hfloor.2).append hend)
  refine ⟨marks, hsteady, fun l k k' h h' => ?_, fun l target h => ?_⟩
  · -- labels have different numbers, so none has two heights
    have hnodup : (marks.map Prod.fst).Nodup := by
      rw [hperm.nodup_iff, placed_append, placed_instrs, placed_append]
      simpa [epilogue] using htame.numbered.nodup
    exact congrArg Prod.snd (List.inj_on_of_nodup_map hnodup h h' rfl)
  · apply exists_of_linesBehind
    rwa [entering] at h

/-- The code of a function enters its frame, and is graded behind that. -/
theorem graded_of_gives {x : Node} {c c' : Context} {code : List Line}
    (hx : opensFrame x = true) (h : (emit x).Gives c code () c') :
    ∃ name tail marks e, code = entering name ++ tail ∧ Graded marks BelowFrame code tail e := by
  obtain ⟨name, body, c₁, hparams, hbody, rfl⟩ := gives_function hx h
  obtain ⟨marks, hgraded⟩ := graded_of_body name hparams hbody
  exact ⟨name, _, marks, _, rfl, hgraded⟩

/-- A path from the beginning of a function first saves the frame. -/
theorem path_of_entering {name : Text} {code tail : List Line} {m : Snapshot} {q : Point}
    (h : Path code ⟨some (entering name ++ tail), m⟩ q) :
    (∃ line p, q.ahead = some (line :: p) ∧ line ∈ entering name) ∨
      ∃ m', Saved m m' ∧ m'.regs .sp = m.regs .sp - 8 ∧ Path code ⟨some tail, m'⟩ q := by
  -- the first two lines do nothing
  rcases Path.past h with rfl | ⟨_, hgo, h⟩
  · exact .inl ⟨_, _, rfl, by simp [entering]⟩
  cases hgo
  rcases Path.past h with rfl | ⟨_, hgo, h⟩
  · exact .inl ⟨_, _, rfl, by simp [entering]⟩
  cases hgo
  -- the next ones save the words of the caller and set the frame pointer
  rcases Path.past h with rfl | ⟨_, hgo, h⟩
  · exact .inl ⟨_, _, rfl, by simp [entering]⟩
  obtain ⟨m₁, hpush, rfl⟩ := hgo.straight rfl
  rcases Path.past h with rfl | ⟨_, hgo, h⟩
  · exact .inl ⟨_, _, rfl, by simp [entering]⟩
  obtain ⟨m₂, hmove, rfl⟩ := hgo.straight rfl
  obtain ⟨hsp, hfirst, hsecond⟩ := hpush.save
  obtain ⟨hsp', hfp, hmemory⟩ := hmove.enter
  refine .inr ⟨m₂, ⟨hfp.trans hsp, ?_, ?_⟩, hsp'.trans hsp, h⟩
  · rw [hmemory, hfirst]
  · rw [hmemory, hsecond]

/-- What makes the lines that save the frame different from all others: no node gives them. -/
theorem Steady.not_entering {marks : List (Label × Int)} {line : Line} {rest : List Line}
    {name : Text} (hline : line ∈ entering name) : ¬ Steady marks slot k (line :: rest) k' := by
  intro h
  simp only [entering, List.mem_cons, List.not_mem_nil, or_false] at hline
  rcases hline with rfl | rfl | rfl | rfl
  · cases h
  · cases h
  · cases h with
    | instr hrise => cases hrise
  · cases h with
    | instr hrise => cases hrise

/-! ## §5 The main result -/

/-- **Stack discipline.** In the code of a function, a function head or the entry point:

* whatever path is taken through the code of a node, from any state in front of it to behind it, the
  stack pointer ends where it was;
* paths from the beginning that reach the same label have moved the stack pointer by the same amount;
* where a path from the beginning reaches a call, the stack pointer is a multiple of eight bytes away
  from where it was;
* where a path from the beginning leaves the function, the caller has its stack and frame pointer
  back, and goes on at the return address. -/
theorem stack_discipline (x : Node) (c c' : Context) (code : List Line) (hx : opensFrame x = true)
    (hemit : emit x c = ⟨code, .ok ((), c')⟩) :
    (∀ (y : Node) (d d' : Context) (before part rest : List Line) (m m' : Snapshot),
      d.layout.isSome = true → emit y d = ⟨part, .ok ((), d')⟩ → part ≠ [] →
      code = before ++ part ++ rest → Path code ⟨some (part ++ rest), m⟩ ⟨some rest, m'⟩ →
      m'.regs .sp = m.regs .sp) ∧
    (∀ (l : Label) (rest rest' : List Line) (e e' m m' : Snapshot),
      Path code ⟨some code, e⟩ ⟨some (.label l :: rest), m⟩ →
      Path code ⟨some code, e'⟩ ⟨some (.label l :: rest'), m'⟩ →
      e.regs .sp - m.regs .sp = e'.regs .sp - m'.regs .sp) ∧
    (∀ (name : Text) (rest : List Line) (e m : Snapshot),
      Path code ⟨some code, e⟩ ⟨some (.instr (.call name) :: rest), m⟩ →
      8 ∣ e.regs .sp - m.regs .sp) ∧
    ∀ e m : Snapshot, Path code ⟨some code, e⟩ ⟨none, m⟩ →
      m.regs .sp = e.regs .sp ∧ m.regs .fp = e.regs .fp ∧ m.regs .pc = e.regs .lr := by
  obtain ⟨name, tail, marks, h, rfl, hg⟩ := graded_of_gives hx hemit
  -- a path that has saved the frame has the heights, measured from the beginning
  have hstart : ∀ e m : Snapshot, m.regs .sp = e.regs .sp - 8 →
      Stands marks BelowFrame h (e.regs .sp) ⟨some tail, m⟩ := fun e m hsp =>
    .before hg.steady le_rfl (by omega)
  refine ⟨fun y d d' before part rest m m' hd hy hne hcode hpath => ?_,
    fun l rest rest' e e' m m' hpath hpath' => ?_, fun callee rest e m hpath => ?_,
    fun e m hpath => ?_⟩
  · -- the code of the node has heights of its own, and those of the function go through it
    obtain ⟨n, l⟩ := d
    obtain ⟨l, rfl⟩ := Option.isSome_iff_exists.mp hd
    have htame := tames_emit (fun _ => True) y n l part d' l.within_true hy
    obtain ⟨marks', -, hpart⟩ := htame.levels (-8) le_rfl (by decide)
    obtain ⟨front, rfl⟩ : ∃ front, tail = front ++ (part ++ rest) := by
      rw [List.append_assoc] at hcode
      rcases List.append_eq_append_iff.mp hcode with ⟨front, -, htail⟩ | ⟨front, hname, htail⟩
      · exact ⟨front, htail⟩
      · cases front with
        | nil => exact ⟨[], htail.symm⟩
        | cons line front =>
          -- the code of a node does not begin with the lines that save the frame
          obtain ⟨line', part, rfl⟩ := List.exists_cons_of_ne_nil hne
          obtain ⟨rfl, -⟩ := List.cons.inj htail
          have hmem : line' ∈ entering name := by simp [hname]
          exact absurd hpart (Steady.not_entering hmem)
    rcases hg.steady.split le_rfl with ⟨k, hk, hsteady⟩ | ⟨t, ht⟩
    · have hrest := hpart.behind hsteady
      rw [Int.sub_self, Int.add_zero] at hrest
      exact hg.net_zero hk hsteady hrest hpath
    · obtain ⟨line, part, rfl⟩ := List.exists_cons_of_ne_nil hne
      cases ht
      exact absurd hpart Steady.not_returning
  · rcases path_of_entering hpath with ⟨line, p, heq, hmem⟩ | ⟨m₁, -, hsp, hpath⟩
    · cases heq
      simp [entering] at hmem
    rcases path_of_entering hpath' with ⟨line, p, heq, hmem⟩ | ⟨m₂, -, hsp', hpath'⟩
    · cases heq
      simp [entering] at hmem
    obtain ⟨k, hk, hm⟩ := (hg.stands_of_path (hstart e m₁ hsp) hpath).at_label
    obtain ⟨k', hk', hm'⟩ := (hg.stands_of_path (hstart e' m₂ hsp') hpath').at_label
    have hsame := hg.single l k k' hk hk'
    omega
  · rcases path_of_entering hpath with ⟨line, p, heq, hmem⟩ | ⟨m₁, -, hsp, hpath⟩
    · cases heq
      simp [entering] at hmem
    exact (hg.stands_of_path (hstart e m₁ hsp) hpath).at_call
  · rcases path_of_entering hpath with ⟨line, p, heq, hmem⟩ | ⟨m₁, hsaved, hsp, hpath⟩
    · cases heq
    cases hg.keeping_of_path (hstart e m₁ hsp) (.inside hsaved) hpath with
    | outside h => exact ⟨h.sp, h.fp, h.pc⟩

/-- A parameter and itself. -/
def twice : Node := .binary .add (.ident "a" .nowhere) (.ident "a" .nowhere) .nowhere

/-- A function that calls another one with twice its parameter. -/
def doubling : Node :=
  .function "f" ["a"] [.giveBack (.call "g" [twice] .nowhere) .nowhere] .nowhere .nowhere

/-- The code of the sum. -/
def twiceCode : List Instr :=
  [ .load .r0 .fp (-16), .push [.r0, .ip], .load .r0 .fp (-16), .pop [.r1, .ip],
    .arith .add .r0 .r1 (.reg .r0) ]

/-- The code of the function up to the sum. -/
def doublingOpening : List Line :=
  entering "f" ++ [.instr (.push [.r0, .r1, .r2, .r3]), .instr (.arith .sub .sp .sp (.imm 16))]

/-- The code of the function from the call on. -/
def doublingCall : List Line := .instr (.call "g") :: (leaving ++ epilogue)

/-- The code of the function behind the sum. -/
def doublingRest : List Line :=
  .instr (.store .r0 .sp 0) :: .instr (.pop [.r0, .r1, .r2, .r3]) :: doublingCall

/-- A caller with nothing but a stack. -/
def caller : Snapshot :=
  ⟨fun r => match r with | .sp => 96 | .fp => 104 | .lr => 8 | _ => 0, fun _ => 0⟩

theorem stack_discipline_doubling :
    let code := doublingOpening ++ twiceCode.map .instr ++ doublingRest
    emit doubling .top = ⟨code, .ok ((), .top)⟩ ∧
    (∃ m, Path code ⟨some (twiceCode.map .instr ++ doublingRest), caller⟩ ⟨some doublingRest, m⟩ ∧
      m.regs .sp = 96) ∧
    (∃ m, Path code ⟨some code, caller⟩ ⟨some doublingCall, m⟩ ∧ 8 ∣ 96 - m.regs .sp) ∧
    ∃ m, Path code ⟨some code, caller⟩ ⟨none, m⟩ ∧
      m.regs .sp = 96 ∧ m.regs .fp = 104 ∧ m.regs .pc = 8 := by
  intro code
  obtain ⟨hpart, -, hcall, hleave⟩ := stack_discipline doubling .top .top code rfl rfl
  -- everything up to the call is straight, behind the name of the function
  have hname : Path code ⟨some code, caller⟩ ⟨some (code.drop 2), caller⟩ :=
    .head (.mark (by simp)) (.single (.mark (by simp)))
  have hopening : Path code ⟨some (code.drop 2), caller⟩ ⟨some doublingCall, _⟩ :=
    path_straight
      ([.push [.fp, .lr], .move .always .fp (.reg .sp), .push [.r0, .r1, .r2, .r3],
        .arith .sub .sp .sp (.imm 16)] ++ twiceCode ++
        [.store .r0 .sp 0, .pop [.r0, .r1, .r2, .r3]]) caller rfl
  have hclosing : ∀ m, Path code ⟨some doublingCall, m⟩ ⟨none, _⟩ := fun m =>
    (path_straight [.call "g", .move .always .sp (.reg .fp)] m rfl).tail
      (.instr (i := .pop [.fp, .pc]) (.done (.refl _)) (.left (by simp)))
  have hcalled := hname.trans hopening
  have hleft := hcalled.trans (hclosing _)
  refine ⟨rfl, ?_, ⟨_, hcalled, hcall "g" _ caller _ hcalled⟩, ⟨_, hleft, hleave caller _ hleft⟩⟩
  have hpath : Path code ⟨some (twiceCode.map .instr ++ doublingRest), caller⟩
      ⟨some doublingRest, _⟩ := path_straight twiceCode caller rfl
  have hlayout : (⟨0, some (Layout.ofParams ["a"])⟩ : Context).layout.isSome = true := rfl
  exact ⟨_, hpath, hpart twice _ _ doublingOpening (twiceCode.map .instr) doublingRest caller _
    hlayout rfl (by simp [twiceCode]) rfl hpath⟩

end Assembly

end Scriptlet
