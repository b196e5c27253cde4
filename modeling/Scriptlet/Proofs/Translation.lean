import Scriptlet.Proofs.Simulation

/-!
# Code does what programs mean

The code of a statement changes the words of variables as the statement changes the slots, prints
its marks, and ends behind itself with the stack as it was, or with the caller if a result was given
back. A loop goes back to its start once for each round.

## Contents

- §1 what statements leave
- §2 leaving a function
- §3 statements
- §4 the entry point
-/

namespace Scriptlet

namespace Assembly

/-! ## §1 What statements leave -/

/-- The words of variables and the marks are those of the progress, and the memory from the frame
pointer on is the same. -/
structure Follows (l : Layout) (m : Processor) (p : Progress) (m' : Processor) : Prop where
  memory : ∀ a, m.regs .fp ≤ a → m'.memory a = m.memory a
  slots : ∀ name off, l.offset? name = some off →
    m'.memory (slotAt (m.regs .fp) off) = p.slots name
  printed : m'.printed = m.printed ++ p.marks

/-- Where the code of a statement ends: behind itself, or with the caller if there is a result. -/
inductive Arrives (l : Layout) (m : Processor) (rest : List Line) (p : Progress) : Moment → Prop
  | behind {m' : Processor} (hresult : p.result = none) (hfollows : Follows l m p m')
    (hsp : m'.regs .sp = m.regs .sp) (hfp : m'.regs .fp = m.regs .fp) :
    Arrives l m rest p ⟨.ahead rest, m'⟩
  | back {m' : Processor} {w : Word} (hresult : p.result = some w) (hfollows : Follows l m p m')
    (hr0 : m'.regs .r0 = w) (hsp : m'.regs .sp = m.regs .fp + 8)
    (hfp : m'.regs .fp = m.memory (m.regs .fp)) :
    Arrives l m rest p ⟨.caller (m.memory (m.regs .fp + 4)), m'⟩

/-- Wherever it stands in the listing, the code makes the progress. -/
def Performs (lib : Library) (code : List Line) (l : Layout) (part : List Line) (m : Processor)
    (p : Progress) : Prop :=
  ∀ rest, part ++ rest <:+ code →
    ∃ t, Runs lib code ⟨.ahead (part ++ rest), m⟩ t ∧ Arrives l m rest p t

section Following

variable {lib : Library} {code rest rest' : List Line} {l : Layout} {s : Slots}
  {m m' m'' : Processor} {p q : Progress} {t : Moment}

/-- Code that keeps the frame follows a progress that stands still. -/
theorem Keeps.follows (h : Keeps m m') (hf : Framed l s m) (ht : l.Tidy) :
    Follows l m (.still s) m' := by
  constructor
  -- what lies above the frame pointer lies above the stack pointer
  · intro a ha
    apply h.memory
    have hbelow := hf.below
    rw [BitVec.le_def] at ha ⊢
    omega
  · intro name off hoff
    rw [h.memory _ (hf.sp_le_slot ht hoff)]
    exact hf.slots name off hoff
  · simp [h.printed, Progress.still]

/-- The frame stands over what was followed, with the slots as they are now. -/
theorem Framed.follows (hf : Framed l s m) (h : Follows l m p m')
    (hsp : m'.regs .sp = m.regs .sp) (hfp : m'.regs .fp = m.regs .fp) : Framed l p.slots m' := by
  -- the statement gives the stack and frame pointers back as they were, and the slots anew
  constructor
  · rw [hsp]
    exact hf.sp_aligned
  · rw [hfp]
    exact hf.fp_aligned
  · rw [hsp, hfp]
    exact hf.below
  · rw [hfp]
    exact hf.above
  · rw [hfp]
    exact h.slots

/-- What is followed in two steps is followed over both, with the marks of both. -/
theorem Follows.trans (h : Follows l m p m') (hfp : m'.regs .fp = m.regs .fp)
    (h' : Follows l m' q m'') : Follows l m { q with marks := p.marks ++ q.marks } m'' := by
  constructor
  · intro a ha
    rw [h'.memory a (by rw [hfp]; exact ha), h.memory a ha]
  · rw [← hfp]
    exact h'.slots
  · rw [h'.printed, h.printed, List.append_assoc]

/-- What was saved in the frame stays saved. -/
theorem Follows.saved (h : Follows l m p m') (hf : Framed l s m) :
    m'.memory (m.regs .fp) = m.memory (m.regs .fp) ∧
      m'.memory (m.regs .fp + 4) = m.memory (m.regs .fp + 4) := by
  have habove := hf.above
  constructor
  · exact h.memory _ (BitVec.le_refl _)
  · apply h.memory
    bv_omega

/-- Goes on from where a statement has ended, unless a result was given back. -/
theorem Arrives.andThen {f : Slots → Option Progress} {r : Progress} (h : Arrives l m rest p t)
    (hf : Framed l s m) (hr : p.andThen f = some r)
    (hnext : ∀ m' q, Framed l p.slots m' → m'.regs .sp = m.regs .sp → f p.slots = some q →
      ∃ t', Runs lib code ⟨.ahead rest, m'⟩ t' ∧ Arrives l m' rest' q t') :
    ∃ t', Runs lib code t t' ∧ Arrives l m rest' r t' := by
  -- behind a statement the next one starts; a result that was given back ends both
  cases h with
  | behind hresult hfollows hsp hfp =>
    rw [Progress.andThen, hresult] at hr
    obtain ⟨q, hq, rfl⟩ := Option.map_eq_some_iff.mp hr
    obtain ⟨t', hruns, harrives⟩ := hnext _ q (hf.follows hfollows hsp hfp) hsp hq
    refine ⟨t', hruns, ?_⟩
    obtain ⟨hsaved, hsaved'⟩ := hfollows.saved hf
    cases harrives with
    | behind hresult' hfollows' hsp' hfp' =>
      exact .behind hresult' (hfollows.trans hfp hfollows') (hsp'.trans hsp) (hfp'.trans hfp)
    | back hresult' hfollows' hr0 hsp' hfp' =>
      rw [hfp] at hsp' hfp' ⊢
      rw [hsaved']
      rw [hsaved] at hfp'
      exact .back hresult' (hfollows.trans hfp hfollows') hr0 hsp' hfp'
  | back hresult hfollows hr0 hsp hfp =>
    rw [Progress.andThen, hresult] at hr
    cases hr
    exact ⟨_, .refl _, .back hresult hfollows hr0 hsp hfp⟩

/-- Goes on from where a statement has ended without changing anything. -/
theorem Arrives.onward (h : Arrives l m rest p t)
    (hnext : ∀ m', Runs lib code ⟨.ahead rest, m'⟩ ⟨.ahead rest', m'⟩) :
    ∃ t', Runs lib code t t' ∧ Arrives l m rest' p t' := by
  cases h with
  | behind hresult hfollows hsp hfp => exact ⟨_, hnext _, .behind hresult hfollows hsp hfp⟩
  | back hresult hfollows hr0 hsp hfp =>
    exact ⟨_, .refl _, .back hresult hfollows hr0 hsp hfp⟩

/-- What a statement does after an expression, it does from before the expression. -/
theorem Arrives.keeps (h : Arrives l m' rest p t) (hf : Framed l s m) (ht : l.Tidy)
    (hkeeps : Keeps m m') : Arrives l m rest p t := by
  have hstill := hkeeps.follows hf ht
  have hfollows : ∀ {m''}, Follows l m' p m'' → Follows l m p m'' := hstill.trans hkeeps.fp
  obtain ⟨hsaved, hsaved'⟩ := hstill.saved hf
  -- the expression has kept all that the statement is measured against
  cases h with
  | behind hresult h hsp hfp =>
    exact .behind hresult (hfollows h) (hsp.trans hkeeps.sp) (hfp.trans hkeeps.fp)
  | back hresult h hr0 hsp hfp =>
    rw [hkeeps.fp] at hsp hfp ⊢
    rw [hsaved] at hfp
    rw [hsaved']
    exact .back hresult (hfollows h) hr0 hsp hfp

end Following

/-! ## §2 Leaving a function -/

section Leaving

variable {lib : Library} {code rest : List Line} {l : Layout} {s : Slots} {m : Processor}

/-- The caller goes on with what was saved for it. -/
theorem runs_leaving (hal : (m.regs .fp).toNat % 4 = 0) :
    ∃ m', Runs lib code ⟨.ahead (leaving ++ rest), m⟩ ⟨.caller (m.memory (m.regs .fp + 4)), m'⟩ ∧
      m'.regs .r0 = m.regs .r0 ∧ m'.regs .sp = m.regs .fp + 8 ∧
      m'.regs .fp = m.memory (m.regs .fp) ∧ m'.memory = m.memory ∧ m'.printed = m.printed := by
  -- the stack pointer goes back to the frame, and the pop takes what was saved there
  let unwound := m.set .sp (m.regs .fp)
  have hpop : (Instr.pop [.fp, .pc]).effect lib unwound = some (unwound.popped .fp .pc) :=
    effect_pop (by simpa [unwound] using hal)
  have hmove : Runs lib code ⟨.ahead (leaving ++ rest), m⟩ ⟨_, unwound⟩ := runs_next rfl rfl
  refine ⟨unwound.popped .fp .pc, hmove.trans (runs_instr hpop ?_), ?_, ?_, ?_, rfl, rfl⟩
  · simp [Instr.next, Processor.popped, unwound]
  · simp [Processor.popped, unwound]
  · simp [Processor.popped, unwound]
  · simp [Processor.popped, unwound]

/-- Leaving arrives at the end of the function, with the result in its register. -/
theorem arrives_leaving (hf : Framed l s m) :
    ∃ t, Runs lib code ⟨.ahead (leaving ++ rest), m⟩ t ∧
      Arrives l m rest ⟨s, [], some (m.regs .r0)⟩ t := by
  obtain ⟨m', hruns, hr0, hsp, hfp, hmemory, hprinted⟩ := runs_leaving hf.fp_aligned
  refine ⟨_, hruns, .back rfl ?_ hr0 hsp hfp⟩
  -- nothing but registers changes on the way out
  constructor
  · intro a _
    rw [hmemory]
  · intro name off hoff
    rw [hmemory]
    exact hf.slots name off hoff
  · simp [hprinted]

end Leaving

/-! ## §3 Statements -/

section Statements

variable {lib : Library} {code a b : List Line} {l : Layout} {s : Slots} {m : Processor} {w : Word}

/-- An expression performs nothing but its value. -/
theorem performs_value (hf : Framed l s m) (ht : l.Tidy) (ha : Evaluates lib code a m w) :
    Performs lib code l a m (.still s) := by
  intro rest hsuffix
  obtain ⟨m', hruns, -, hkeeps⟩ := ha rest hsuffix
  exact ⟨_, hruns, .behind rfl (hkeeps.follows hf ht) hkeeps.sp hkeeps.fp⟩

/-- A return performs its value and leaves. -/
theorem performs_giveBack (hf : Framed l s m) (ht : l.Tidy) (ha : Evaluates lib code a m w) :
    Performs lib code l (a ++ leaving) m ⟨s, [], some w⟩ := by
  intro rest hsuffix
  rw [List.append_assoc] at hsuffix ⊢
  obtain ⟨m', hruns, rfl, hkeeps⟩ := ha _ hsuffix
  obtain ⟨t, hleave, harrives⟩ := arrives_leaving (hf.keeps ht hkeeps)
  exact ⟨t, hruns.trans hleave, harrives.keeps hf ht hkeeps⟩

/-- Different variables lie at different addresses. -/
theorem Framed.slotAt_ne {name name' : Text} {off off' : Int} (hf : Framed l s m) (ht : l.Tidy)
    (h : l.offset? name = some off) (h' : l.offset? name' = some off') (hne : name' ≠ name) :
    slotAt (m.regs .fp) off' ≠ slotAt (m.regs .fp) off := by
  intro heq
  obtain ⟨k, -, rfl, hnat, hsize, hle⟩ := hf.slot ht h
  obtain ⟨k', -, rfl, hnat', hsize', -⟩ := hf.slot ht h'
  rw [heq, hnat] at hnat'
  have hk : k = k' := by omega
  subst hk
  exact hne (ht.offset_inj h' h)

/-- A store performs the change of its slot. -/
theorem performs_store {name : Text} {off : Int} (hf : Framed l s m) (ht : l.Tidy)
    (hoff : l.offset? name = some off) (ha : Evaluates lib code a m w) :
    Performs lib code l (a ++ [Line.instr (.store .r0 .fp off)]) m
      (.still (Function.update s name w)) := by
  intro rest hsuffix
  rw [List.append_assoc] at hsuffix ⊢
  obtain ⟨m₁, hruns, rfl, hkeeps⟩ := ha _ hsuffix
  have hf₁ := hf.keeps ht hkeeps
  let stored : Processor :=
    { m₁ with memory := Function.update m₁.memory (slotAt (m₁.regs .fp) off) (m₁.regs .r0) }
  have hstore : (Instr.store .r0 .fp off).effect lib m₁ = some stored :=
    Processor.store?_of_aligned (hf₁.slot_aligned ht hoff)
  have harrives : Arrives l m₁ rest (.still (Function.update s name (m₁.regs .r0)))
      ⟨.ahead rest, stored⟩ := by
    refine .behind rfl ?_ rfl rfl
    constructor
    · -- the variable lies below the frame pointer
      intro x hx
      obtain ⟨k, -, -, hnat, hsize, hle⟩ := hf₁.slot ht hoff
      have hne : x ≠ slotAt (m₁.regs .fp) off := by
        rintro rfl
        rw [BitVec.le_def, hnat] at hx
        omega
      exact Function.update_of_ne hne _ _
    · intro name' off' hoff'
      by_cases hname : name' = name
      · subst hname
        rw [hoff] at hoff'
        cases hoff'
        simp [stored, Progress.still]
      · simp [stored, Progress.still, hname, hf₁.slotAt_ne ht hoff hoff' hname,
          hf₁.slots name' off' hoff']
    · simp [stored, Progress.still]
  exact ⟨_, hruns.trans (runs_next rfl hstore), harrives.keeps hf ht hkeeps⟩

/-- The processor before the mark of a value is printed. -/
def marked (m : Processor) (w : Word) : Processor :=
  { m with flags := .ofCompare w 1 }.set .r0 (BitVec.ofNat 32 (if w = 1 then '.' else 'F').toNat)

/-- Marking prints what is in the result register. -/
theorem effects_marking : effects lib marking m = some (lib.print (marked m (m.regs .r0))) := by
  by_cases h : m.regs .r0 = 1#32 <;>
    simp [marking, effects, Instr.effect, Operand.value, Processor.write?, marked, h]

/-- A mark performs one line of output. -/
theorem performs_mark (hf : Framed l s m) (ht : l.Tidy) (ha : Evaluates lib code a m w) :
    Performs lib code l (a ++ marking.map .instr) m (.mark s w) := by
  intro rest hsuffix
  rw [List.append_assoc] at hsuffix ⊢
  obtain ⟨m₁, hruns, rfl, hkeeps⟩ := ha _ hsuffix
  have hf₁ := hf.keeps ht hkeeps
  -- the print is called with the stack and frame as they are
  have hsp : (marked m₁ (m₁.regs .r0)).regs .sp = m₁.regs .sp := by simp [marked]
  have hfp : (marked m₁ (m₁.regs .r0)).regs .fp = m₁.regs .fp := by simp [marked]
  have hmemory : ∀ x, m₁.regs .sp ≤ x →
      (lib.print (marked m₁ (m₁.regs .r0))).memory x = m₁.memory x := by
    intro x hx
    exact lib.putchar_memory (marked m₁ (m₁.regs .r0)) x (by rw [hsp]; exact hx)
  have harrives : Arrives l m₁ rest (.mark s (m₁.regs .r0))
      ⟨.ahead rest, lib.print (marked m₁ (m₁.regs .r0))⟩ := by
    refine .behind rfl ?_ ((lib.putchar_sp _).trans hsp) ((lib.putchar_fp _).trans hfp)
    constructor
    · intro x hx
      apply hmemory
      have hbelow := hf₁.below
      rw [BitVec.le_def] at hx ⊢
      omega
    · intro name off hoff
      rw [hmemory _ (hf₁.sp_le_slot ht hoff)]
      exact hf₁.slots name off hoff
    · by_cases h : m₁.regs .r0 = 1#32
      · simp [Library.print, marked, Progress.mark, h]
        rfl
      · simp [Library.print, marked, Progress.mark, h]
        rfl
  exact ⟨_, hruns.trans (runs_straight rfl effects_marking), harrives.keeps hf ht hkeeps⟩

/-- A choice performs the branch that its test takes. -/
theorem performs_choice {d : List Line} {otherwise done : Label} {p : Progress}
    (hnodup : (placed code).Nodup) (hf : Framed l s m) (ht : l.Tidy)
    (ha : Evaluates lib code a m w)
    (hb : w ≠ 0 → ∀ m', Keeps m m' → Performs lib code l b m' p)
    (hd : w = 0 → ∀ m', Keeps m m' → Performs lib code l d m' p) :
    Performs lib code l
      (a ++ test .eq otherwise ++ b ++ [Line.instr (.branch .always done)] ++
        [Line.label otherwise] ++ d ++ [Line.label done]) m p := by
  intro rest hsuffix
  simp only [List.append_assoc, List.cons_append, List.nil_append] at hsuffix ⊢
  have hsuffix_b := (List.suffix_append _ _).trans ((List.suffix_append _ _).trans hsuffix)
  have hother := (List.suffix_cons _ _).trans ((List.suffix_append _ _).trans hsuffix_b)
  have hsuffix_d := (List.suffix_cons _ _).trans hother
  have hdone := (List.suffix_append _ _).trans hsuffix_d
  obtain ⟨m₁, hruns₁, hr0, hkeeps₁⟩ := ha _ hsuffix
  -- the condition selects one branch, and either of them ends behind the last label
  by_cases hw : w = 0
  · have hcond : Cond.eq.holds (.ofCompare (m₁.regs .r0) 0) = true := by simp [hr0, hw]
    obtain ⟨m₂, hruns₂, -, hkeeps₂⟩ := runs_test_taken hnodup hother hcond
    obtain ⟨t, hruns₃, harrives⟩ := hd hw m₂ (hkeeps₁.trans hkeeps₂) _ hsuffix_d
    obtain ⟨t', hruns₄, harrives'⟩ := harrives.onward fun _ => runs_label done
    exact ⟨t', ((hruns₁.trans hruns₂).trans hruns₃).trans hruns₄,
      harrives'.keeps hf ht (hkeeps₁.trans hkeeps₂)⟩
  · have hcond : Cond.eq.holds (.ofCompare (m₁.regs .r0) 0) = false := by simpa [hr0] using hw
    obtain ⟨m₂, hruns₂, -, hkeeps₂⟩ := runs_test_passed hcond
    obtain ⟨t, hruns₃, harrives⟩ := hb hw m₂ (hkeeps₁.trans hkeeps₂) _ hsuffix_b
    obtain ⟨t', hruns₄, harrives'⟩ := harrives.onward fun _ => runs_branch hnodup hdone rfl
    exact ⟨t', ((hruns₁.trans hruns₂).trans hruns₃).trans hruns₄,
      harrives'.keeps hf ht (hkeeps₁.trans hkeeps₂)⟩

/-- The rounds of a loop, by induction on their bound: each goes back to the start. -/
theorem runs_rounds {cond : Slots → Option Word} {body : Slots → Option Progress}
    {again done : Label} {rest : List Line} {sp : Word} (hnodup : (placed code).Nodup)
    (ht : l.Tidy)
    (ha : ∀ {s m w}, cond s = some w → Framed l s m → m.regs .sp = sp → Evaluates lib code a m w)
    (hb : ∀ {s m p}, body s = some p → Framed l s m → m.regs .sp = sp → Performs lib code l b m p)
    (hsuffix : .label again :: (a ++ (test .eq done ++
      (b ++ .instr (.branch .always again) :: .label done :: rest))) <:+ code) :
    ∀ {bound : Nat} {s : Slots} {m : Processor} {p : Progress},
      Progress.rounds cond body bound s = some p → Framed l s m → m.regs .sp = sp →
      ∃ t, Runs lib code ⟨.ahead (a ++ (test .eq done ++
          (b ++ .instr (.branch .always again) :: .label done :: rest))), m⟩ t ∧
        Arrives l m rest p t := by
  have hsuffix_a := (List.suffix_cons _ _).trans hsuffix
  have hsuffix_b := (List.suffix_append _ _).trans ((List.suffix_append _ _).trans hsuffix_a)
  have hdone := (List.suffix_cons _ _).trans ((List.suffix_append _ _).trans hsuffix_b)
  intro bound
  induction bound with
  | zero =>
    intro s m p h
    cases h
  | succ bound ih =>
    intro s m p h hf hsp
    obtain ⟨w, hw, h⟩ := Option.bind_eq_some_iff.mp h
    obtain ⟨m₁, hruns₁, hr0, hkeeps₁⟩ := ha hw hf hsp _ hsuffix_a
    split at h
    next hzero =>
      cases h
      have hcond : Cond.eq.holds (.ofCompare (m₁.regs .r0) 0) = true := by simp [hr0, hzero]
      obtain ⟨m₂, hruns₂, -, hkeeps₂⟩ := runs_test_taken hnodup hdone hcond
      have hkeeps := hkeeps₁.trans hkeeps₂
      exact ⟨_, hruns₁.trans hruns₂, .behind rfl (hkeeps.follows hf ht) hkeeps.sp hkeeps.fp⟩
    next hzero =>
      obtain ⟨q, hq, hp⟩ := Option.bind_eq_some_iff.mp h
      have hcond : Cond.eq.holds (.ofCompare (m₁.regs .r0) 0) = false := by
        simpa [hr0] using hzero
      obtain ⟨m₂, hruns₂, -, hkeeps₂⟩ := runs_test_passed hcond
      have hkeeps := hkeeps₁.trans hkeeps₂
      have hf₂ := hf.keeps ht hkeeps
      have hsp₂ : m₂.regs .sp = sp := hkeeps.sp.trans hsp
      obtain ⟨t, hruns₃, harrives⟩ := hb hq hf₂ hsp₂ _ hsuffix_b
      obtain ⟨t', hruns₄, harrives'⟩ := harrives.andThen hf₂ hp fun m' r hf' hsp' hr => by
        obtain ⟨t', hruns, harrives⟩ := ih hr hf' (hsp'.trans hsp₂)
        exact ⟨t', Runs.trans (runs_branch hnodup hsuffix rfl) hruns, harrives⟩
      exact ⟨t', ((hruns₁.trans hruns₂).trans hruns₃).trans hruns₄, harrives'.keeps hf ht hkeeps⟩

/-- An expression as a statement changes nothing. -/
theorem Compiled.performs_word {n n' : Nat} {x : Node} {part : List Line} {p : Progress}
    (h : Compiled l n x part n') (ht : l.Tidy) (hnodup : (placed code).Nodup)
    (hp : (x.word? s).map (fun _ => Progress.still s) = some p) (hf : Framed l s m)
    (hroom : 8 * x.depth ≤ (m.regs .sp).toNat) : Performs lib code l part m p := by
  obtain ⟨w, hw, rfl⟩ := Option.map_eq_some_iff.mp hp
  exact performs_value hf ht (h.evaluates ht hnodup hw hf hroom)

/-- The code of a statement makes its progress. -/
theorem Compiled.performs {n n' : Nat} {x : Node} {part : List Line} {bound : Nat}
    (h : Compiled l n x part n') (ht : l.Tidy) (hnodup : (placed code).Nodup) :
    ∀ {s : Slots} {m : Processor} {p : Progress}, x.perform? bound s = some p → Framed l s m →
      8 * x.depth ≤ (m.regs .sp).toNat → Performs lib code l part m p := by
  -- by the shape of the code, one lemma for each kind of statement
  induction h with
  | missing =>
    intro s m p hp hf _ rest _
    cases hp
    exact ⟨_, .refl _, .behind rfl ((Keeps.refl m).follows hf ht) rfl rfl⟩
  | number hk => exact (Compiled.number (n := 0) hk).performs_word ht hnodup
  | ident hoff => exact (Compiled.ident (n := 0) hoff).performs_word ht hnodup
  | unary hx hop _ => exact (Compiled.unary hx hop).performs_word ht hnodup
  | logical hop hx hy _ _ => exact (Compiled.logical hop hx hy).performs_word ht hnodup
  | binary hx hy hop _ _ => exact (Compiled.binary hx hy hop).performs_word ht hnodup
  | giveBackZero =>
    intro s m p hp hf _
    cases hp
    have hzero : Yields lib [.move .always .r0 (.imm 0)] m 0 := yields_of_effect rfl rfl
    exact performs_giveBack hf ht hzero.evaluates
  | giveBack hthere hx _ =>
    intro s m p hp hf hroom
    rw [Node.perform?, hthere] at hp
    obtain ⟨w, hw, rfl⟩ := Option.map_eq_some_iff.mp hp
    exact performs_giveBack hf ht (hx.evaluates ht hnodup hw hf hroom)
  | nil =>
    intro s m p hp hf _ rest _
    cases hp
    exact ⟨_, .refl _, .behind rfl ((Keeps.refl m).follows hf ht) rfl rfl⟩
  | cons _ _ ihx ihxs =>
    intro s m p hp hf hroom rest hsuffix
    obtain ⟨q, hq, hp⟩ := Option.bind_eq_some_iff.mp hp
    simp only [Node.depth, Node.depthAll] at hroom
    rw [List.append_assoc] at hsuffix ⊢
    obtain ⟨t, hruns, harrives⟩ := ihx hq hf (by omega) _ hsuffix
    obtain ⟨t', hruns', harrives'⟩ := harrives.andThen hf hp fun m' r hf' hsp hr =>
      ihxs hr hf' (by rw [hsp]; simp only [Node.depth]; omega) _
        ((List.suffix_append _ _).trans hsuffix)
    exact ⟨t', hruns.trans hruns', harrives'⟩
  | choice hcond _ _ _ ihyes ihno =>
    intro s m p hp hf hroom
    simp only [Node.depth] at hroom
    obtain ⟨w, hw, hp⟩ := Option.bind_eq_some_iff.mp hp
    apply performs_choice hnodup hf ht (hcond.evaluates ht hnodup hw hf (by omega))
    · intro hnonzero m' hkeeps
      rw [if_neg hnonzero] at hp
      exact ihyes hp (hf.keeps ht hkeeps) (by rw [hkeeps.sp]; omega)
    · intro hzero m' hkeeps
      rw [if_pos hzero] at hp
      exact ihno hp (hf.keeps ht hkeeps) (by rw [hkeeps.sp]; omega)
  | loop hcond _ _ ih =>
    intro s m p hp hf hroom rest hsuffix
    simp only [Node.depth] at hroom
    simp only [List.append_assoc, List.cons_append, List.nil_append] at hsuffix ⊢
    obtain ⟨t, hruns, harrives⟩ := runs_rounds hnodup ht
      (fun hw hf' hsp => hcond.evaluates ht hnodup hw hf' (by rw [hsp]; omega))
      (fun hp' hf' hsp => ih hp' hf' (by rw [hsp]; omega)) hsuffix hp hf rfl
    exact ⟨t, (runs_label _).trans hruns, harrives⟩
  | declare hoff hx _ | assign hoff hx _ =>
    intro s m p hp hf hroom
    obtain ⟨w, hw, rfl⟩ := Option.map_eq_some_iff.mp hp
    exact performs_store hf ht hoff (hx.evaluates ht hnodup hw hf hroom)
  | assert hcond _ =>
    intro s m p hp hf hroom
    obtain ⟨w, hw, rfl⟩ := Option.map_eq_some_iff.mp hp
    exact performs_mark hf ht (hcond.evaluates ht hnodup hw hf hroom)

end Statements

/-! ## §4 The entry point -/

/-- The lines before the statements of the entry point. -/
def prologue (l : Layout) : List Line :=
  .global "main" :: .entry "main" ::
    (.push [.fp, .lr] :: .move .always .fp (.reg .sp) ::
      if l.size > 0 then [.arith .sub .sp .sp (.imm l.size)] else []).map .instr

/-- The lines behind them. -/
def epilogue : List Line := .instr (.move .always .r0 (.imm 0)) :: leaving

theorem placed_prologue (l : Layout) : placed (prologue l) = [] := placed_instrs _

section Entry

variable {lib : Library} {code rest : List Line} {l : Layout} {s : Slots} {m : Processor}

/-- Reserving the locals is one instruction, or none when there are none. -/
theorem gives_reserveLocals {c c' : Context} (h : (Emit.reserveLocals l).Gives c code () c') :
    c' = c ∧ code =
      (if l.size > 0 then [Instr.arith .sub .sp .sp (.imm l.size)] else []).map .instr := by
  unfold Emit.reserveLocals at h
  split at h
  next hsize =>
    obtain ⟨rfl, rfl⟩ := Emit.gives_instrs.mp h
    simp [hsize]
  next hsize =>
    obtain ⟨rfl, -, rfl⟩ := Emit.gives_constant.mp h
    simp [hsize]

/-- The code of the entry point: its prologue, its statements and its epilogue. -/
theorem gives_main {stmts : List Node} {loc : Location} {c c' : Context}
    (h : (emit (.main stmts loc)).Gives c code () c') :
    ∃ body c₁, (emit (.block stmts loc)).Gives
        ⟨c.labels, some (Layout.ofMain.reserveAll stmts)⟩ body () c₁ ∧
      code = prologue (Layout.ofMain.reserveAll stmts) ++ body ++ epilogue := by
  rw [emit, Emit.gives_layout_bind] at h
  split at h
  next => exact (Emit.gives_refuse.mp h).elim
  next =>
    obtain ⟨_, _, hopen, _, hafter, rfl⟩ := Emit.gives_seq.mp h
    cases hopen
    obtain ⟨_, _, hreserve, _, hframe, rfl⟩ := Emit.gives_seq.mp hafter
    obtain ⟨rfl, rfl⟩ := gives_reserveLocals hreserve
    obtain ⟨body, c₁, hbody, _, hrest, rfl⟩ :=
      Emit.gives_seq.mp (Emit.gives_setLayout_bind.mp hframe)
    obtain ⟨_, _, hclose, _, hend, rfl⟩ := Emit.gives_seq.mp hrest
    cases hclose
    cases hend
    refine ⟨body, c₁, by rw [emit_block]; exact hbody, ?_⟩
    simp [Emit.lines, Emit.instrs, Emit.leave, prologue, epilogue, leaving]

/-- The processor after the lines that open the entry point. -/
def opened (l : Layout) (m : Processor) : Processor :=
  ((m.pushed .fp .lr).set .fp (m.regs .sp - 8)).set .sp (m.regs .sp - 8 - BitVec.ofNat 32 l.size)

/-- The prologue opens the frame. -/
theorem runs_prologue (hal : (m.regs .sp).toNat % 4 = 0) :
    Runs lib code ⟨.ahead (prologue l ++ rest), m⟩ ⟨.ahead rest, opened l m⟩ := by
  have hpushed : (m.pushed .fp .lr).regs .sp = m.regs .sp - 8 := pushed_sp
  -- the directives are passed over, and the frame is what is left of the pushes
  have hdirectives : Runs lib code ⟨.ahead (prologue l ++ rest), m⟩ ⟨_, m⟩ :=
    .head rfl (.single rfl)
  refine hdirectives.trans (runs_straight ?_ ?_)
  · split <;> rfl
  · simp only [effects, effect_push hal, Option.bind_some, opened]
    split
    next hsize =>
      simp [effects, Instr.effect, Processor.write?, Operand.value, Arith.apply, hpushed]
    next hsize =>
      -- without variables no room is taken, and the subtraction is left out
      have hzero : l.size = 0 := by omega
      rw [Processor.set_self]
      · simp [effects, Instr.effect, Processor.write?, Operand.value, hpushed]
      · simp [hpushed, hzero]

/-- The stack pointer goes down by two words and the locals, without wrapping around. -/
theorem toNat_sub_room {sp : Word} {k : Nat} (h : 8 + k ≤ sp.toNat) :
    (sp - 8).toNat = sp.toNat - 8 ∧ (sp - 8 - BitVec.ofNat 32 k).toNat = sp.toNat - 8 - k := by
  have hlt := sp.isLt
  constructor <;> bv_omega

@[simp] theorem opened_sp :
    (opened l m).regs .sp = m.regs .sp - 8 - BitVec.ofNat 32 l.size := by
  simp [opened]

@[simp] theorem opened_fp : (opened l m).regs .fp = m.regs .sp - 8 := by
  simp [opened]

/-- Only the two saved words are new. -/
theorem opened_memory (hroom : 8 ≤ (m.regs .sp).toNat) {a : Word}
    (ha : a.toNat < (m.regs .sp).toNat - 8 ∨ m.regs .sp ≤ a) :
    (opened l m).memory a = m.memory a := by
  have h8 : a ≠ m.regs .sp - 8 := by bv_omega
  have h4 : a ≠ m.regs .sp - 4 := by bv_omega
  change (m.pushed .fp .lr).memory a = m.memory a
  simp only [Processor.pushed, Function.update_of_ne h4, Function.update_of_ne h8]

/-- The frame stands once it is opened, with the slots that the memory holds there. -/
theorem framed_opened (ht : l.Tidy) (hal : (m.regs .sp).toNat % 4 = 0)
    (hroom : 8 + l.size ≤ (m.regs .sp).toNat)
    (hslots : ∀ name off, l.offset? name = some off →
      m.memory (slotAt (m.regs .sp - 8) off) = s name) : Framed l s (opened l m) := by
  obtain ⟨hfp, hsp⟩ := toNat_sub_room hroom
  have hlt := (m.regs .sp).isLt
  have hsize : l.size % 4 = 0 := by
    unfold Layout.size
    omega
  constructor
  · rw [opened_sp, hsp]
    omega
  · rw [opened_fp, hfp]
    omega
  · rw [opened_sp, opened_fp, hsp, hfp]
    omega
  · rw [opened_fp, hfp]
    omega
  · intro name off hoff
    obtain ⟨k, hk, rfl⟩ := ht.offset hoff
    have hbelow : 4 * (k + 1) ≤ l.size := by
      unfold Layout.size
      omega
    -- the slots of the frame are the words below where it starts
    have hslot : (slotAt (m.regs .sp - 8) (-4 * ((k : Int) + 1))).toNat =
        (m.regs .sp - 8).toNat - 4 * (k + 1) := toNat_slotAt (by omega)
    rw [opened_fp, opened_memory (by omega) (Or.inl (by rw [hslot]; omega))]
    exact hslots name _ hoff

@[simp] theorem opened_saved_fp : (opened l m).memory (m.regs .sp - 8) = m.regs .fp :=
  pushed_first

@[simp] theorem opened_saved_lr : (opened l m).memory (m.regs .sp - 8 + 4) = m.regs .lr := by
  have hnext : m.regs .sp - 8 + 4 = m.regs .sp - 4 := by bv_omega
  rw [hnext]
  exact pushed_second

@[simp] theorem opened_printed : (opened l m).printed = m.printed := rfl

/-- Without a result the entry point gives back zero. -/
theorem andThen_zero (p : Progress) :
    p.andThen (fun s => some ⟨s, [], some 0⟩) =
      some ⟨p.slots, p.marks, some (p.result.getD 0)⟩ := by
  rcases p with ⟨slots, marks, _ | w⟩ <;> simp [Progress.andThen]

/-- The code of an entry point, from the shape of its statements. -/
theorem runs_main {stmts : List Node} {loc : Location} {n n' bound : Nat} {body : List Line}
    {p : Progress} (hc : Compiled l n (.block stmts loc) body n') (ht : l.Tidy)
    (hcode : code = prologue l ++ body ++ epilogue) (hnodup : (placed code).Nodup)
    (hp : Node.performAll? bound s stmts = some p) (hal : (m.regs .sp).toNat % 4 = 0)
    (hroom : 8 + l.size + 8 * Node.depthAll stmts ≤ (m.regs .sp).toNat)
    (hslots : ∀ name off, l.offset? name = some off →
      m.memory (slotAt (m.regs .sp - 8) off) = s name) :
    ∃ t, Runs lib code ⟨.ahead code, m⟩ t ∧
      Arrives l (opened l m) [] ⟨p.slots, p.marks, some (p.result.getD 0)⟩ t := by
  have hsplit : code = prologue l ++ (body ++ (epilogue ++ [])) := by simp [hcode]
  have hsuffix : body ++ (epilogue ++ []) <:+ code := by
    rw [hsplit]
    exact List.suffix_append _ _
  have hf := framed_opened ht hal (by omega) hslots
  have hdepth : 8 * (Node.block stmts loc).depth ≤ ((opened l m).regs .sp).toNat := by
    rw [opened_sp, (toNat_sub_room (by omega)).2, Node.depth]
    omega
  have hopen : Runs lib code ⟨.ahead code, m⟩ ⟨.ahead (body ++ (epilogue ++ [])), opened l m⟩ := by
    nth_rewrite 2 [hsplit]
    exact runs_prologue hal
  -- the statements, and then the zero that is given back unless they gave a result
  obtain ⟨t, hruns, harrives⟩ := hc.performs ht hnodup hp hf hdepth _ hsuffix
  obtain ⟨t', hruns', harrives'⟩ := harrives.andThen hf (andThen_zero p) fun m' q hf' _ hq => by
    cases hq
    have hzero : Yields lib [.move .always .r0 (.imm 0)] m' 0 := yields_of_effect rfl rfl
    exact performs_giveBack hf' ht hzero.evaluates [] ((List.suffix_append _ _).trans hsuffix)
  exact ⟨t', (hopen.trans hruns).trans hruns', harrives'⟩

end Entry

/-- **The code of a program without calls does what the program means**, on words of 32 bits with one
slot for each variable.

Whenever the statements of an entry point end, so does its code: with the marks printed, the words of
the variables as the slots, the result in the first register, and with the caller, whose stack is as
it was. Within the code, every expression leaves its value in the first register, the stack pointer
where it was, and the memory from there on unchanged. The stack needs room for the frame and for what
expressions push. -/
theorem code_of_main_correct (lib : Library) (stmts : List Node) (loc : Location) (c c' : Context)
    (code : List Line) (hplain : Node.allPlain true stmts = true)
    (hemit : emit (.main stmts loc) c = ⟨code, .ok ((), c')⟩) :
    (∀ (bound : Nat) (s : Slots) (p : Progress) (m : Processor),
      Node.performAll? bound s stmts = some p →
      (m.regs .sp).toNat % 4 = 0 →
      8 + (Layout.ofMain.reserveAll stmts).size + 8 * Node.depthAll stmts ≤ (m.regs .sp).toNat →
      (∀ name off, (Layout.ofMain.reserveAll stmts).offset? name = some off →
        m.memory (slotAt (m.regs .sp - 8) off) = s name) →
      ∃ m', Runs lib code ⟨.ahead code, m⟩ ⟨.caller (m.regs .lr), m'⟩ ∧
        m'.printed = m.printed ++ p.marks ∧
        (∀ name off, (Layout.ofMain.reserveAll stmts).offset? name = some off →
          m'.memory (slotAt (m.regs .sp - 8) off) = p.slots name) ∧
        m'.regs .r0 = p.result.getD 0 ∧
        m'.regs .sp = m.regs .sp ∧ m'.regs .fp = m.regs .fp ∧
        ∀ a, m.regs .sp ≤ a → m'.memory a = m.memory a) ∧
    (∀ (x : Node) (d d' : Context) (before part rest : List Line) (s : Slots) (w : Word)
      (m : Processor),
      x.isPlain false = true →
      d.layout = some (Layout.ofMain.reserveAll stmts) →
      emit x d = ⟨part, .ok ((), d')⟩ →
      code = before ++ part ++ rest →
      x.word? s = some w →
      Framed (Layout.ofMain.reserveAll stmts) s m →
      8 * x.depth ≤ (m.regs .sp).toNat →
      ∃ m', Runs lib code ⟨.ahead (part ++ rest), m⟩ ⟨.ahead rest, m'⟩ ∧
        m'.regs .r0 = w ∧ m'.regs .sp = m.regs .sp ∧
        ∀ a, m.regs .sp ≤ a → m'.memory a = m.memory a) := by
  -- the layout reserves a slot for every name before any code is emitted
  obtain ⟨body, _, hbody, hcode⟩ := gives_main hemit
  have ht : (Layout.ofMain.reserveAll stmts).Tidy := Layout.tidy_ofMain.reserveAll stmts
  have hshaped : Shaped (Layout.ofMain.reserveAll stmts) (.block stmts loc) := by
    apply shaped_of_allPlain hplain
    intro _ name hmem
    exact (Layout.offset?_reserveAll _ name stmts).mpr (Or.inr hmem)
  obtain ⟨n', -, hc⟩ := hshaped _ _ _ hbody
  have hnodup : (placed code).Nodup := by
    have hplaced : placed code = placed body := by
      simp [hcode, placed_prologue, epilogue]
    rw [hplaced]
    exact hc.numbered.nodup
  constructor
  -- the code as a whole, and then each expression within it
  · intro bound s p m hp hal hroom hslots
    obtain ⟨t, hruns, harrives⟩ := runs_main hc ht hcode hnodup hp hal hroom hslots
    cases harrives with
    | behind hresult => cases hresult
    | @back m' w hresult hfollows hr0 hsp hfp =>
      cases hresult
      rw [opened_fp, opened_saved_lr] at hruns
      rw [opened_fp, opened_saved_fp] at hfp
      rw [opened_fp] at hsp
      refine ⟨m', hruns, hfollows.printed, ?_, hr0, ?_, hfp, ?_⟩
      · intro name off hoff
        rw [← opened_fp (l := Layout.ofMain.reserveAll stmts)]
        exact hfollows.slots name off hoff
      · rw [hsp]
        bv_omega
      · intro a ha
        rw [hfollows.memory a (by rw [opened_fp]; bv_omega), opened_memory (by omega) (Or.inr ha)]
  · intro x d d' before part rest s w m hx hd hpart hsplit hw hf hroom
    rcases d with ⟨n, layout⟩
    cases hd
    obtain ⟨_, -, hxc⟩ := shaped_of_isPlain hx (fun h => (Bool.false_ne_true h).elim) n part d' hpart
    have hsuffix : part ++ rest <:+ code := ⟨before, by rw [hsplit, List.append_assoc]⟩
    obtain ⟨m', hruns, hr0, hkeeps⟩ := hxc.evaluates ht hnodup hw hf hroom rest hsuffix
    exact ⟨m', hruns, hr0, hkeeps.sp, hkeeps.memory⟩

/-- A variable that becomes one, a loop that checks it and takes it to zero, and a check that
fails. -/
def countdown : List Node :=
  let x : Node := .ident "x" .nowhere
  [ .declare "x" (.binary .equal x x .nowhere) .nowhere,
    .loop x
      (.block [.assert x .nowhere, .assign "x" (.binary .subtract x x .nowhere) .nowhere] .nowhere)
      .nowhere,
    .assert x .nowhere ]

/-- A library that changes nothing. -/
def quiet : Library := ⟨id, fun _ => rfl, fun _ => rfl, fun _ _ _ => rfl⟩

/-- A processor with nothing but a stack. -/
def fresh (fp sp : Word) : Processor :=
  ⟨fun r => match r with | .sp => sp | .fp => fp | _ => 0, ⟨false, false, false⟩, fun _ => 0, []⟩

theorem code_of_main_correct_countdown :
    let code := (emit (.main countdown .nowhere) .top).code
    let equality : Node := .binary .equal (.ident "x" .nowhere) (.ident "x" .nowhere) .nowhere
    let part := (emit equality ⟨0, some (Layout.ofMain.reserveAll countdown)⟩).code
    let rest := code.drop (5 + part.length)
    (∃ m', Runs quiet code ⟨.ahead code, fresh 0 96⟩ ⟨.caller 0, m'⟩ ∧ m'.printed = ".F" ∧
      m'.memory (slotAt 88 (-4)) = 0) ∧
    ∃ m', Runs quiet code ⟨.ahead (part ++ rest), fresh 88 80⟩ ⟨.ahead rest, m'⟩ ∧
      m'.regs .r0 = 1 ∧ m'.regs .sp = 80 := by
  intro code equality part rest
  obtain ⟨hmain, hexpression⟩ :=
    code_of_main_correct quiet countdown .nowhere .top ⟨2, none⟩ code rfl rfl
  -- the two parts of the theorem, each at a machine of its own
  constructor
  · obtain ⟨m', hruns, hprinted, hslots, -⟩ :=
      hmain 2 (fun _ => 0) _ (fresh 0 96) rfl rfl (by decide) fun _ _ _ => rfl
    exact ⟨m', hruns, hprinted, hslots "x" _ rfl⟩
  · have hframed : Framed (Layout.ofMain.reserveAll countdown) (fun _ => 0) (fresh 88 80) :=
      ⟨by decide, by decide, by decide, by decide, fun _ _ _ => rfl⟩
    obtain ⟨m', hruns, hr0, hsp, -⟩ :=
      hexpression equality ⟨0, some (Layout.ofMain.reserveAll countdown)⟩
        ⟨0, some (Layout.ofMain.reserveAll countdown)⟩ (code.take 5) part rest (fun _ => 0) 1
        (fresh 88 80) rfl rfl rfl (by decide) rfl hframed (by decide)
    exact ⟨m', hruns, hr0, hsp⟩

end Assembly

end Scriptlet
