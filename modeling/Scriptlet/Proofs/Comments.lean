import Scriptlet.Proofs.Yield
import Scriptlet.Token.Scan

/-!
# Texts from which no comment is removed

Marks are the characters of a source with escapes paired. Comment removal walks over them with a
mode, and `Uncommented` says that from a mode on nothing is removed. Since every step keeps, holds
or drops its mark, the kept text is as long as the source only if no step drops one, and then no
slash is followed by another slash or a star outside a string literal.

## Contents

- §1 the characters of marks
- §2 removing nothing
-/

namespace Scriptlet

/-! ## §1 The characters of marks -/

namespace Mark

/-- The characters of a mark as written. -/
def raw (m : Mark) : List Char := if m.escaped then ['\\', m.char] else [m.char]

/-- A mark that is a backslash is escaped. -/
def Proper (m : Mark) : Prop := m.escaped = false → m.char ≠ '\\'

theorem raw_of_plain {m : Mark} (h : m.escaped = false) : m.raw = [m.char] := by
  simp [raw, h]

/-- The marks of glyphs are written with the same characters. -/
theorem raw_of_ofGlyphs {loc : Location} {gs : List Glyph} {marks : List Mark}
    (h : ofGlyphs loc gs = .ok marks) :
    gs = (marks.flatMap raw).map .char ∧ ∀ m ∈ marks, m.Proper := by
  fun_induction ofGlyphs loc gs generalizing marks with
  | case1 =>
    cases h
    exact ⟨rfl, by simp⟩
  | case2 | case3 | case4 => cases h
  | case5 loc next c rest =>
    -- a backslash and what it escapes are one mark
    rename_i ih
    obtain ⟨more, hmore, heq⟩ := bind_eq_ok.mp h
    cases heq
    obtain ⟨hraw, hproper⟩ := ih hmore
    refine ⟨by simp [raw, hraw], fun m hm => ?_⟩
    rcases List.mem_cons.mp hm with rfl | hm
    · exact fun hplain => by cases hplain
    · exact hproper m hm
  | case6 loc c rest hslash ih =>
    obtain ⟨more, hmore, heq⟩ := bind_eq_ok.mp h
    cases heq
    obtain ⟨hraw, hproper⟩ := ih hmore
    refine ⟨by simp [raw, hraw], fun m hm => ?_⟩
    rcases List.mem_cons.mp hm with rfl | hm
    · exact fun _ => hslash
    · exact hproper m hm

end Mark

/-! ## §2 Removing nothing -/

namespace CommentMode

/-- The marks read but not yet known to stay. -/
def held : CommentMode → List Mark
  | .slash s => [s]
  | _ => []

theorem stepCode_keeps (m : Mark) : (stepCode m).2 ++ (stepCode m).1.held = [m] := by
  unfold stepCode
  split
  · rfl
  · split <;> rfl

/-- A mark is kept, held or dropped. -/
theorem sublist_step (mode : CommentMode) (m : Mark) :
    ((mode.step m).2 ++ (mode.step m).1.held).Sublist (mode.held ++ [m]) := by
  cases mode with
  | code =>
    rw [step, stepCode_keeps]
    exact List.Sublist.refl _
  | slash s =>
    simp only [step]
    split
    · exact List.nil_sublist _
    · split
      · exact List.nil_sublist _
      · -- a mark behind a slash that opens no comment is read as in code
        rw [List.cons_append, stepCode_keeps]
        exact List.Sublist.refl _
  | quoted q => simp only [step]; split <;> exact List.Sublist.refl _
  | line => simp only [step]; split <;> simp [held]
  | block opened => simp only [step]; split <;> exact List.nil_sublist _
  | blockStar opened =>
    simp only [step]
    split
    · exact List.nil_sublist _
    · split <;> exact List.nil_sublist _

end CommentMode

theorem stripComments_cons {mode : CommentMode} {m : Mark} {marks kept : List Mark}
    (h : stripComments mode (m :: marks) = .ok kept) :
    ∃ more, stripComments (mode.step m).1 marks = .ok more ∧ kept = (mode.step m).2 ++ more := by
  have hstep : stripComments mode (m :: marks) = (do
      let more ← stripComments (mode.step m).1 marks
      return (mode.step m).2 ++ more) := rfl
  rw [hstep] at h
  obtain ⟨more, hmore, heq⟩ := bind_eq_ok.mp h
  exact ⟨more, hmore, (Except.ok.inj heq).symm⟩

/-- What is kept of a text are marks of the text in their order. -/
theorem sublist_stripComments {mode : CommentMode} {marks kept : List Mark}
    (h : stripComments mode marks = .ok kept) : kept.Sublist (mode.held ++ marks) := by
  induction marks generalizing mode kept with
  | nil => cases mode <;> cases h <;> simp [CommentMode.held]
  | cons m marks ih =>
    obtain ⟨more, hmore, rfl⟩ := stripComments_cons h
    have hstep := (mode.sublist_step m).append_right marks
    rw [List.append_assoc, List.append_assoc] at hstep
    exact ((ih hmore).append_left _).trans hstep

/-- From the mode on no comment is removed from the marks. -/
def Uncommented (mode : CommentMode) (marks : List Mark) : Prop :=
  stripComments mode marks = .ok (mode.held ++ marks)

namespace Uncommented

variable {m s : Mark} {q : Char} {marks : List Mark}

/-- A step that drops nothing leads on. -/
theorem next {mode : CommentMode} (h : Uncommented mode (m :: marks))
    (hkept : (mode.step m).2 ++ (mode.step m).1.held = mode.held ++ [m]) :
    Uncommented (mode.step m).1 marks := by
  obtain ⟨more, hmore, heq⟩ := stripComments_cons h
  rw [List.append_cons, ← hkept, List.append_assoc] at heq
  rw [Uncommented, hmore, List.append_cancel_left heq]

theorem code (h : Uncommented .code (m :: marks)) :
    Uncommented (CommentMode.stepCode m).1 marks :=
  h.next (CommentMode.stepCode_keeps m)

theorem quoted (h : Uncommented (.quoted q) (m :: marks)) :
    Uncommented (if m.isPlain q then .code else .quoted q) marks := by
  have hkept : ((CommentMode.quoted q).step m).2 ++ ((CommentMode.quoted q).step m).1.held
      = (CommentMode.quoted q).held ++ [m] := by
    simp only [CommentMode.step]
    split <;> rfl
  exact h.next hkept

/-- Behind a slash stands neither a slash nor a star, since both would be removed. -/
theorem slash (h : Uncommented (.slash s) (m :: marks)) :
    m.isPlain '/' = false ∧ m.isPlain '*' = false ∧
      Uncommented (CommentMode.stepCode m).1 marks := by
  obtain ⟨more, hmore, heq⟩ := stripComments_cons h
  have hlen := (sublist_stripComments hmore).length_le
  rw [List.length_append] at hlen
  have hsize := congrArg List.length heq
  simp only [CommentMode.held, List.length_append, List.length_cons, List.length_nil] at hsize
  -- a comment that starts here drops two marks, and what is kept would be too short
  cases hslash : m.isPlain '/' with
  | true =>
    simp [CommentMode.step, hslash, CommentMode.held] at hlen hsize
    omega
  | false =>
    cases hstar : m.isPlain '*' with
    | true =>
      simp [CommentMode.step, hslash, hstar, CommentMode.held] at hlen hsize
      omega
    | false =>
      refine ⟨rfl, rfl, ?_⟩
      have hstep : (CommentMode.slash s).step m
          = ((CommentMode.stepCode m).1, s :: (CommentMode.stepCode m).2) := by
        simp [CommentMode.step, hslash, hstar]
      have hnext := h.next (by
        rw [hstep]
        exact congrArg (s :: ·) (CommentMode.stepCode_keeps m))
      rwa [hstep] at hnext

end Uncommented

end Scriptlet
