import Mathlib.Computability.Language
import Scriptlet.Proofs.Agreement
import Scriptlet.Proofs.Spaced
import Scriptlet.Proofs.Stability

/-!
# What a parser was reading can be completed

Where the grammar meets the end of the stream, what stands there can be gone on with: for every
parser that is pending there are symbols that complete what it has read so far. So whatever reaches
the end is the start of a program.

`Viable` says this of a parser and a language of symbols. Languages are put together in the same way
as parsers are, one after the other for a sequence and any number of times for a repetition, and the
rules of the grammar are seen to be in the languages of expressions and statements that derivations
describe. The completion is made of symbols that can be written.

An `else` needs care: behind a statement that ends in a choice without a second branch it does not
belong to the choice around that statement. It is still part of a statement, whose node is another
one.

## Contents

- §1 languages of symbols
- §2 the judgement
- §3 terminals
- §4 choice and repetition
- §5 expressions
- §6 an `else` behind a statement
- §7 statements
- §8 the unfolded rules
-/

namespace Scriptlet

open scoped Computability

/-! ## §1 Languages of symbols -/

/-- The language of one symbol. -/
def single (x : Symbol) : Language Symbol := {[x]}

theorem mem_single {x : Symbol} {xs : List Symbol} : xs ∈ single x ↔ xs = [x] := Iff.rfl

/-- Words of the language between two marks. -/
def enclosed (opening closing : Text) (l : Language Symbol) : Language Symbol :=
  single (.mark opening) * (l * single (.mark closing))

/-- An enclosed text is one of the language between its two marks. -/
theorem mem_enclosed {opening closing : Text} {l : Language Symbol} {xs : List Symbol}
    (h : xs ∈ enclosed opening closing l) :
    ∃ ys ∈ l, xs = .mark opening :: (ys ++ [.mark closing]) := by
  obtain ⟨_, rfl, _, hrest, rfl⟩ := Language.mem_mul.mp h
  obtain ⟨ys, hys, _, rfl, rfl⟩ := Language.mem_mul.mp hrest
  exact ⟨ys, hys, rfl⟩

/-- Words of the language with commas between them. -/
def listed (l : Language Symbol) : Language Symbol := l * (single (.mark ",") * l)∗ + 1

/-- A row of parts, each behind its comma. -/
theorem mem_kstar_commas {l : Language Symbol} {xs : List Symbol}
    (h : xs ∈ (single (.mark ",") * l)∗) : ∃ parts : List (List Symbol), (∀ ys ∈ parts, ys ∈ l) ∧
      xs = parts.flatMap fun ys => .mark "," :: ys := by
  obtain ⟨rests, rfl, hrests⟩ := h
  induction rests with
  | nil => exact ⟨[], by simp, rfl⟩
  | cons rest rests ih =>
    obtain ⟨hrest, hmore⟩ := List.forall_mem_cons.mp hrests
    obtain ⟨parts, hparts, heq⟩ := ih hmore
    obtain ⟨_, rfl, ys, hys, rfl⟩ := Language.mem_mul.mp hrest
    refine ⟨ys :: parts, List.forall_mem_cons.mpr ⟨hys, hparts⟩, ?_⟩
    rw [List.flatten_cons, List.flatMap_cons, heq]
    rfl

/-- A list is a row of parts with commas between them. -/
theorem mem_listed {l : Language Symbol} {xs : List Symbol} (h : xs ∈ listed l) :
    ∃ parts : List (List Symbol), (∀ ys ∈ parts, ys ∈ l) ∧ xs = commas parts := by
  rcases (Language.mem_add _ _ _).mp h with h | rfl
  · obtain ⟨ys, hys, rest, hrest, rfl⟩ := Language.mem_mul.mp h
    obtain ⟨parts, hparts, rfl⟩ := mem_kstar_commas hrest
    exact ⟨ys :: parts, List.forall_mem_cons.mpr ⟨hys, hparts⟩, (commas_cons ys parts).symm⟩
  · exact ⟨[], by simp, rfl⟩

/-- The language has a word that can be written. -/
def Attainable (l : Language Symbol) : Prop := ∃ xs ∈ l, ∀ x ∈ xs, x.Writable

namespace Attainable

variable {l m : Language Symbol}

theorem single {x : Symbol} (h : x.Writable) : Attainable (single x) :=
  ⟨[x], rfl, List.forall_mem_singleton.mpr h⟩

theorem one : Attainable 1 := ⟨[], rfl, by simp⟩

/-- A larger language has texts wherever the smaller one has. -/
theorem mono (h : Attainable l) (hle : l ≤ m) : Attainable m := by
  obtain ⟨xs, hxs, hw⟩ := h
  exact ⟨xs, hle hxs, hw⟩

/-- Texts of two languages stand behind each other. -/
theorem mul (hl : Attainable l) (hm : Attainable m) : Attainable (l * m) := by
  obtain ⟨xs, hxs, hw⟩ := hl
  obtain ⟨ys, hys, hw'⟩ := hm
  exact ⟨xs ++ ys, Language.append_mem_mul hxs hys, List.forall_mem_append.mpr ⟨hw, hw'⟩⟩

theorem kstar (l : Language Symbol) : Attainable l∗ := one.mono one_le_kstar

end Attainable

/-! ## §2 The judgement -/

instance : Nonempty Terminal := ⟨⟨.ending, [], .start⟩⟩

instance : Nonempty Node := ⟨.missing⟩

namespace Stream

variable {s : Stream} {pos : Nat}

/-- What is left starts with the symbol that is looked at. -/
theorem left_of_lt (h : pos < s.items.size) :
    s.left pos = (s.peek pos).symbol :: s.left (pos + 1) := by
  have hbound : pos < s.items.toList.length := by simpa using h
  rw [left, List.drop_eq_getElem_cons hbound, List.map_cons, peek_of_lt h]
  simp [left]

theorem left_size (s : Stream) : s.left s.items.size = [] := by
  simp [left]

end Stream

section

variable {s : Stream} {pos fin mid : Nat} {l m : Language Symbol}

/-- There are symbols that complete what is left at the position to a word of the language. -/
def Completable (s : Stream) (pos : Nat) (l : Language Symbol) : Prop :=
  ∃ ys : List Symbol, (∀ y ∈ ys, y.Writable) ∧ s.left pos ++ ys ∈ l

/-- A word of the language stands from the first position up to the second. -/
structure Spans (s : Stream) (pos fin : Nat) (l : Language Symbol) : Prop where
  le : fin ≤ s.items.size
  word : ∃ xs ∈ l, s.left pos = xs ++ s.left fin

/-- What completes to a language completes to a larger one. -/
theorem Completable.mono (h : Completable s pos l) (hle : l ≤ m) : Completable s pos m := by
  obtain ⟨ys, hys, hmem⟩ := h
  exact ⟨ys, hys, hle hmem⟩

/-- A completion goes on with any text of the language that follows. -/
theorem Completable.mul (h : Completable s pos l) (hm : Attainable m) :
    Completable s pos (l * m) := by
  obtain ⟨ys, hys, hmem⟩ := h
  obtain ⟨zs, hzs, hw⟩ := hm
  refine ⟨ys ++ zs, List.forall_mem_append.mpr ⟨hys, hw⟩, ?_⟩
  rw [← List.append_assoc]
  exact Language.append_mem_mul hmem hzs

/-- What spans a text of a language spans one of a larger language. -/
theorem Spans.mono (h : Spans s pos fin l) (hle : l ≤ m) : Spans s pos fin m := by
  obtain ⟨xs, hxs, heq⟩ := h.word
  exact ⟨h.le, xs, hle hxs, heq⟩

theorem Spans.refl (hpos : pos ≤ s.items.size) : Spans s pos pos 1 := ⟨hpos, [], rfl, rfl⟩

/-- Spans that meet are joined. -/
theorem Spans.mul (h : Spans s pos mid l) (h' : Spans s mid fin m) : Spans s pos fin (l * m) := by
  obtain ⟨xs, hxs, heq⟩ := h.word
  obtain ⟨ys, hys, heq'⟩ := h'.word
  refine ⟨h'.le, xs ++ ys, Language.append_mem_mul hxs hys, ?_⟩
  rw [heq, heq', List.append_assoc]

/-- A span and a completion behind it complete the two languages. -/
theorem Spans.completable (h : Spans s pos mid l) (h' : Completable s mid m) :
    Completable s pos (l * m) := by
  obtain ⟨xs, hxs, heq⟩ := h.word
  obtain ⟨ys, hys, hmem⟩ := h'
  refine ⟨ys, hys, ?_⟩
  rw [heq, List.append_assoc]
  exact Language.append_mem_mul hxs hmem

end

namespace Parser

variable {α β : Type} {s : Stream} {pos : Nat} {l m : Language Symbol}

/-- Either what is left at the position can be completed, or the end was not met and what was read
is a word of the language. -/
def Parses (s : Stream) (out : Reply α × Trace) (pos : Nat) (l : Language Symbol) : Prop :=
  Completable s pos l ∨
    out.2.furthest < s.items.size ∧ ∀ a fin, out.1 = .done a fin → Spans s pos fin l

/-- Whatever the parser reads is a word of the language, and where it meets the end that can be
completed to one. -/
structure Viable (s : Stream) (p : Parser α) (l : Language Symbol) : Prop where
  attainable : Attainable l
  run : ∀ pos ≤ s.items.size, ∀ t, t.furthest < s.items.size → Parses s (p s pos t) pos l

namespace Parses

variable {t : Trace}

/-- Success with the input not yet used up, when the text between is of the language. -/
theorem done {a : α} {fin : Nat} (ht : t.furthest < s.items.size) (h : Spans s pos fin l) :
    Parses s (.done a fin, t) pos l := by
  refine .inr ⟨ht, fun b stop hdone => ?_⟩
  cases hdone
  exact h

/-- A failure before the end of the input asks for no completion. -/
theorem failed (ht : t.furthest < s.items.size) :
    Parses s ((.failed, t) : Reply α × Trace) pos l := by
  refine .inr ⟨ht, fun b stop hdone => ?_⟩
  cases hdone

theorem unfinished (ht : t.furthest < s.items.size) :
    Parses s ((.unfinished, t) : Reply α × Trace) pos l := by
  refine .inr ⟨ht, fun b stop hdone => ?_⟩
  cases hdone

/-- What is made of an outcome. -/
theorem onward {out : Reply α × Trace} {f : α → Nat → Trace → Reply β × Trace}
    {g : Trace → Reply β × Trace} (h : Parses s out pos l)
    (hopen : Completable s pos l → Completable s pos m)
    (hdone : ∀ a fin t₁, t₁.furthest < s.items.size → Spans s pos fin l →
      Parses s (f a fin t₁) pos m)
    (hfailed : ∀ t₁, t₁.furthest < s.items.size → Parses s (g t₁) pos m) :
    Parses s (onward out f g) pos m := by
  -- either the stream can be completed to a word already, or the part has stopped short of its end
  rcases h with h | ⟨hlt, hspans⟩
  · exact .inl (hopen h)
  · obtain ⟨reply, t₁⟩ := out
    cases reply with
    | done a fin => exact hdone a fin t₁ hlt (hspans a fin rfl)
    | failed => exact hfailed t₁ hlt
    | unfinished => exact .unfinished hlt

/-- Behind a word of one language, one of another. -/
theorem behind {out : Reply α × Trace} {mid : Nat} (hspans : Spans s pos mid l)
    (h : Parses s out mid m) : Parses s out pos (l * m) := by
  rcases h with h | ⟨hlt, hmore⟩
  · exact .inl (hspans.completable h)
  · exact .inr ⟨hlt, fun a fin hdone => hspans.mul (hmore a fin hdone)⟩

/-- Answers keep for a larger language. -/
theorem mono {out : Reply α × Trace} (h : Parses s out pos l) (hle : l ≤ m) :
    Parses s out pos m := by
  rcases h with h | ⟨hlt, hspans⟩
  · exact .inl (h.mono hle)
  · exact .inr ⟨hlt, fun a fin hdone => (hspans a fin hdone).mono hle⟩

end Parses

section

variable {p : Parser α} {ps : List (Parser α)} {f : α → Parser β}

/-- A parser that is viable for a language is so for a larger one. -/
theorem Viable.mono (h : Viable s p l) (hle : l ≤ m) : Viable s p m where
  attainable := h.attainable.mono hle
  run pos hpos t ht := (h.run pos hpos t ht).mono hle

theorem Viable.pure (a : α) : Viable s (Pure.pure a : Parser α) 1 where
  attainable := .one
  run _ hpos _ ht := .done ht (.refl hpos)

/-- One parser behind the other: what is left open is completed in the first language, with a text
of the second behind it. -/
theorem Viable.bind [Nonempty α] (hp : Viable s p l) (hf : ∀ a, Viable s (f a) m) :
    Viable s (p >>= f) (l * m) where
  attainable := hp.attainable.mul (hf Classical.ofNonempty).attainable
  run pos hpos t ht := by
    rw [bind_onward]
    refine (hp.run pos hpos t ht).onward (fun h => ?_) (fun a fin t₁ hlt hspans => ?_)
      fun t₁ hlt => .failed hlt
    · exact h.mul (hf Classical.ofNonempty).attainable
    · exact .behind hspans ((hf a).run fin hspans.le t₁ hlt)

/-- What is built from a value does not matter to the language. -/
theorem Viable.map {g : α → β} (hp : Viable s p l) :
    Viable s (p >>= fun a => Pure.pure (g a)) l where
  attainable := hp.attainable
  run pos hpos t ht := by
    rw [bind_onward]
    refine (hp.run pos hpos t ht).onward (fun h => h) (fun a fin t₁ hlt hspans => ?_)
      fun t₁ hlt => .failed hlt
    exact .done hlt hspans

/-! ## §3 Terminals -/

/-- A terminal that is asked for, when those that pass are of the language. -/
theorem satisfy_viable {q : Terminal → Bool} {what : Text}
    (hproper : ∀ x ∈ s.items.toList, x.Proper) (hl : Attainable l)
    (hmem : ∀ x : Terminal, x.Proper → q x = true → [x.symbol] ∈ l) :
    Viable s (satisfy q what) l where
  attainable := hl
  run pos hpos t ht := by
    rcases Nat.lt_or_eq_of_le hpos with hlt | rfl
    · -- a terminal stands there, which is read or refused
      unfold satisfy
      simp only
      split
      · next hread =>
        rw [Stream.next_of_lt hlt]
        refine .done ht ⟨hlt, _, hmem _ (Stream.proper_peek hproper hlt) hread, ?_⟩
        exact Stream.left_of_lt hlt
      · exact .failed (Trace.note_lt_iff.mpr ⟨ht, hlt⟩)
    · -- at the end any word will do
      obtain ⟨ys, hys, hw⟩ := hl
      refine .inl ⟨ys, hw, ?_⟩
      rwa [Stream.left_size, List.nil_append]

section

variable (hproper : ∀ x ∈ s.items.toList, x.Proper)

include hproper

/-- Delimiters and operators complete to themselves. -/
theorem punct_viable {text : Text} (htext : text ∈ Symbol.marks) :
    Viable s (punct text) (single (.mark text)) := by
  refine satisfy_viable hproper (.single (.mark htext)) fun x _ hx => ?_
  simp only [Bool.and_eq_true, Bool.or_eq_true, beq_iff_eq] at hx
  rw [symbol_eq_mark.mpr hx]
  rfl

/-- Keywords complete to themselves. -/
theorem keyword_viable {word : Text} (k : Keyword) (hword : k.spelling = word) :
    Viable s (keyword word) (single (.word word)) := by
  refine satisfy_viable hproper (.single (hword ▸ .reserved k)) fun x _ hx => ?_
  simp only [Bool.and_eq_true, beq_iff_eq] at hx
  rw [symbol_eq_word.mpr hx]
  rfl

/-- The terminator is a semicolon, which the end of the source can be completed with. -/
theorem terminator_viable : Viable s Grammar.terminator (single (.mark ";")) where
  attainable := .single (.mark (by decide))
  run pos hpos t ht := by
    rcases Nat.lt_or_eq_of_le hpos with hlt | rfl
    · rw [Grammar.terminator, firstOf_onward]
      refine ((punct_viable hproper (by decide)).run pos hpos t ht).onward (fun h => h)
        (fun a fin t₁ ht₁ hspans => .done ht₁ hspans) fun t₁ ht₁ => ?_
      -- where a terminal stands is not the end
      rw [firstOf_onward, ending_of_lt hproper hlt]
      exact .failed (Trace.note_lt_iff.mpr ⟨ht₁, hlt⟩)
    · refine .inl ⟨[.mark ";"], List.forall_mem_singleton.mpr (.mark (by decide)), ?_⟩
      rw [Stream.left_size]
      rfl

end

/-! ## §4 Choice and repetition -/

theorem Viable.none (hl : Attainable l) : Viable s (firstOf ([] : List (Parser α))) l where
  attainable := hl
  run _ _ _ ht := .failed ht

/-- A choice completes to what any of its parsers completes to. -/
theorem Viable.choice (hp : Viable s p l) (hps : Viable s (firstOf ps) l) :
    Viable s (firstOf (p :: ps)) l where
  attainable := hp.attainable
  run pos hpos t ht := by
    rw [firstOf_onward]
    exact (hp.run pos hpos t ht).onward (fun h => h) (fun a fin t₁ hlt hspans => .done hlt hspans)
      fun t₁ hlt => hps.run pos hpos t₁ hlt

/-- The last of several alternatives. -/
theorem Viable.last (hp : Viable s p l) : Viable s (firstOf [p]) l :=
  hp.choice (.none hp.attainable)

/-- An optional part may be left out. -/
theorem Viable.withDefault {a : α} (hp : Viable s p l) : Viable s (withDefault p a) (l + 1) := by
  have hone : Viable s (Parser.constant a) 1 := Viable.pure a
  exact (hp.mono le_self_add).choice (hone.mono le_add_self).last

/-- Any number of parts, by induction on the rounds. -/
theorem Viable.manyUpTo (hp : Viable s p l) (count : Nat) : Viable s (manyUpTo p count) l∗ where
  attainable := .kstar l
  run pos hpos t ht := by
    induction count generalizing pos t with
    | zero => exact .done ht ((Spans.refl hpos).mono one_le_kstar)
    | succ count ih =>
      have hstop {t₁ : Trace} (hlt : t₁.furthest < s.items.size) :
          Parses s (.done ([] : List α) pos, t₁) pos l∗ :=
        .done hlt ((Spans.refl hpos).mono one_le_kstar)
      rw [manyUpTo_onward]
      refine (hp.run pos hpos t ht).onward (fun h => h.mono le_kstar)
        (fun a fin t₁ hlt hspans => ?_) fun t₁ hlt => hstop hlt
      split
      · exact hstop hlt
      · -- one round and then the others
        refine (Parses.behind hspans (ih fin hspans.le t₁ hlt)).mono mul_kstar_le_kstar |>.onward
          (fun h => h) (fun as stop t₂ hlt₂ hall => .done hlt₂ hall) fun t₂ hlt₂ => .failed hlt₂

theorem Viable.many (hp : Viable s p l) : Viable s (many p) l∗ where
  attainable := .kstar l
  run pos hpos t ht := (hp.manyUpTo (s.items.size + 1)).run pos hpos t ht

end

section

variable {p : Parser α} (hproper : ∀ x ∈ s.items.toList, x.Proper)

include hproper

/-- A list with commas completes to a list of the parts' texts. -/
theorem Viable.commaList [Nonempty α] (hp : Viable s p l) :
    Viable s (commaList p) (listed l) := by
  refine Viable.withDefault (hp.bind fun first => (Viable.many ?_).map)
  exact (punct_viable hproper (by decide)).bind fun _ => hp

/-- A part between two marks completes to an enclosed text. -/
theorem Viable.between [Nonempty α] {opening closing : Text} (hp : Viable s p l)
    (hopening : opening ∈ Symbol.marks) (hclosing : closing ∈ Symbol.marks) :
    Viable s (between opening p closing) (enclosed opening closing l) :=
  (punct_viable hproper hopening).bind fun _ =>
    hp.bind fun _ => (punct_viable hproper hclosing).map

end

end Parser

namespace Grammar

open Scriptlet.Parser

variable {s : Stream} {rules : Rules} {k l : Nat} {xs ys : List Symbol} {m n : Node}

/-! ## §5 Expressions -/

/-- The expressions of a level. -/
def derivable (k : Nat) : Language Symbol := {xs | ∃ n, Derives k xs n}

/-- Statements with all their semicolons. -/
def stated : Language Symbol := {xs | ∃ n, Stated xs n}

/-- The language of a recursive rule. -/
def language : Rule → Language Symbol
  | .expression => derivable 7
  | .statement => stated
  | .unary => derivable 1
  | .power => derivable 2

/-- Names that are not reserved. -/
def names : Language Symbol := {xs | ∃ t, isReserved t = false ∧ xs = [.word t]}

/-- One of several marks. -/
def oneOf (texts : List Text) : Language Symbol := {xs | ∃ t ∈ texts, xs = [.mark t]}

/-- Looser levels derive what the tighter ones do. -/
theorem derivable_mono (h : k ≤ l) : derivable k ≤ derivable l :=
  fun _ ⟨n, hn⟩ => ⟨n, hn.mono h⟩

theorem attainable_names : Attainable names :=
  ⟨[.word "x"], ⟨"x", by decide, rfl⟩,
    List.forall_mem_singleton.mpr (.text (by decide) (by decide))⟩

/-- Every level derives some text. -/
theorem attainable_derivable (k : Nat) : Attainable (derivable k) := by
  refine attainable_names.mono ?_
  rintro _ ⟨t, ht, rfl⟩
  exact ⟨_, (Derives.name t ht).mono (Nat.zero_le k)⟩

/-- Words that each have a node, with their nodes. -/
theorem exists_parts {P : List Symbol → Node → Prop} {words : List (List Symbol)}
    (h : ∀ xs ∈ words, ∃ n, P xs n) :
    ∃ parts : List (List Symbol × Node), parts.map Prod.fst = words ∧ ∀ a ∈ parts, P a.1 a.2 := by
  induction words with
  | nil => exact ⟨[], rfl, by simp⟩
  | cons xs words ih =>
    obtain ⟨⟨n, hn⟩, hmore⟩ := List.forall_mem_cons.mp h
    obtain ⟨parts, hparts, hall⟩ := ih hmore
    exact ⟨(xs, n) :: parts, by rw [List.map_cons, hparts], List.forall_mem_cons.mpr ⟨hn, hall⟩⟩

/-- Calls are derived at the tightest level. -/
theorem call_le : names * enclosed "(" ")" (listed (derivable 7)) ≤ derivable 0 := by
  intro xs h
  obtain ⟨_, ⟨t, ht, rfl⟩, _, hargs, rfl⟩ := Language.mem_mul.mp h
  obtain ⟨_, hlist, rfl⟩ := mem_enclosed hargs
  obtain ⟨words, hwords, rfl⟩ := mem_listed hlist
  obtain ⟨args, rfl, hall⟩ := exists_parts hwords
  exact ⟨_, .call t args ht hall⟩

/-- So are groups. -/
theorem group_le : enclosed "(" ")" (derivable 7) ≤ derivable 0 := by
  intro xs h
  obtain ⟨ys, ⟨n, hn⟩, rfl⟩ := mem_enclosed h
  exact ⟨n, .group ys n hn⟩

/-- Signs in front of an operand make an operand. -/
theorem leading_le {op : UnaryOp} (hop : op = .not ∨ op = .negate) :
    single (.mark op.symbol) * derivable 1 ≤ derivable 1 := by
  intro xs h
  obtain ⟨_, rfl, ys, ⟨n, hn⟩, rfl⟩ := Language.mem_mul.mp h
  exact ⟨_, .leading op hop ys n hn⟩

theorem plus_le : single (.mark "+") * derivable 1 ≤ derivable 1 := by
  intro xs h
  obtain ⟨_, rfl, ys, ⟨n, hn⟩, rfl⟩ := Language.mem_mul.mp h
  exact ⟨_, .plus ys n hn⟩

/-- Powers chain to the right. -/
theorem power_le : derivable 1 * (single (.mark "**") * derivable 2 + 1) ≤ derivable 2 := by
  intro xs h
  obtain ⟨ys, ⟨m, hm⟩, zs, hzs, rfl⟩ := Language.mem_mul.mp h
  rcases (Language.mem_add _ _ _).mp hzs with hzs | rfl
  · obtain ⟨_, rfl, us, ⟨n, hn⟩, rfl⟩ := Language.mem_mul.mp hzs
    exact ⟨_, .raised ys us m n hm hn⟩
  · exact ⟨m, by simpa using hm.loosen⟩

/-- Operators of a level with their operands make a chain longer. -/
theorem chain_le : derivable (k + 2) * (oneOf (signsAt (k + 3)) * derivable (k + 2))∗
    ≤ derivable (k + 3) := by
  refine mul_kstar_le (derivable_mono (by omega)) ?_
  intro xs h
  obtain ⟨ys, ⟨m, hm⟩, _, hzs, rfl⟩ := Language.mem_mul.mp h
  obtain ⟨_, ⟨t, ht, rfl⟩, zs, ⟨n, hn⟩, rfl⟩ := Language.mem_mul.mp hzs
  obtain ⟨op, _, rfl, hlevel, _⟩ := BinaryOp.exists_of_mem_signsAt ht
  exact ⟨_, hm.extend hlevel hn⟩

section

variable (hproper : ∀ x ∈ s.items.toList, x.Proper)

include hproper

theorem ident_viable : Viable s ident names := by
  refine satisfy_viable hproper attainable_names fun x _ hx => ?_
  simp only [Bool.and_eq_true, beq_iff_eq, Bool.not_eq_true'] at hx
  exact ⟨x.text, hx.2, congrArg (fun y => [y]) (symbol_eq_word.mpr ⟨hx.1, rfl⟩)⟩

theorem number_viable : Viable s number (derivable 0) := by
  refine (satisfy_viable hproper (attainable_derivable 0) fun x hx hkind => ?_).map
  have hkind : x.kind = .number := by simpa using hkind
  rw [symbol_eq_number.mpr ⟨hkind, rfl⟩]
  exact ⟨_, .number x.text (hx.numeral hkind)⟩

theorem string_viable : Viable s string (derivable 0) := by
  refine (satisfy_viable hproper (attainable_derivable 0) fun x _ hkind => ?_).map
  have hkind : x.kind = .string := by simpa using hkind
  rw [symbol_eq_string.mpr ⟨hkind, rfl⟩]
  exact ⟨_, .string _⟩

theorem identifier_viable : Viable s identifier (derivable 0) := by
  refine (ident_viable hproper).map.mono ?_
  rintro _ ⟨t, ht, rfl⟩
  exact ⟨_, .name t ht⟩

/-- Signs, of which there is at least one. -/
theorem signs_viable {texts : List Text} (hne : texts ≠ [])
    (hmarks : ∀ t ∈ texts, t ∈ Symbol.marks) :
    Viable s (firstOf (texts.map punct)) (oneOf texts) := by
  have hsome : Attainable (oneOf texts) := by
    obtain ⟨t, more, rfl⟩ := List.exists_cons_of_ne_nil hne
    refine ⟨[.mark t], ⟨t, by simp, rfl⟩, ?_⟩
    exact List.forall_mem_singleton.mpr (.mark (hmarks t (by simp)))
  -- each alternative reads one of all the signs
  have hall : ∀ signs ⊆ texts, Viable s (firstOf (signs.map punct)) (oneOf texts) := by
    intro signs hsub
    induction signs with
    | nil => exact .none hsome
    | cons t signs ih =>
      obtain ⟨ht, hmore⟩ := List.cons_subset.mp hsub
      refine ((punct_viable hproper (hmarks t ht)).mono ?_).choice (ih hmore)
      rintro _ rfl
      exact ⟨t, ht, rfl⟩
  exact hall texts (List.Subset.refl _)

variable (hrules : ∀ r, Viable s (rules r) (language r))

include hrules

theorem group_viable : Viable s (between "(" (rules .expression) ")")
    (enclosed "(" ")" (derivable 7)) :=
  Viable.between hproper (hrules .expression) (by decide) (by decide)

/-- An atom is a number, a string, a group, a call or a name. -/
theorem atom_viable : Viable s (atom rules) (derivable 0) := by
  have hargs : Viable s (between "(" (commaList (rules .expression)) ")")
      (enclosed "(" ")" (listed (derivable 7))) :=
    Viable.between hproper (Viable.commaList hproper (hrules .expression)) (by decide) (by decide)
  have hcall : Viable s (call rules) (names * enclosed "(" ")" (listed (derivable 7))) :=
    (ident_viable hproper).bind fun _ => hargs.map
  refine (hcall.mono call_le).choice ((identifier_viable hproper).choice ?_)
  refine (number_viable hproper).choice ((string_viable hproper).choice ?_)
  exact ((group_viable hproper hrules).mono group_le).last

/-- Signs, one for each turn, and an atom in the end. -/
theorem unary_viable : Viable s (unary rules) (derivable 1) := by
  have hleading (op : UnaryOp) (hop : op = .not ∨ op = .negate)
      (hmark : op.symbol ∈ Symbol.marks) :
      Viable s (leadingOp rules op.symbol op) (derivable 1) := by
    refine Viable.mono ?_ (leading_le hop)
    exact (punct_viable hproper hmark).bind fun _ => (hrules .unary).map
  -- a plus is read over: the level is that of what follows
  have hplus : Viable s (do let _ ← punct "+"; rules .unary) (derivable 1) := by
    refine Viable.mono ?_ plus_le
    exact (punct_viable hproper (by decide)).bind fun _ => hrules .unary
  refine (hleading .not (.inl rfl) (by decide)).choice ?_
  refine (hleading .negate (.inr rfl) (by decide)).choice (hplus.choice ?_)
  exact ((atom_viable hproper hrules).mono (derivable_mono (by omega))).last

/-- A power completes through its base and what may follow it. -/
theorem power_viable : Viable s (power rules) (derivable 2) := by
  refine Viable.mono ((hrules .unary).bind fun base => Viable.withDefault ?_) power_le
  exact (punct_viable hproper (by decide)).bind fun _ => (hrules .power).map

/-- Chains over chains, up to the loosest level. -/
theorem levelParser_viable (hk : k ≤ 5) :
    Viable s (levelParser rules (k + 2)) (derivable (k + 2)) := by
  induction k with
  | zero => exact hrules .power
  | succ k ih =>
    have hoperand := ih (by omega)
    have hsigns : signsAt (k + 3) ≠ [] ∧ ∀ t ∈ signsAt (k + 3), t ∈ Symbol.marks := by
      match k, hk with
      | 0, _ | 1, _ | 2, _ | 3, _ | 4, _ => decide
    refine Viable.mono (hoperand.bind fun first => (Viable.many ?_).map) chain_le
    exact (signs_viable hproper hsigns.1 hsigns.2).bind fun _ => hoperand.map

end

/-! ## §6 An `else` behind a statement -/

end Grammar

/-- An expression is no missing node and does not end in a choice. -/
theorem Derives.not_open {k : Nat} {xs : List Symbol} {n : Node} (h : Derives k xs n) :
    n.isMissing = false ∧ n.endsOpen = false := by
  induction h with
  | number | string | name | leading | raised => exact ⟨rfl, rfl⟩
  | call t args _ _ _ =>
    unfold Node.ofCall
    split
    · split <;> exact ⟨rfl, rfl⟩
    · exact ⟨rfl, rfl⟩
  | group _ _ _ ih | atom _ _ _ ih | plus _ _ _ ih | base _ _ _ ih => exact ih
  | chain k xs n links _ _ _ ih _ =>
    -- a chain with links is an operation, and one without is its first operand
    clear * - ih
    induction links generalizing n with
    | nil => exact ih
    | cons l links ih' => exact ih' (Link.join n l) ⟨rfl, rfl⟩

namespace Stated

variable {xs ys cs : List Symbol} {m n c : Node}

theorem isMissing (h : Stated xs n) : n.isMissing = false := by
  cases h with
  | simple xs n h =>
    cases h with
    | expression _ _ h => exact h.not_open.1
    | _ => rfl
  | _ => rfl

/-- A simple statement does not end in a choice. -/
theorem simple_closed (h : Simple xs n) : n.endsOpen = false := by
  cases h with
  | expression _ _ h => exact h.not_open.2
  | _ => rfl

/-- **An `else` behind a statement that ends in a choice** makes that choice one with two branches
and the whole a statement again. -/
theorem withElse (h : Stated xs m) (hopen : m.endsOpen = true) (hy : Stated ys n) :
    ∃ m', Stated (xs ++ .word "else" :: ys) m' := by
  induction h with
  | simple xs m h =>
    rw [simple_closed h] at hopen
    cases hopen
  | block | function | main => cases hopen
  | choice cs c hc xs m h ih =>
    cases hm : m.endsOpen with
    | false =>
      have hwhole := Stated.choiceElse cs c hc xs ys m n h hm hy
      exact ⟨_, by simpa using hwhole⟩
    | true =>
      obtain ⟨m', hm'⟩ := ih hm
      have hwhole := Stated.choice cs c hc _ m' hm'
      exact ⟨_, by simpa using hwhole⟩
  | choiceElse cs c hc xs zs m₁ m₂ hx hclosed hz _ ih =>
    -- the `else` goes into the second branch
    rw [Node.endsOpen, hz.isMissing, Bool.false_or] at hopen
    obtain ⟨m', hm'⟩ := ih hopen
    have hwhole := Stated.choiceElse cs c hc xs _ m₁ m' hx hclosed hm'
    exact ⟨_, by simpa using hwhole⟩
  | loop cs c hc xs m h ih =>
    obtain ⟨m', hm'⟩ := ih hopen
    have hwhole := Stated.loop cs c hc _ m' hm'
    exact ⟨_, by simpa using hwhole⟩

/-- A choice with two branches is a statement, wherever its `else` goes. -/
theorem exists_choice (hc : Derives 7 cs c) (hx : Stated xs m) (hy : Stated ys n) :
    ∃ m', Stated (.word "if" :: (.mark "(" :: (cs ++ [.mark ")"]) ++ (xs ++ .word "else" :: ys)))
      m' := by
  cases hm : m.endsOpen with
  | false => exact ⟨_, .choiceElse cs c hc xs ys m n hx hm hy⟩
  | true =>
    obtain ⟨m', hm'⟩ := hx.withElse hm hy
    exact ⟨_, .choice cs c hc _ m' hm'⟩

end Stated

namespace Grammar

open Scriptlet.Parser

variable {s : Stream} {rules : Rules}

/-! ## §7 Statements -/

/-- A row of statements is the texts of its statements, one behind the other. -/
theorem mem_statements {xs : List Symbol} (h : xs ∈ stated∗) :
    ∃ parts : List (List Symbol × Node), (∀ a ∈ parts, Stated a.1 a.2) ∧
      xs = parts.flatMap Prod.fst := by
  obtain ⟨words, rfl, hwords⟩ := h
  obtain ⟨parts, rfl, hall⟩ := exists_parts hwords
  exact ⟨parts, hall, List.flatMap_def.symm⟩

/-- A simple statement with its semicolon. -/
theorem mem_stated_of_simple {xs : List Symbol} {n : Node} (h : Simple xs n) :
    xs ++ [.mark ";"] ∈ stated :=
  ⟨n, .simple xs n h⟩

/-- Returns are stated, with a value and without. -/
theorem return_le :
    single (.word "return") * ((derivable 7 + 1) * single (.mark ";")) ≤ stated := by
  intro xs h
  obtain ⟨_, rfl, _, hrest₁, rfl⟩ := Language.mem_mul.mp h
  obtain ⟨ys, hys, _, rfl, rfl⟩ := Language.mem_mul.mp hrest₁
  rcases (Language.mem_add _ _ _).mp hys with ⟨n, hn⟩ | rfl
  · exact mem_stated_of_simple (.giveBack ys n hn)
  · exact mem_stated_of_simple .giveNothing

/-- Declarations are stated under both of their keywords. -/
theorem declare_le : (single (.word "var") + single (.word "let")) *
    (names * (single (.mark "=") * (derivable 7 * single (.mark ";")))) ≤ stated := by
  intro xs h
  obtain ⟨_, hword, _, hrest₁, rfl⟩ := Language.mem_mul.mp h
  obtain ⟨_, ⟨t, ht, rfl⟩, _, hrest₂, rfl⟩ := Language.mem_mul.mp hrest₁
  obtain ⟨_, rfl, _, hrest₃, rfl⟩ := Language.mem_mul.mp hrest₂
  obtain ⟨ys, ⟨n, hn⟩, _, rfl, rfl⟩ := Language.mem_mul.mp hrest₃
  rcases (Language.mem_add _ _ _).mp hword with rfl | rfl
  · exact mem_stated_of_simple (.declare .varWord (.inr rfl) t ht ys n hn)
  · exact mem_stated_of_simple (.declare .letWord (.inl rfl) t ht ys n hn)

/-- Assignments are stated under each of their signs. -/
theorem assign_le :
    names * (oneOf assignSigns * (derivable 7 * single (.mark ";"))) ≤ stated := by
  -- a sign other than the plain one is that of an operator with an operation
  have hsigns : ∀ sign ∈ assignSigns, sign = "=" ∨
      ∃ op ∈ Operator.table, ∃ bin, op.compound? = some bin ∧ op.spelling = sign := by
    decide
  intro xs h
  obtain ⟨_, ⟨t, ht, rfl⟩, _, hrest₁, rfl⟩ := Language.mem_mul.mp h
  obtain ⟨_, ⟨sign, hsign, rfl⟩, _, hrest₂, rfl⟩ := Language.mem_mul.mp hrest₁
  obtain ⟨ys, ⟨n, hn⟩, _, rfl, rfl⟩ := Language.mem_mul.mp hrest₂
  rcases hsigns sign hsign with rfl | ⟨op, _, bin, hop, rfl⟩
  · exact mem_stated_of_simple (.assign t ht ys n hn)
  · exact mem_stated_of_simple (.update t ht op bin hop ys n hn)

theorem expression_le : derivable 7 * single (.mark ";") ≤ stated := by
  intro xs h
  obtain ⟨ys, ⟨n, hn⟩, _, rfl, rfl⟩ := Language.mem_mul.mp h
  exact mem_stated_of_simple (.expression ys n hn)

theorem block_le : enclosed "\x7b" "\x7d" stated∗ ≤ stated := by
  intro xs h
  obtain ⟨_, hbody, rfl⟩ := mem_enclosed h
  obtain ⟨parts, hparts, rfl⟩ := mem_statements hbody
  exact ⟨_, .block parts hparts⟩

/-- Choices are stated, and the other branch may be missing. -/
theorem choice_le : single (.word "if") * (enclosed "(" ")" (derivable 7) *
    (stated * (single (.word "else") * stated + 1))) ≤ stated := by
  intro xs h
  obtain ⟨_, rfl, _, hrest₁, rfl⟩ := Language.mem_mul.mp h
  obtain ⟨_, hcond, _, hrest₂, rfl⟩ := Language.mem_mul.mp hrest₁
  obtain ⟨cs, ⟨c, hc⟩, rfl⟩ := mem_enclosed hcond
  -- the else part may be missing
  obtain ⟨ys, ⟨m, hm⟩, _, helse, rfl⟩ := Language.mem_mul.mp hrest₂
  rcases (Language.mem_add _ _ _).mp helse with helse | rfl
  · obtain ⟨_, rfl, zs, ⟨n, hn⟩, rfl⟩ := Language.mem_mul.mp helse
    obtain ⟨m', hm'⟩ := Stated.exists_choice hc hm hn
    exact ⟨m', hm'⟩
  · rw [List.append_nil]
    exact ⟨_, .choice cs c hc ys m hm⟩

theorem loop_le : single (.word "while") * (enclosed "(" ")" (derivable 7) * stated) ≤ stated := by
  intro xs h
  obtain ⟨_, rfl, _, hrest₁, rfl⟩ := Language.mem_mul.mp h
  obtain ⟨_, hcond, ys, ⟨n, hn⟩, rfl⟩ := Language.mem_mul.mp hrest₁
  obtain ⟨cs, ⟨c, hc⟩, rfl⟩ := mem_enclosed hcond
  exact ⟨_, .loop cs c hc ys n hn⟩

/-- Functions are stated, with any number of parameters. -/
theorem function_le : single (.word "function") *
    (names * (enclosed "(" ")" (listed names) * enclosed "\x7b" "\x7d" stated∗)) ≤ stated := by
  intro xs h
  obtain ⟨_, rfl, _, hrest₁, rfl⟩ := Language.mem_mul.mp h
  obtain ⟨_, ⟨t, ht, rfl⟩, _, hrest₂, rfl⟩ := Language.mem_mul.mp hrest₁
  obtain ⟨_, hparams, _, hbody, rfl⟩ := Language.mem_mul.mp hrest₂
  obtain ⟨_, hlist, rfl⟩ := mem_enclosed hparams
  obtain ⟨_, hstmts, rfl⟩ := mem_enclosed hbody
  obtain ⟨parts, hparts, rfl⟩ := mem_statements hstmts
  obtain ⟨words, hwords, rfl⟩ := mem_listed hlist
  -- each word of the list is a name
  obtain ⟨params, hres, rfl⟩ : ∃ params : List Text, (∀ p ∈ params, isReserved p = false) ∧
      words = params.map fun p => [.word p] := by
    clear * - hwords
    induction words with
    | nil => exact ⟨[], by simp, rfl⟩
    | cons word words ih =>
      obtain ⟨⟨p, hp, rfl⟩, hmore⟩ := List.forall_mem_cons.mp hwords
      obtain ⟨params, hres, rfl⟩ := ih hmore
      exact ⟨p :: params, List.forall_mem_cons.mpr ⟨hp, hres⟩, rfl⟩
  by_cases hmain : t = "main"
  · subst hmain
    exact ⟨_, .main params hres parts hparts⟩
  · exact ⟨_, .function t ht hmain params hres parts hparts⟩

section

variable (hproper : ∀ x ∈ s.items.toList, x.Proper)

include hproper

/-- A terminated part completes with its semicolon. -/
theorem terminated_viable {p : Parser Node} {l : Language Symbol} (hp : Viable s p l) :
    Viable s (terminated p) (l * single (.mark ";")) :=
  hp.bind fun _ => (terminator_viable hproper).map

variable (hrules : ∀ r, Viable s (rules r) (language r))

include hrules

/-- Declarations and assignments complete alike. -/
theorem binding_viable {sign : Parser Terminal} {build : Terminal → Terminal → Node → Node}
    {l : Language Symbol} (hsign : Viable s sign l) : Viable s (binding rules sign build)
      (names * (l * (derivable 7 * single (.mark ";")))) :=
  (ident_viable hproper).bind fun _ => hsign.bind fun _ =>
    terminated_viable hproper (hrules .expression).map

theorem braces_viable : Viable s (braces rules) (enclosed "\x7b" "\x7d" stated∗) :=
  (punct_viable hproper (by decide)).bind fun _ =>
    (hrules .statement).many.bind fun _ => (punct_viable hproper (by decide)).map

/-- A function completes through its name, its parameters and its body. -/
theorem functionStmt_viable : Viable s (functionStmt rules) stated := by
  have hparams : Viable s (between "(" (commaList ident) ")") (enclosed "(" ")" (listed names)) :=
    Viable.between hproper (Viable.commaList hproper (ident_viable hproper)) (by decide) (by decide)
  refine Viable.mono ?_ function_le
  refine (keyword_viable hproper .functionWord rfl).bind fun t => ?_
  refine (ident_viable hproper).bind fun name => hparams.bind fun params => ?_
  -- the name decides what is built and not what is read
  by_cases hmain : name.text = "main"
  · simp only [hmain, if_true]
    exact (braces_viable hproper hrules).map
  · simp only [hmain, if_false]
    exact (braces_viable hproper hrules).map

/-- A choice completes through either of its branches. -/
theorem ifStmt_viable : Viable s (ifStmt rules) stated := by
  have helse : Viable s (do let _ ← keyword "else"; rules .statement)
      (single (.word "else") * stated) :=
    (keyword_viable hproper .elseWord rfl).bind fun _ => hrules .statement
  refine Viable.mono ?_ choice_le
  refine (keyword_viable hproper .ifWord rfl).bind fun t => ?_
  refine (group_viable hproper hrules).bind fun cond => ?_
  exact (hrules .statement).bind fun yes => helse.withDefault.map

theorem whileStmt_viable : Viable s (whileStmt rules) stated := by
  refine Viable.mono ?_ loop_le
  refine (keyword_viable hproper .whileWord rfl).bind fun t => ?_
  exact (group_viable hproper hrules).bind fun cond => (hrules .statement).map

theorem varStmt_viable : Viable s (varStmt rules) stated := by
  refine Viable.mono ?_ declare_le
  refine Viable.bind (Viable.choice ?_ (Viable.last ?_)) fun t => ?_
  · exact (keyword_viable hproper .varWord rfl).mono le_self_add
  · exact (keyword_viable hproper .letWord rfl).mono le_add_self
  · exact binding_viable hproper hrules (punct_viable hproper (by decide))

/-- A statement completes to one that is stated, whichever form it has begun. -/
theorem statement_viable : Viable s (statement rules) stated := by
  have hreturn : Viable s (returnStmt rules) stated := by
    refine Viable.mono ?_ return_le
    refine (keyword_viable hproper .returnWord rfl).bind fun t => ?_
    exact terminated_viable hproper (hrules .expression).withDefault.map
  have hassign : Viable s (assignStmt rules) stated :=
    (binding_viable hproper hrules (signs_viable hproper (by decide) (by decide))).mono assign_le
  -- the alternatives are tried in the order of the grammar
  refine hreturn.choice ((functionStmt_viable hproper hrules).choice ?_)
  refine (ifStmt_viable hproper hrules).choice ((whileStmt_viable hproper hrules).choice ?_)
  refine (varStmt_viable hproper hrules).choice (hassign.choice ?_)
  refine ((braces_viable hproper hrules).map.mono block_le).choice ?_
  exact ((terminated_viable hproper (hrules .expression)).mono expression_le).last

end

/-! ## §8 The unfolded rules -/

/-- Every rule's language has some text. -/
theorem attainable_language (r : Rule) : Attainable (language r) := by
  cases r with
  | statement => exact ((attainable_derivable 7).mul (.single (.mark (by decide)))).mono expression_le
  | _ => exact attainable_derivable _

/-- **What the rules were reading can be completed.** -/
theorem unfold_viable (hproper : ∀ x ∈ s.items.toList, x.Proper) (n : Nat) (r : Rule) :
    Viable s (unfold n r) (language r) := by
  induction n generalizing r with
  | zero => exact ⟨attainable_language r, fun _ _ _ ht => .unfinished ht⟩
  | succ n ih =>
    cases r with
    | expression => exact levelParser_viable hproper ih (k := 5) (Nat.le_refl _)
    | statement => exact statement_viable hproper ih
    | unary => exact unary_viable hproper ih
    | power => exact power_viable hproper ih

/-- A program completes to a row of statements, at every height of the rules. -/
theorem program_viable (hproper : ∀ x ∈ s.items.toList, x.Proper) (n : Nat) :
    Viable s (program n) stated∗ :=
  (unfold_viable hproper n .statement).many

end Grammar

end Scriptlet
