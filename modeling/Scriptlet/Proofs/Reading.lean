import Scriptlet.Parser.Basic
import Scriptlet.Proofs.Symbol

/-!
# What parsers read

Two judgements describe a parser without its trace, which never decides a reply. `Takes p xs rest Q`
says that wherever the symbols `xs ++ rest` are left, `p` reads exactly `xs` and yields a value that
satisfies `Q`; `Rejects p rest` says that `p` fails wherever `rest` is left. There is one rule for
every way to put parsers together, so a proof about a parser follows its definition.

## Contents

- §1 replies at a position
- §2 the symbols left at a position
- §3 sequencing
- §4 terminals
- §5 choice
- §6 repetition
- §7 whole streams
-/

namespace Scriptlet

namespace Parser

variable {α β : Type} {s : Stream}

/-! ## §1 Replies at a position -/

/-- From `pos` the parser yields `a` and stops at `fin`, whatever the trace. -/
def Reads (p : Parser α) (s : Stream) (pos : Nat) (a : α) (fin : Nat) : Prop :=
  ∀ t, (p s pos t).1 = .done a fin

/-- At `pos` the parser fails, whatever the trace. -/
def Refuses (p : Parser α) (s : Stream) (pos : Nat) : Prop := ∀ t, (p s pos t).1 = .failed

/-- The trace behind what is read exists and matters to nothing. -/
theorem Reads.run {p : Parser α} {pos fin : Nat} {a : α} (h : Reads p s pos a fin) (t : Trace) :
    ∃ t', p s pos t = (.done a fin, t') :=
  ⟨_, Prod.ext (h t) rfl⟩

theorem Refuses.run {p : Parser α} {pos : Nat} (h : Refuses p s pos) (t : Trace) :
    ∃ t', p s pos t = (.failed, t') :=
  ⟨_, Prod.ext (h t) rfl⟩

/-- A sequence reads what its parts read in turn. -/
theorem Reads.bind {p : Parser α} {f : α → Parser β} {pos mid fin : Nat} {a : α} {b : β}
    (hp : Reads p s pos a mid) (hf : Reads (f a) s mid b fin) : Reads (p >>= f) s pos b fin := by
  intro t
  obtain ⟨t', hrun⟩ := hp.run t
  show (Parser.bind p f s pos t).1 = .done b fin
  rw [Parser.bind, hrun]
  exact hf t'

/-- A sequence refuses where its first part does. -/
theorem Refuses.bind {p : Parser α} {f : α → Parser β} {pos : Nat} (hp : Refuses p s pos) :
    Refuses (p >>= f) s pos := by
  intro t
  obtain ⟨t', hrun⟩ := hp.run t
  show (Parser.bind p f s pos t).1 = .failed
  rw [Parser.bind, hrun]

/-- A sequence refuses where its second part does, with nothing given back. -/
theorem Reads.bind_refuses {p : Parser α} {f : α → Parser β} {pos mid : Nat} {a : α}
    (hp : Reads p s pos a mid) (hf : Refuses (f a) s mid) : Refuses (p >>= f) s pos := by
  intro t
  obtain ⟨t', hrun⟩ := hp.run t
  show (Parser.bind p f s pos t).1 = .failed
  rw [Parser.bind, hrun]
  exact hf t'

/-- A choice reads what its first parser reads. -/
theorem Reads.firstOf_head {p : Parser α} {ps : List (Parser α)} {pos fin : Nat} {a : α}
    (hp : Reads p s pos a fin) : Reads (firstOf (p :: ps)) s pos a fin := by
  intro t
  obtain ⟨t', hrun⟩ := hp.run t
  simp only [firstOf, hrun]

/-- A choice reads what a later parser reads, behind one that refuses. -/
theorem Reads.firstOf_tail {p : Parser α} {ps : List (Parser α)} {pos fin : Nat} {a : α}
    (hp : Refuses p s pos) (hps : Reads (firstOf ps) s pos a fin) :
    Reads (firstOf (p :: ps)) s pos a fin := by
  intro t
  obtain ⟨t', hrun⟩ := hp.run t
  simp only [firstOf, hrun]
  exact hps t'

/-- A choice refuses where all its parsers do. -/
theorem Refuses.firstOf {p : Parser α} {ps : List (Parser α)} {pos : Nat}
    (hp : Refuses p s pos) (hps : Refuses (firstOf ps) s pos) :
    Refuses (firstOf (p :: ps)) s pos := by
  intro t
  obtain ⟨t', hrun⟩ := hp.run t
  simp only [Parser.firstOf, hrun]
  exact hps t'

/-! ## §2 The symbols left at a position -/

end Parser

/-- The symbols from a position on. -/
def Stream.left (s : Stream) (pos : Nat) : List Symbol :=
  (s.items.toList.drop pos).map Terminal.symbol

namespace Stream

variable {s : Stream} {pos : Nat} {x : Symbol} {xs rest : List Symbol}

/-- What is left behind symbols that were there. -/
theorem left_append (h : s.left pos = xs ++ rest) : s.left (pos + xs.length) = rest := by
  unfold left at *
  rw [← List.drop_drop, List.map_drop, h, List.drop_left]

/-- Where a symbol is left, the end has not been reached. -/
theorem lt_size_of_left (h : s.left pos = x :: rest) : pos < s.items.size := by
  rcases Nat.lt_or_ge pos s.items.size with hlt | hge
  · exact hlt
  · have hnil : s.left pos = [] := by
      unfold left
      rw [List.drop_eq_nil_of_le (by simpa using hge)]
      rfl
    rw [hnil] at h
    cases h

/-- No more is left than the stream has. -/
theorem length_left_le (s : Stream) (pos : Nat) : (s.left pos).length ≤ s.items.size := by
  simp [left]

/-- The next terminal is the first symbol that is left. -/
theorem symbol_peek (h : s.left pos = x :: rest) : (s.peek pos).symbol = x := by
  have hlt := lt_size_of_left h
  have hpeek : s.peek pos = s.items[pos] := by simp [peek, hlt]
  have hbound : pos < s.items.toList.length := by simpa using hlt
  have hget : s.items[pos] = s.items.toList[pos] := by simp
  unfold left at h
  rw [List.drop_eq_getElem_cons hbound] at h
  rw [hpeek, hget]
  exact (List.cons.inj h).1

/-- Where nothing is left, the end is looked at. -/
theorem peek_of_left_nil (h : s.left pos = []) : s.peek pos = ⟨.ending, [], s.ending⟩ := by
  have hge : s.items.size ≤ pos := by
    unfold left at h
    simpa using h
  have hnone : s.items[pos]? = none := Array.getElem?_eq_none hge
  rw [peek, hnone]
  rfl

theorem next_of_left (h : s.left pos = x :: rest) : s.next pos = pos + 1 := by
  rw [next, if_pos (lt_size_of_left h)]

theorem next_of_left_nil (h : s.left pos = []) : s.next pos = pos := by
  have hge : s.items.size ≤ pos := by
    unfold left at h
    simpa using h
  rw [next, if_neg (Nat.not_lt.mpr hge)]

end Stream

namespace Parser

variable {α β : Type} {s : Stream} {xs ys rest : List Symbol}

/-- Where the symbols `xs ++ rest` are left, the parser reads exactly `xs` and yields a value that
satisfies `Q`. -/
def Takes (s : Stream) (p : Parser α) (xs rest : List Symbol) (Q : α → Prop) : Prop :=
  ∀ pos, s.left pos = xs ++ rest → ∃ a, Q a ∧ Reads p s pos a (pos + xs.length)

/-- The parser fails where the symbols are left. -/
def Rejects (s : Stream) (p : Parser α) (rest : List Symbol) : Prop :=
  ∀ pos, s.left pos = rest → Refuses p s pos

/-- A parser takes symbols to a weaker claim on its value. -/
theorem Takes.imp {p : Parser α} {Q R : α → Prop} (h : Takes s p xs rest Q)
    (hQR : ∀ a, Q a → R a) : Takes s p xs rest R := by
  intro pos hpos
  obtain ⟨a, ha, hr⟩ := h pos hpos
  exact ⟨a, hQR a ha, hr⟩

/-! ## §3 Sequencing -/

theorem Takes.pure {a : α} {Q : α → Prop} (h : Q a) :
    Takes s (Pure.pure a : Parser α) [] rest Q :=
  fun _ _ => ⟨a, h, fun _ => rfl⟩

/-- A sequence takes the symbols of both parts. -/
theorem Takes.bind {p : Parser α} {f : α → Parser β} {Q : α → Prop} {R : β → Prop}
    (hp : Takes s p xs (ys ++ rest) Q) (hf : ∀ a, Q a → Takes s (f a) ys rest R) :
    Takes s (p >>= f) (xs ++ ys) rest R := by
  intro pos hpos
  rw [List.append_assoc] at hpos
  -- what the first parser leaves is what the second one starts from
  obtain ⟨a, ha, hra⟩ := hp pos hpos
  obtain ⟨b, hb, hrb⟩ := hf a ha _ (Stream.left_append hpos)
  refine ⟨b, hb, ?_⟩
  rw [List.length_append, ← Nat.add_assoc]
  exact hra.bind hrb

/-- A parser that reads one symbol, and then another. -/
theorem Takes.cons {p : Parser α} {f : α → Parser β} {x : Symbol} {Q : α → Prop} {R : β → Prop}
    (hp : Takes s p [x] (ys ++ rest) Q) (hf : ∀ a, Q a → Takes s (f a) ys rest R) :
    Takes s (p >>= f) (x :: ys) rest R :=
  Takes.bind hp hf

/-- The last step of a sequence reads nothing more. -/
theorem Takes.map {p : Parser α} {f : α → β} {Q : α → Prop} {R : β → Prop}
    (hp : Takes s p xs rest Q) (hf : ∀ a, Q a → R (f a)) :
    Takes s (p >>= fun a => Pure.pure (f a)) xs rest R := by
  have h : Takes s (p >>= fun a => Pure.pure (f a)) (xs ++ []) rest R :=
    Takes.bind hp fun a ha => Takes.pure (hf a ha)
  rwa [List.append_nil] at h

theorem Rejects.bind {p : Parser α} {f : α → Parser β} (hp : Rejects s p rest) :
    Rejects s (p >>= f) rest :=
  fun pos hpos => (hp pos hpos).bind

/-- A sequence rejects what its second part rejects, behind what the first takes. -/
theorem Takes.bind_rejects {p : Parser α} {f : α → Parser β} {Q : α → Prop}
    (hp : Takes s p xs rest Q) (hf : ∀ a, Q a → Rejects s (f a) rest) :
    Rejects s (p >>= f) (xs ++ rest) := by
  intro pos hpos
  obtain ⟨a, ha, hra⟩ := hp pos hpos
  exact hra.bind_refuses (hf a ha _ (Stream.left_append hpos))

theorem Takes.cons_rejects {p : Parser α} {f : α → Parser β} {x : Symbol} {Q : α → Prop}
    (hp : Takes s p [x] rest Q) (hf : ∀ a, Q a → Rejects s (f a) rest) :
    Rejects s (p >>= f) (x :: rest) :=
  Takes.bind_rejects hp hf

/-! ## §4 Terminals -/

/-- A terminal at the head of what is left that satisfies the predicate is read. -/
theorem satisfy_takes {q : Terminal → Bool} {what : Text} {x : Symbol}
    (h : ∀ t : Terminal, t.symbol = x → q t = true) :
    Takes s (satisfy q what) [x] rest fun t => t.symbol = x := by
  intro pos hpos
  have hx : (s.peek pos).symbol = x := Stream.symbol_peek hpos
  refine ⟨s.peek pos, hx, fun t => ?_⟩
  simp [satisfy, h _ hx, Stream.next_of_left hpos]

/-- What is left may be nothing; then only the end of the source could be read. -/
theorem satisfy_rejects {q : Terminal → Bool} {what : Text}
    (hend : ∀ loc, q ⟨.ending, [], loc⟩ = false)
    (h : ∀ t : Terminal, q t = true → rest.head? ≠ some t.symbol) :
    Rejects s (satisfy q what) rest := by
  intro pos hpos t
  have hq : q (s.peek pos) = false := by
    -- behind the last symbol it is the end of the source that is looked at
    cases rest with
    | nil => rw [Stream.peek_of_left_nil hpos]; exact hend _
    | cons x rest =>
      refine Bool.eq_false_iff.mpr fun hq => h _ hq ?_
      rw [Stream.symbol_peek hpos, List.head?_cons]
  simp [satisfy, hq]

/-- A terminal of the symbol has the kind and text that the symbol says. -/
theorem symbol_eq_mark {t : Terminal} {text : Text} :
    t.symbol = .mark text ↔ (t.kind = .operator ∨ t.kind = .punct) ∧ t.text = text := by
  rcases t with ⟨kind, txt, loc⟩
  cases kind <;> simp [Terminal.symbol]

/-- Words are identifiers of the scan. -/
theorem symbol_eq_word {t : Terminal} {text : Text} :
    t.symbol = .word text ↔ t.kind = .ident ∧ t.text = text := by
  rcases t with ⟨kind, txt, loc⟩
  cases kind <;> simp [Terminal.symbol]

theorem symbol_eq_number {t : Terminal} {text : Text} :
    t.symbol = .number text ↔ t.kind = .number ∧ t.text = text := by
  rcases t with ⟨kind, txt, loc⟩
  cases kind <;> simp [Terminal.symbol]

/-- Strings are known by what their quotes hold. -/
theorem symbol_eq_string {t : Terminal} {v : Text} :
    t.symbol = .string v ↔ t.kind = .string ∧ unquote t.text = v := by
  rcases t with ⟨kind, txt, loc⟩
  cases kind <;> simp [Terminal.symbol]

/-- A delimiter or operator takes itself. -/
theorem punct_takes (text : Text) : Takes s (punct text) [.mark text] rest (·.text = text) := by
  refine (satisfy_takes ?_).imp fun t ht => (symbol_eq_mark.mp ht).2
  intro t ht
  obtain ⟨hk, htext⟩ := symbol_eq_mark.mp ht
  rcases hk with hk | hk <;> simp [hk, htext]

/-- A delimiter or operator rejects all other symbols. -/
theorem punct_rejects {text : Text} (h : rest.head? ≠ some (.mark text)) :
    Rejects s (punct text) rest := by
  refine satisfy_rejects (fun _ => rfl) fun t ht hx => ?_
  simp only [Bool.and_eq_true, Bool.or_eq_true, beq_iff_eq] at ht
  exact h (symbol_eq_mark.mpr ht ▸ hx)

/-- A keyword takes itself. -/
theorem keyword_takes (word : Text) : Takes s (keyword word) [.word word] rest fun _ => True := by
  refine (satisfy_takes ?_).imp fun _ _ => trivial
  intro t ht
  obtain ⟨hk, htext⟩ := symbol_eq_word.mp ht
  simp [hk, htext]

/-- A keyword rejects all other words. -/
theorem keyword_rejects {word : Text} (h : rest.head? ≠ some (.word word)) :
    Rejects s (keyword word) rest := by
  refine satisfy_rejects (fun _ => rfl) fun t ht hx => ?_
  simp only [Bool.and_eq_true, beq_iff_eq] at ht
  exact h (symbol_eq_word.mpr ht ▸ hx)

/-- A name is taken when it is not reserved. -/
theorem ident_takes {text : Text} (h : isReserved text = false) :
    Takes s ident [.word text] rest (·.text = text) := by
  refine (satisfy_takes ?_).imp fun t ht => (symbol_eq_word.mp ht).2
  intro t ht
  obtain ⟨hk, htext⟩ := symbol_eq_word.mp ht
  simp [hk, htext, h]

/-- Anything but a name that is not reserved is no identifier. -/
theorem ident_rejects (h : ∀ text, rest.head? = some (.word text) → isReserved text = true) :
    Rejects s ident rest := by
  refine satisfy_rejects (fun _ => rfl) fun t ht hx => ?_
  simp only [Bool.and_eq_true, beq_iff_eq, Bool.not_eq_true'] at ht
  rw [symbol_eq_word.mpr ⟨ht.1, rfl⟩] at hx
  have hres := h _ hx
  rw [ht.2] at hres
  cases hres

/-- A numeral is taken with its text. -/
theorem number_takes (text : Text) :
    Takes s (token (some .number) "number") [.number text] rest (·.text = text) := by
  refine (satisfy_takes ?_).imp fun t ht => (symbol_eq_number.mp ht).2
  intro t ht
  simp [(symbol_eq_number.mp ht).1]

theorem number_rejects (h : ∀ text, rest.head? ≠ some (.number text)) :
    Rejects s (token (some .number) "number") rest := by
  refine satisfy_rejects (fun _ => rfl) fun t ht hx => ?_
  have hk : t.kind = .number := by simpa using ht
  exact h t.text (symbol_eq_number.mpr ⟨hk, rfl⟩ ▸ hx)

/-- A string is taken with its value. -/
theorem string_takes (v : Text) :
    Takes s (token (some .string) "string") [.string v] rest (unquote ·.text = v) := by
  refine (satisfy_takes ?_).imp fun t ht => (symbol_eq_string.mp ht).2
  intro t ht
  simp [(symbol_eq_string.mp ht).1]

theorem string_rejects (h : ∀ v, rest.head? ≠ some (.string v)) :
    Rejects s (token (some .string) "string") rest := by
  refine satisfy_rejects (fun _ => rfl) fun t ht hx => ?_
  have hk : t.kind = .string := by simpa using ht
  exact h _ (symbol_eq_string.mpr ⟨hk, rfl⟩ ▸ hx)

/-- The end of the source is read without moving on. -/
theorem ending_takes : Takes s ending [] [] fun _ => True := by
  intro pos hpos
  refine ⟨s.peek pos, trivial, fun t => ?_⟩
  simp [ending, satisfy, Stream.peek_of_left_nil hpos, Stream.next_of_left_nil hpos]

/-- The end is not taken before it is reached. -/
theorem ending_rejects {x : Symbol} (h : x ≠ .ending) : Rejects s ending (x :: rest) := by
  intro pos hpos t
  have hk : (s.peek pos).kind ≠ .ending := by
    intro hk
    refine h ?_
    rw [← Stream.symbol_peek hpos, Terminal.symbol, hk]
  simp [ending, satisfy, hk]

/-! ## §5 Choice -/

/-- A choice takes what its first parser takes. -/
theorem Takes.head {p : Parser α} {ps : List (Parser α)} {Q : α → Prop}
    (h : Takes s p xs rest Q) : Takes s (firstOf (p :: ps)) xs rest Q := by
  intro pos hpos
  obtain ⟨a, ha, hr⟩ := h pos hpos
  exact ⟨a, ha, hr.firstOf_head⟩

/-- A choice takes what a later parser takes, when the first rejects it. -/
theorem Takes.tail {p : Parser α} {ps : List (Parser α)} {Q : α → Prop}
    (hp : Rejects s p (xs ++ rest)) (hps : Takes s (firstOf ps) xs rest Q) :
    Takes s (firstOf (p :: ps)) xs rest Q := by
  intro pos hpos
  obtain ⟨a, ha, hr⟩ := hps pos hpos
  exact ⟨a, ha, Reads.firstOf_tail (hp pos hpos) hr⟩

theorem Rejects.none : Rejects s (firstOf ([] : List (Parser α))) rest := fun _ _ _ => rfl

/-- A choice rejects what all of its parsers reject. -/
theorem Rejects.both {p : Parser α} {ps : List (Parser α)} (hp : Rejects s p rest)
    (hps : Rejects s (firstOf ps) rest) : Rejects s (firstOf (p :: ps)) rest :=
  fun pos hpos => (hp pos hpos).firstOf (hps pos hpos)

/-- A parser that may fail, where it does. -/
theorem Takes.default {p : Parser α} {a : α} {Q : α → Prop} (hp : Rejects s p rest) (ha : Q a) :
    Takes s (withDefault p a) [] rest Q :=
  Takes.tail hp (Takes.head fun _ _ => ⟨a, ha, fun _ => rfl⟩)

/-- An optional part is taken when it is there. -/
theorem Takes.present {p : Parser α} {a : α} {Q : α → Prop} (hp : Takes s p xs rest Q) :
    Takes s (withDefault p a) xs rest Q :=
  hp.head

/-- One of several signs is read. -/
theorem signs_take {signs : List Text} {text : Text} (h : text ∈ signs) :
    Takes s (firstOf (signs.map punct)) [.mark text] rest (·.text = text) := by
  induction signs with
  | nil => cases h
  | cons sign signs ih =>
    by_cases heq : text = sign
    · subst heq
      exact (punct_takes text).head
    · refine Takes.tail (punct_rejects ?_) (ih ((List.mem_cons.mp h).resolve_left heq))
      simpa using heq

/-- Signs reject what is none of them. -/
theorem signs_reject {signs : List Text} (h : ∀ text ∈ signs, rest.head? ≠ some (.mark text)) :
    Rejects s (firstOf (signs.map punct)) rest := by
  induction signs with
  | nil => exact Rejects.none
  | cons sign signs ih =>
    refine Rejects.both (punct_rejects (h sign (by simp))) (ih fun text ht => h text ?_)
    exact List.mem_cons_of_mem _ ht

/-! ## §6 Repetition -/

/-- With more rounds to go than symbols in `xs`, the repeated parser reads `xs` and yields values
that satisfy `R`. -/
def Repeats (s : Stream) (p : Parser α) (xs rest : List Symbol) (R : List α → Prop) : Prop :=
  ∀ count pos, xs.length < count → s.left pos = xs ++ rest →
    ∃ as, R as ∧ Reads (manyUpTo p count) s pos as (pos + xs.length)

theorem Repeats.imp {p : Parser α} {Q R : List α → Prop} (h : Repeats s p xs rest Q)
    (hQR : ∀ as, Q as → R as) : Repeats s p xs rest R := by
  intro count pos hcount hpos
  obtain ⟨as, has, hr⟩ := h count pos hcount hpos
  exact ⟨as, hQR as has, hr⟩

/-- A repetition stops where its parser rejects. -/
theorem Repeats.stop {p : Parser α} {R : List α → Prop} (hp : Rejects s p rest) (hR : R []) :
    Repeats s p [] rest R := by
  intro count pos hcount hpos
  refine ⟨[], hR, fun t => ?_⟩
  obtain ⟨t', hrun⟩ := (hp pos hpos).run t
  match count, hcount with
  | count + 1, _ =>
    simp [manyUpTo, hrun]

/-- One round that reads something, and the rounds behind it. -/
theorem Repeats.round {p : Parser α} {Q : α → Prop} {R : List α → Prop} (hne : xs ≠ [])
    (hp : Takes s p xs (ys ++ rest) Q)
    (hmore : ∀ a, Q a → Repeats s p ys rest fun as => R (a :: as)) :
    Repeats s p (xs ++ ys) rest R := by
  intro count pos hcount hpos
  rw [List.append_assoc] at hpos
  obtain ⟨a, ha, hra⟩ := hp pos hpos
  have hlen : 0 < xs.length := List.length_pos_iff.mpr hne
  rw [List.length_append] at hcount
  match count, hcount with
  | count + 1, hcount =>
    obtain ⟨as, has, hras⟩ := hmore a ha count _ (by omega) (Stream.left_append hpos)
    refine ⟨a :: as, has, fun t => ?_⟩
    obtain ⟨t', hround⟩ := hra.run t
    obtain ⟨t'', hrounds⟩ := hras.run t'
    -- a round that reads nothing would end the repetition, so this one must have moved on
    have hmoved : pos + xs.length ≠ pos := by omega
    simp only [manyUpTo, hround, if_neg hmoved, hrounds, List.length_append, Nat.add_assoc]

/-- A single round. -/
theorem Repeats.once {p : Parser α} {Q : α → Prop} {R : List α → Prop} (hne : xs ≠ [])
    (hp : Takes s p xs rest Q) (hrest : Rejects s p rest) (hR : ∀ a, Q a → R [a]) :
    Repeats s p xs rest R := by
  have h : Repeats s p (xs ++ []) rest R :=
    Repeats.round hne hp fun a ha => Repeats.stop hrest (hR a ha)
  rwa [List.append_nil] at h

/-- There are never more rounds than symbols left, so the bound of `many` is no restriction. -/
theorem Repeats.takes {p : Parser α} {R : List α → Prop} (h : Repeats s p xs rest R) :
    Takes s (many p) xs rest R := by
  intro pos hpos
  have hlen := Stream.length_left_le s pos
  rw [hpos, List.length_append] at hlen
  exact h (s.items.size + 1) pos (by omega) hpos

/-! ## §7 Whole streams -/

/-- A parser that takes all symbols of a stream yields its value. -/
theorem run_of_takes {p : Parser α} {Q : α → Prop} (h : Takes s p (s.left 0) [] Q) :
    ∃ a, Q a ∧ p.run s = .ok a := by
  have hwhole : Takes s (p >>= fun a => ending >>= fun _ => Pure.pure a) (s.left 0 ++ []) [] Q :=
    Takes.bind h fun a ha => ending_takes.map fun _ _ => ha
  obtain ⟨a, ha, hr⟩ := hwhole 0 (by simp)
  obtain ⟨t, hrun⟩ := hr.run .empty
  refine ⟨a, ha, ?_⟩
  simp only [Parser.run, hrun]

/-- A parser that stops before a symbol of a stream does not read the whole of it. -/
theorem run_of_stops {p : Parser α} {Q : α → Prop} {x : Symbol} {a : α}
    (h : Takes s p xs (x :: rest) Q) (hleft : s.left 0 = xs ++ x :: rest) (hx : x ≠ .ending) :
    p.run s ≠ .ok a := by
  have hwhole : Rejects s (p >>= fun a => ending >>= fun _ => Pure.pure a) (xs ++ x :: rest) :=
    h.bind_rejects fun _ _ => (ending_rejects hx).bind
  obtain ⟨t, hrun⟩ := (hwhole 0 hleft).run .empty
  simp only [Parser.run, hrun]
  intro herr
  cases herr

end Parser

end Scriptlet
