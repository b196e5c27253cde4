import Mathlib.Data.List.DropRight
import Scriptlet.Proofs.Continuation
import Scriptlet.Proofs.Scanning

/-!
# Places are true

A place says where a byte stands: how many bytes are before it, how many line ends are among them,
and how many glyphs stand between the last of these and the byte (`Location.TrueIn`). The scanner
counts as it reads, glyph by glyph, and then pairs escapes, drops comments and holds characters back
until a lexeme is complete. The places it reports are true all the same: each of them is the place
of a mark, and marks are never moved.

What stands at the place of a token is what the token begins with, and tokens come in the order of
their places. An error stands at the mark it is about, or where the comment or string literal was
opened that is not closed.

## Contents

- §1 places in texts
- §2 marks
- §3 comments
- §4 tokens
-/

namespace Scriptlet

/-! ## §1 Places in texts -/

namespace Text

/-- A text whose first glyphs are characters begins with the bytes of these characters. -/
theorem eq_ofChars_append {t : Text} {cs : List Char} {rest : List Glyph}
    (h : t.glyphs = cs.map .char ++ rest) :
    ∃ more, t = ofChars cs ++ more ∧ more.glyphs = rest := by
  induction cs generalizing t with
  | nil => exact ⟨t, rfl, h⟩
  | cons c cs ih =>
    cases t with
    | nil => cases h
    -- the first scalar of the text is the first of the characters
    | cons b bytes =>
      cases hscalar : scalar? (b :: bytes) with
      | none => simp [glyphs, glyphsFrom, hscalar] at h
      | some read =>
        obtain ⟨d, n⟩ := read
        obtain ⟨more, heq, -⟩ := eq_ofChar_of_scalar? hscalar
        rw [heq, glyphs_ofChar_append, List.map_cons, List.cons_append] at h
        obtain ⟨hd, hmore⟩ := List.cons.inj h
        obtain rfl : d = c := Glyph.char.inj hd
        obtain ⟨rest', rfl, hrest⟩ := ih hmore
        exact ⟨rest', by rw [heq, ofChars_cons, List.append_assoc], hrest⟩

end Text

namespace Location

/-- The place says where the byte at its offset stands in the text: its line by the line ends before
it, its column by the glyphs behind the last of them. -/
structure TrueIn (source : Text) (l : Location) : Prop where
  offset_lt : l.offset < source.length
  line_eq : l.line = 1 + (source.take l.offset).count Text.newline
  column_eq :
    l.column = 1 + Text.count ((source.take l.offset).rtakeWhile (· != Text.newline))

/-- The place behind the characters of the start of a text. -/
def behind (cs : List Char) : Location := cs.foldl (fun l c => l.after (.char c)) .start

theorem behind_concat (cs : List Char) (c : Char) :
    behind (cs ++ [c]) = (behind cs).after (.char c) := by
  simp [behind]

theorem offset_after (l : Location) (c : Char) :
    (l.after (.char c)).offset = l.offset + (Text.ofChar c).length := by
  unfold after
  split <;> rfl

theorem offset_lt_after (l : Location) (c : Char) : l.offset < (l.after (.char c)).offset := by
  have hpos := List.length_pos_iff.mpr (Text.ofChar_ne_nil c)
  rw [offset_after]
  omega

/-- The place behind some characters, read off their text. -/
theorem behind_eq (cs : List Char) :
    (behind cs).offset = (Text.ofChars cs).length ∧
      (behind cs).line = 1 + List.count Text.newline (Text.ofChars cs) ∧
      ∃ ds, (Text.ofChars cs).rtakeWhile (· != Text.newline) = Text.ofChars ds ∧
        (behind cs).column = 1 + ds.length := by
  induction cs using List.reverseRecOn with
  | nil => exact ⟨rfl, rfl, [], rfl, rfl⟩
  | append_singleton cs c ih =>
    obtain ⟨hoffset, hline, ds, hds, hcolumn⟩ := ih
    have hbytes : Text.ofChars (cs ++ [c]) = Text.ofChars cs ++ Text.ofChar c := by simp
    rw [behind_concat, hbytes, List.length_append, List.count_append, offset_after]
    by_cases hc : c = '\n'
    · -- a line end: the next line starts with its first column
      subst hc
      have hend : Text.ofChar '\n' = [Text.newline] := by decide
      refine ⟨by rw [hoffset], ?_, [], ?_, rfl⟩
      · rw [hend]
        simp [after, Glyph.is, hline, Nat.add_assoc]
      · rw [hend]
        exact List.rtakeWhile_concat_neg _ _ _ (by simp)
    · have hnot : Text.newline ∉ Text.ofChar c := fun h => hc (Text.eq_newline_of_mem h)
      refine ⟨by rw [hoffset], ?_, ds ++ [c], ?_, ?_⟩
      · rw [List.count_eq_zero_of_not_mem hnot]
        simp [after, Glyph.is, hc, hline]
      · have hall : ∀ b ∈ (Text.ofChar c).reverse, (b != Text.newline) = true := by
          intro b hb
          rw [List.mem_reverse] at hb
          exact bne_iff_ne.mpr fun heq => hnot (heq ▸ hb)
        rw [List.rtakeWhile, List.reverse_append, List.takeWhile_append_of_pos hall,
          List.reverse_append, List.reverse_reverse, ← List.rtakeWhile, hds]
        simp
      · simp [after, Glyph.is, hc, hcolumn, Nat.add_assoc]

/-- Behind the first characters of a text stands the next of its glyphs. -/
theorem trueIn_behind {source : Text} {cs : List Char} {g : Glyph} {rest : List Glyph}
    (h : source.glyphs = cs.map .char ++ g :: rest) :
    (behind cs).TrueIn source ∧ Text.glyphs (source.drop (behind cs).offset) = g :: rest := by
  obtain ⟨more, rfl, hmore⟩ := Text.eq_ofChars_append h
  obtain ⟨hoffset, hline, ds, hds, hcolumn⟩ := behind_eq cs
  -- something is left of the text, so the place is within it
  have hne : more ≠ [] := by
    rintro rfl
    cases hmore
  refine ⟨⟨?_, ?_, ?_⟩, ?_⟩
  · rw [hoffset, List.length_append]
    have := List.length_pos_iff.mpr hne
    omega
  · rw [hoffset, List.take_left, hline]
  · rw [hoffset, List.take_left, hds, hcolumn, Text.count, Text.glyphs_ofChars, List.length_map]
  · rw [hoffset, List.drop_left, hmore]

end Location

/-! ## §2 Marks -/

/-- The error stands at a true place, and it is not about operator characters that start with no
operator. -/
structure LexError.Sound (source : Text) (e : LexError) : Prop where
  loc : e.loc.TrueIn source
  fault : ∀ rest, e.fault ≠ .unknownOperator rest

/-- The mark stands at a true place, and there the text goes on with its character unless it is
escaped. -/
structure Mark.StandsIn (source : Text) (m : Mark) : Prop where
  loc : m.loc.TrueIn source
  first : m.escaped = false →
    (Text.glyphs (source.drop m.loc.offset)).head? = some (.char m.char)

/-- The marks stand in the text, at or behind an offset and one behind the other. -/
structure Mark.StandFrom (source : Text) (offset : Nat) (marks : List Mark) : Prop where
  standsIn : ∀ m ∈ marks, m.StandsIn source
  from_le : ∀ m ∈ marks, offset ≤ m.loc.offset
  ordered : marks.Pairwise fun m n => m.loc.offset < n.loc.offset

namespace Mark

variable {source : Text}

theorem StandFrom.sublist {offset : Nat} {marks kept : List Mark}
    (h : StandFrom source offset marks) (hsub : kept.Sublist marks) :
    StandFrom source offset kept :=
  ⟨fun m hm => h.standsIn m (hsub.subset hm), fun m hm => h.from_le m (hsub.subset hm),
    h.ordered.sublist hsub⟩

theorem StandFrom.nil (offset : Nat) : StandFrom source offset [] :=
  ⟨by simp, by simp, .nil⟩

theorem StandFrom.cons {m : Mark} {offset : Nat} {marks : List Mark} (hm : m.StandsIn source)
    (hlt : m.loc.offset < offset) (h : StandFrom source offset marks) :
    StandFrom source m.loc.offset (m :: marks) := by
  refine ⟨List.forall_mem_cons.mpr ⟨hm, h.standsIn⟩,
    List.forall_mem_cons.mpr ⟨le_rfl, fun n hn => ?_⟩,
    List.pairwise_cons.mpr ⟨fun n hn => ?_, h.ordered⟩⟩
  · have := h.from_le n hn
    omega
  · have := h.from_le n hn
    omega

/-- What reading comes to is true of the text: marks that stand from an offset on, or an error. -/
def TruePlaces (source : Text) (offset : Nat) : Except LexError (List Mark) → Prop
  | .ok marks => StandFrom source offset marks
  | .error e => e.Sound source

theorem TruePlaces.cons {m : Mark} {offset : Nat} {rest : Except LexError (List Mark)}
    (hm : m.StandsIn source) (hlt : m.loc.offset < offset) (h : TruePlaces source offset rest) :
    TruePlaces source m.loc.offset (rest >>= fun more => .ok (m :: more)) := by
  cases rest with
  | ok marks => exact StandFrom.cons hm hlt h
  | error e => exact h

/-- Reading on behind the first characters of a text comes to true places. -/
theorem ofGlyphs_places {cs : List Char} {loc : Location} {gs : List Glyph}
    (hloc : loc = .behind cs) (hsource : source.glyphs = cs.map .char ++ gs) :
    TruePlaces source loc.offset (ofGlyphs loc gs) := by
  fun_induction ofGlyphs loc gs generalizing cs with
  | case1 loc => exact .nil _
  | case2 loc b gs =>
    subst hloc
    exact ⟨(Location.trueIn_behind hsource).1, fun _ h => by cases h⟩
  | case3 loc =>
    subst hloc
    exact ⟨(Location.trueIn_behind hsource).1, fun _ h => by cases h⟩
  | case4 loc next b =>
    -- the stray byte stands behind the backslash
    rename_i gs
    have hnext : next = .behind (cs ++ ['\\']) := by rw [Location.behind_concat, ← hloc]
    have hstray : source.glyphs = (cs ++ ['\\']).map .char ++ .stray b :: gs := by simp [hsource]
    have hbehind := (Location.trueIn_behind hstray).1
    rw [← hnext] at hbehind
    exact ⟨hbehind, fun _ h => by cases h⟩
  | case5 loc next c gs =>
    -- an escaped mark stands at its backslash
    rename_i ih
    have hnext : next.after (.char c) = .behind (cs ++ ['\\'] ++ [c]) := by
      rw [Location.behind_concat, Location.behind_concat, ← hloc]
    have hmark : (Mark.mk c true loc).StandsIn source := by
      subst hloc
      exact ⟨(Location.trueIn_behind hsource).1, fun he => by cases he⟩
    have hlt : loc.offset < (next.after (.char c)).offset :=
      (loc.offset_lt_after '\\').trans (next.offset_lt_after c)
    exact TruePlaces.cons hmark hlt (ih hnext (by rw [hsource]; simp))
  | case6 loc c gs _ ih =>
    have hnext : loc.after (.char c) = .behind (cs ++ [c]) := by
      rw [Location.behind_concat, ← hloc]
    have hmark : (Mark.mk c false loc).StandsIn source := by
      subst hloc
      obtain ⟨htrue, hglyphs⟩ := Location.trueIn_behind hsource
      exact ⟨htrue, fun _ => by rw [hglyphs]; rfl⟩
    exact TruePlaces.cons hmark (loc.offset_lt_after c) (ih hnext (by rw [hsource]; simp))

theorem ofText_places (source : Text) : TruePlaces source 0 (ofText source) :=
  have hstart : Location.start = .behind [] := rfl
  ofGlyphs_places hstart rfl

end Mark

/-! ## §3 Comments -/

/-- The place where a comment was opened, or may have been. -/
def CommentMode.opening? : CommentMode → Option Location
  | .slash s => some s.loc
  | .block opened | .blockStar opened => some opened
  | .code | .quoted _ | .line => none

theorem CommentMode.opening?_stepCode {m : Mark} {loc : Location}
    (h : (stepCode m).1.opening? = some loc) : loc = m.loc := by
  unfold stepCode at h
  split at h
  · cases h
  · split at h <;> cases h
    rfl

/-- A comment is opened at the place of a mark and stays there. -/
theorem CommentMode.opening?_step {mode : CommentMode} {m : Mark} {loc : Location}
    (h : (mode.step m).1.opening? = some loc) : mode.opening? = some loc ∨ loc = m.loc := by
  -- only code can be at the start of a comment, and a slash is held back in it
  cases mode with
  | code => exact .inr (opening?_stepCode h)
  | slash s =>
    simp only [step] at h
    split at h
    · cases h
    · split at h
      · exact .inl h
      · exact .inr (opening?_stepCode h)
  | quoted q => simp only [step] at h; split at h <;> cases h
  | line => simp only [step] at h; split at h <;> cases h
  | block opened => simp only [step] at h; split at h <;> exact .inl h
  | blockStar opened =>
    simp only [step] at h
    split at h
    · cases h
    · split at h <;> exact .inl h

/-- Comments cannot be removed only because a block comment is not closed, and the error stands
where it was opened. -/
theorem stripComments_error {mode : CommentMode} {marks : List Mark} {e : LexError}
    (h : stripComments mode marks = .error e) :
    e.fault = .openComment ∧ (mode.opening? = some e.loc ∨ ∃ m ∈ marks, e.loc = m.loc) := by
  induction marks generalizing mode with
  | nil =>
    -- only in a block comment is the end of the text an error
    cases mode with
    | block | blockStar =>
      cases h
      exact ⟨rfl, .inl rfl⟩
    | code | slash | quoted | line => cases h
  | cons m marks ih =>
    have hstep : stripComments (mode.step m).1 marks = .error e := by
      rw [stripComments] at h
      cases hrest : stripComments (mode.step m).1 marks with
      | ok more => simp only [hrest] at h; cases h
      | error e' => simp only [hrest] at h; exact h
    obtain ⟨hfault, hopening | ⟨n, hn, heq⟩⟩ := ih hstep
    · rcases CommentMode.opening?_step hopening with hopening | heq
      · exact ⟨hfault, .inl hopening⟩
      · exact ⟨hfault, .inr ⟨m, List.mem_cons_self, heq⟩⟩
    · exact ⟨hfault, .inr ⟨n, List.mem_cons_of_mem _ hn, heq⟩⟩

/-! ## §4 Tokens -/

/-- The token stands at a true place, and there the text goes on with what the token begins with:
the opening quote of a string, the first character of anything else. -/
structure Token.StandsIn (source : Text) (t : Token) : Prop where
  loc : t.loc.TrueIn source
  first : ∃ c, (Text.glyphs (source.drop t.loc.offset)).head? = some (.char c) ∧
    (t.lexeme.kind = .string → Mark.isQuoteChar c = true) ∧
    (t.lexeme.kind ≠ .string → t.lexeme.value.glyphs.head? = some (.char c))

/-- A lexeme stands where the mark stands that it begins with. -/
theorem Token.standsIn_of_beginsAt {source : Text} {t : Token} {m : Mark} (hm : m.StandsIn source)
    (h : t.lexeme.BeginsAt t.loc m) : t.StandsIn source := by
  refine ⟨h.place ▸ hm.loc, m.char, h.place ▸ hm.first h.plain, h.quote, fun hkind => ?_⟩
  obtain ⟨more, hvalue⟩ := h.first hkind
  rw [hvalue, Text.glyphs_ofChar_append]
  rfl

/-- Tokens that begin with marks of a text stand in it, one behind the other. -/
theorem Token.standsIn_of_standFrom {source : Text} {offset : Nat} {tokens : List Token}
    {starts : List Mark} (hstand : Mark.StandFrom source offset starts)
    (hbegin : List.Forall₂ (fun t m => t.lexeme.BeginsAt t.loc m) tokens starts) :
    (∀ t ∈ tokens, t.StandsIn source) ∧
      tokens.Pairwise fun t u => t.loc.offset < u.loc.offset := by
  have hboth : List.Forall₂ (fun t m => t.StandsIn source ∧ t.loc = m.loc) tokens starts :=
    (((List.forall₂_and_left _ _).mpr ⟨hstand.standsIn, hbegin.flip⟩).imp fun m t h =>
      ⟨standsIn_of_beginsAt h.1 h.2, h.2.place⟩).flip
  obtain ⟨hall, hplace⟩ := (List.forall₂_and_left _ _).mp hboth
  -- the tokens are at the places of the marks, which are in order
  have hlocs : tokens.map Token.loc = starts.map Mark.loc :=
    List.forall₂_eq_eq_eq ▸ List.forall₂_map_left_iff.mpr (List.forall₂_map_right_iff.mpr hplace)
  have hordered : (starts.map Mark.loc).Pairwise fun l m => l.offset < m.offset :=
    List.pairwise_map.mpr hstand.ordered
  rw [← hlocs, List.pairwise_map] at hordered
  exact ⟨hall, hordered⟩

/-- An operator begins with the same mark whatever its fixity is. -/
theorem Lexeme.BeginsAt.operator {op : Operator} {f : Fixity} {loc : Location} {m : Mark}
    (h : (Lexeme.operator op f).BeginsAt loc m) (g : Fixity) :
    (Lexeme.operator op g).BeginsAt loc m :=
  ⟨h.place, h.plain, fun hkind => (by cases hkind), fun _ => h.first (by simp [Lexeme.kind])⟩

/-- A mark that belongs to no lexeme is no operator. -/
theorem Mark.stray_ne (m : Mark) (rest : Text) : m.stray ≠ .unknownOperator rest := by
  unfold Mark.stray
  split <;> simp

/-- The tokens of a text begin with marks that stand in it, or the error does. -/
theorem tokenize_cases (source : Text) :
    (∃ tokens starts, tokenize source = .ok tokens ∧ Mark.StandFrom source 0 starts ∧
        List.Forall₂ (fun t m => t.lexeme.BeginsAt t.loc m) tokens starts) ∨
      ∃ e, tokenize source = .error e ∧ e.Sound source := by
  have hmarks := Mark.ofText_places source
  -- tokenizing fails in its first part, its second, or its third
  cases htext : Mark.ofText source with
  | error e =>
    rw [htext] at hmarks
    exact .inr ⟨e, by simp [tokenize, bind, Except.bind, htext], hmarks⟩
  | ok marks =>
    rw [htext] at hmarks
    have hstand : Mark.StandFrom source 0 marks := hmarks
    cases hkept : stripComments .code marks with
    | error e =>
      obtain ⟨hfault, hopening | ⟨m, hm, heq⟩⟩ := stripComments_error hkept
      · cases hopening
      · refine .inr ⟨e, by simp [tokenize, bind, Except.bind, htext, hkept], ?_, ?_⟩
        · rw [heq]
          exact (hstand.standsIn m hm).loc
        · simp [hfault]
    | ok kept =>
      have hsub : kept.Sublist marks := sublist_stripComments hkept
      rcases scanMarks_cases kept with ⟨ps, starts, hps, hstarts, hbegin⟩ | ⟨m, hm, fault, he, hf⟩
      · have htokens : tokenize source = .ok (numberFrom 0 (markLeading false ps)) :=
          bind_eq_ok.mpr ⟨marks, htext, bind_eq_ok.mpr ⟨kept, hkept, bind_eq_ok.mpr ⟨ps, hps, rfl⟩⟩⟩
        refine .inl ⟨_, starts, htokens, hstand.sublist (hstarts.trans hsub), ?_⟩
        have hmarked := forall₂_markLeading (fun _ _ g _ _ h => h.operator g) hbegin false
        exact forall₂_numberFrom hmarked 0
      · refine .inr ⟨⟨fault, m.loc⟩, by simp [tokenize, bind, Except.bind, htext, hkept, he],
          (hstand.standsIn m (hsub.subset hm)).loc, fun rest => ?_⟩
        rcases hf with rfl | rfl
        · exact m.stray_ne rest
        · simp

/-- **Places are true**: every token stands where its place says, and there the text goes on with
what the token begins with; the places of the tokens are in order; and an error stands where its
place says. -/
theorem tokenize_places (source : Text) :
    (∀ tokens, tokenize source = .ok tokens →
        (∀ t ∈ tokens, t.StandsIn source) ∧
          tokens.Pairwise fun t u => t.loc.offset < u.loc.offset) ∧
      ∀ e, tokenize source = .error e → e.loc.TrueIn source := by
  rcases tokenize_cases source with ⟨tokens, starts, htokens, hstand, hbegin⟩ | ⟨e, he, hsound⟩
  · refine ⟨fun tokens' h => ?_, fun e he => ?_⟩
    · obtain rfl : tokens = tokens' := Except.ok.inj (htokens.symm.trans h)
      exact Token.standsIn_of_standFrom hstand hbegin
    · rw [htokens] at he
      cases he
  · refine ⟨fun tokens h => ?_, fun e' h => ?_⟩
    · rw [he] at h
      cases h
    · obtain rfl : e = e' := Except.error.inj (he.symm.trans h)
      exact hsound.loc

/-- Behind a string over two lines and a comment over two lines every token stands where its place
says, and so does the error about a character behind them that belongs to no token. -/
theorem tokenize_places_lines :
    let source : Text := "'né\n' /* ü\n */ x ++\ny"
    let stray : Text := source ++ " é"
    (∃ tokens, tokenize source = .ok tokens ∧ (∀ t ∈ tokens, t.StandsIn source) ∧
        tokens.Pairwise fun t u => t.loc.offset < u.loc.offset) ∧
      ∃ e, tokenize stray = .error e ∧ e.loc.TrueIn stray := by
  intro source stray
  obtain ⟨tokens, htokens⟩ := exists_eq_ok (show (tokenize source).isOk = true by decide +kernel)
  obtain ⟨e, he⟩ := exists_eq_error (show (tokenize stray).isOk = false by decide +kernel)
  exact ⟨⟨tokens, htokens, (tokenize_places source).1 tokens htokens⟩,
    e, he, (tokenize_places stray).2 e he⟩

end Scriptlet
