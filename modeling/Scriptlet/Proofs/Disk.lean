import Scriptlet.Command.Perform

/-!
# What a failed command leaves on the disk

A listing goes to a file that is emptied before the first line is emitted. So a failure before that,
and with it every error of the source, leaves all files as they were. An error of the emission comes
too late: the file then holds what had filled whole buffers, as far as there was room for it. So do
those of the file itself, which may be full, or say when it is closed that something went wrong.

## Contents

- §1 disks after a write
- §2 buffered listings
- §3 commands that only look
- §4 targets
- §5 failed assemblies
-/

namespace Scriptlet

/-! ## §1 Disks after a write -/

namespace Disk

theorem not_isUnder_self (p : Place) : p.isUnder p = false := by
  unfold Place.isUnder
  simp

/-- A file makes directories of the places above it, and takes none away. -/
theorem isDirectory_put (d : Disk) (place q : Place) (contents : Text) :
    (d.put place contents).isDirectory q = (d.isDirectory q || place.isUnder q) := by
  have hfiles :
      ((d.put place contents).files.any fun file => file.1.isUnder q)
        = ((d.files.any fun file => file.1.isUnder q) || place.isUnder q) := by
    rw [Bool.eq_iff_iff]
    simp only [put, List.any_cons, List.any_filter, Bool.or_eq_true, List.any_eq_true,
      Bool.and_eq_true, bne_iff_ne]
    -- a file that is replaced stood at the same place, below the same directories
    constructor
    · rintro (h | ⟨file, hmem, -, h⟩)
      · exact .inr h
      · exact .inl ⟨file, hmem, h⟩
    · rintro (⟨file, hmem, h⟩ | h)
      · by_cases hplace : file.1 = place
        · exact .inl (hplace ▸ h)
        · exact .inr ⟨file, hmem, hplace, h⟩
      · exact .inl h
  show (q.names.isEmpty || q.isStandard ||
    (d.put place contents).files.any fun file => file.1.isUnder q) = _
  rw [hfiles, ← Bool.or_assoc]
  rfl

/-- What can be followed can still be followed when there are more directories. -/
theorem follow_mono {d d' : Disk} (h : ∀ q, d.isDirectory q = true → d'.isDirectory q = true)
    {start place : Place} {components : List Text} (hfollow : d.follow start components = .ok place) :
    d'.follow start components = .ok place := by
  -- what a component does depends on the disk only in that its start is a directory
  induction components generalizing start with
  | nil => exact hfollow
  | cons c rest ih =>
    unfold follow at hfollow ⊢
    by_cases hdir : d.isDirectory start = true
    · rw [if_neg (by simp [hdir])] at hfollow
      rw [if_neg (by simp [h start hdir])]
      by_cases hdot : c = [] ∨ c = "."
      · rw [if_pos hdot] at hfollow ⊢
        exact ih hfollow
      rw [if_neg hdot] at hfollow ⊢
      by_cases hup : c = ".."
      · rw [if_pos hup] at hfollow ⊢
        exact ih hfollow
      rw [if_neg hup] at hfollow ⊢
      by_cases hlong : c.length > nameLimit
      · rw [if_pos hlong] at hfollow
        cases hfollow
      rw [if_neg hlong] at hfollow ⊢
      exact ih hfollow
    · rw [if_pos (by simp [hdir])] at hfollow
      cases hfollow

/-- A path leads where it led, on a disk with more directories. -/
theorem locate_mono {d d' : Disk} (h : ∀ q, d.isDirectory q = true → d'.isDirectory q = true)
    {path : Text} {place : Place} (hlocate : d.locate path = .ok place) :
    d'.locate path = .ok place := by
  unfold locate at hlocate ⊢
  -- the checks before the first component do not look at the disk
  by_cases hzero : path.contains 0 = true
  · rw [if_pos hzero] at hlocate
    cases hlocate
  rw [if_neg hzero] at hlocate ⊢
  by_cases hempty : path.isEmpty = true
  · rw [if_pos hempty] at hlocate
    cases hlocate
  rw [if_neg hempty] at hlocate ⊢
  by_cases hlong : path.length ≥ pathLimit
  · rw [if_pos hlong] at hlocate
    cases hlocate
  rw [if_neg hlong] at hlocate ⊢
  exact follow_mono h hlocate

/-- Of two contents put in one place, the later stays. -/
theorem put_put (d : Disk) (place : Place) (contents contents' : Text) :
    (d.put place contents).put place contents' = d.put place contents' := by
  simp [put, List.filter_filter]

/-- What a write that is not refused does. -/
theorem write_eq_ok {d d' : Disk} {path contents : Text} (h : d.write path contents = .ok d') :
    ∃ place, d.locate (Path.withoutLastSlashes path) = .ok place ∧
      (d.isDirectory place || Path.endsInSlash path) = false ∧ d' = d.put place contents := by
  unfold write at h
  -- a write is refused because of its place, or because a directory is there
  split at h
  · cases h
  · rename_i place hplace
    split at h
    · cases h
    · rename_i hfile
      cases h
      exact ⟨place, hplace, Bool.eq_false_iff.mpr hfile, rfl⟩

/-- Whether a write is refused does not depend on the text. -/
theorem write_again {d d' : Disk} {path contents : Text} (h : d.write path contents = .ok d')
    (contents' : Text) : ∃ d'', d.write path contents' = .ok d'' := by
  obtain ⟨place, hplace, hfile, -⟩ := write_eq_ok h
  refine ⟨d.put place contents', ?_⟩
  unfold write
  simp only [hplace, hfile, Bool.false_eq_true, if_false]

/-- Behind a write, another to the same path does what it had done before: only the last contents
stay. -/
theorem write_write {d d' : Disk} {path contents : Text} (h : d.write path contents = .ok d')
    (contents' : Text) : d'.write path contents' = d.write path contents' := by
  obtain ⟨place, hplace, hfile, rfl⟩ := write_eq_ok h
  have hplace' : (d.put place contents).locate (Path.withoutLastSlashes path) = .ok place := by
    refine locate_mono (fun q hq => ?_) hplace
    rw [isDirectory_put, hq, Bool.true_or]
  have hfile' : ((d.put place contents).isDirectory place || Path.endsInSlash path) = false := by
    rw [isDirectory_put, not_isUnder_self, Bool.or_false, hfile]
  unfold write
  simp only [hplace, hplace', hfile, hfile', Bool.false_eq_true, if_false, put_put]

/-- A file that was put is read back, except from the null device. -/
theorem file?_put_self (d : Disk) {place : Place} (h : place ≠ .null) (contents : Text) :
    (d.put place contents).file? place = some contents := by
  simp [file?, h, put]

/-- Other files stay as they are. -/
theorem file?_put_other (d : Disk) {place q : Place} (h : q ≠ place) (contents : Text) :
    (d.put place contents).file? q = d.file? q := by
  have hlookup : ∀ files : List (Place × Text),
      (files.filter fun file => file.1 != place).lookup q = files.lookup q := by
    -- the file at another place is found behind those that are taken out
    intro files
    induction files with
    | nil => rfl
    | cons file files ih =>
      obtain ⟨p, contents⟩ := file
      by_cases hp : p = place
      · have hq : (q == p) = false := by simp [hp, h]
        simp [hp, List.lookup_cons, hp ▸ hq, ih]
      · simp [hp, List.lookup_cons, ih]
  have hfiles : (d.put place contents).files =
      (place, contents) :: d.files.filter fun file => file.1 != place := rfl
  have hq : (q == place) = false := by simp [h]
  simp [file?, hfiles, List.lookup_cons, hq, hlookup]

theorem medium_put (d : Disk) (place : Place) (contents : Text) :
    (d.put place contents).medium = d.medium := rfl

/-- A file that is opened for a text is the one that the text then goes to. -/
theorem mediumAt_of_write {d d' : Disk} {path contents : Text}
    (h : d.write path contents = .ok d') : d'.mediumAt path = d.mediumAt path := by
  obtain ⟨place, hplace, -, rfl⟩ := write_eq_ok h
  have hplace' : (d.put place contents).locate (Path.withoutLastSlashes path) = .ok place := by
    refine locate_mono (fun q hq => ?_) hplace
    rw [isDirectory_put, hq, Bool.true_or]
  simp only [mediumAt, hplace, hplace', medium_put]

end Disk

/-- What there is no room for is missing at the end. -/
theorem Medium.fitting_prefix (m : Medium) (t : Text) : m.fitting t <+: t := by
  unfold fitting
  split
  · exact List.take_prefix _ t
  · exact List.prefix_refl t

/-- Where there is room, a text fits whole. -/
theorem Medium.fitting_of_room {m : Medium} (h : m.room = none) (t : Text) : m.fitting t = t := by
  simp [fitting, h]

/-- The disk `d'` is `d` with a text as the contents of the file at a path. The null device swallows
the text. -/
structure Disk.Replaced (d : Disk) (path text : Text) (d' : Disk) : Prop where
  written : d.write path text = .ok d'
  contents : ∃ place, d.locate (Path.withoutLastSlashes path) = .ok place ∧
    (place ≠ .null → d'.file? place = some text) ∧ ∀ q, q ≠ place → d'.file? q = d.file? q

/-- A write that succeeds has replaced the file. -/
theorem Disk.replaced_of_write {d d' : Disk} {path text : Text} (h : d.write path text = .ok d') :
    d.Replaced path text d' := by
  refine ⟨h, ?_⟩
  obtain ⟨place, hplace, -, rfl⟩ := write_eq_ok h
  exact ⟨place, hplace, fun hnull => d.file?_put_self hnull text,
    fun q hq => d.file?_put_other hq text⟩

/-! ## §2 Buffered listings -/

namespace Assembly

/-- A text went into the buffer, which stands in front of a sink that takes everything. -/
structure Buffered.Took (b : Buffered) (t : Text) : Prop where
  unlimited : b.sink.limit = none
  accepted : b.refusal = none
  text : b.sink.contents ++ b.pending = t
  fits : b.pending.length ≤ bufferSize

namespace Buffered

variable {b : Buffered} {t : Text}

theorem took_nothing : Took ⟨[], .unlimited, none⟩ [] := ⟨rfl, rfl, rfl, Nat.zero_le _⟩

/-- What is written past an empty buffer is taken behind what was. -/
theorem Took.direct (h : b.Took t) (hpending : b.pending = []) (u : Text) :
    (b.direct u).Took (t ++ u) := by
  have hwrite := Sink.write_of_unlimited h.unlimited u
  have htext : b.sink.contents = t := by simpa [hpending] using h.text
  unfold Buffered.direct
  rw [hwrite]
  refine ⟨(Sink.limit_write hwrite).trans h.unlimited, h.accepted, ?_, h.fits⟩
  simp only [Sink.contents_write hwrite, hpending, List.append_nil, htext]

/-- Flushing takes what was pending, and nothing more. -/
theorem Took.flush (h : b.Took t) : b.flush.Took t ∧ b.flush.pending = [] := by
  unfold Buffered.flush
  by_cases hpending : b.pending = []
  · rw [if_pos (by simp [hpending])]
    exact ⟨h, hpending⟩
  have hwrite := Sink.write_of_unlimited h.unlimited b.pending
  rw [if_neg (by simp [h.accepted, hpending])]
  unfold Buffered.direct
  rw [hwrite]
  refine ⟨⟨(Sink.limit_write hwrite).trans h.unlimited, h.accepted, ?_, Nat.zero_le _⟩, rfl⟩
  simp only [Sink.contents_write hwrite, List.append_nil, h.text]

/-- Nothing of a line is lost, and what waits afterwards fits into the buffer again. -/
theorem Took.put (h : b.Took t) (u : Text) : (b.put u).Took (t ++ u) := by
  unfold Buffered.put
  rw [if_neg (by simp [h.accepted])]
  have hfits := h.fits
  simp only
  split
  · -- the line fits behind what waits
    rename_i hroom
    refine ⟨h.unlimited, h.accepted, ?_, ?_⟩
    · rw [← List.append_assoc, h.text]
    · rw [List.length_append]
      omega
  split
  · rename_i hempty
    exact h.direct (List.isEmpty_iff.mp hempty) u
  -- a part of the line fills the buffer, which is written out
  generalize hroom : bufferSize - b.pending.length = room
  have hfull : Took { b with pending := b.pending ++ u.take room } (t ++ u.take room) := by
    refine ⟨h.unlimited, h.accepted, ?_, ?_⟩
    · rw [← List.append_assoc, h.text]
    · have htake := List.length_take_le room u
      rw [List.length_append]
      omega
  obtain ⟨hflushed, hpending⟩ := hfull.flush
  rw [if_neg (by simp [hflushed.accepted])]
  have hjoin : t ++ u.take room ++ u.drop room = t ++ u := by
    rw [List.append_assoc, List.take_append_drop]
  rw [← hjoin]
  split
  · rename_i hrest
    have htext := hflushed.text
    rw [hpending, List.append_nil] at htext
    exact ⟨hflushed.unlimited, hflushed.accepted, by simp only [htext], hrest⟩
  · exact hflushed.direct hpending _

/-- Writing the lines of code takes its listing. -/
theorem Took.foldl (code : List Line) (h : b.Took t) :
    (code.foldl (fun b l => b.put l.text) b).Took (t ++ listing code) := by
  induction code generalizing b t with
  | nil => simpa [listing] using h
  | cons l code ih =>
    have hrest := ih (h.put l.text)
    rw [List.append_assoc] at hrest
    simpa [listing] using hrest

end Buffered

/-- What the listing of a node leaves in a new file, whether it is complete or not. -/
def written (x : Node) : Text := (write x .unlimited).1.contents

/-- A listing is never refused by a sink that takes everything. -/
theorem write_unlimited (x : Node) :
    (write x .unlimited).2 =
      match (emitTop x).result with
      | .error e => .error (.emission e)
      | .ok _ => .ok () := by
  have htook := Buffered.took_nothing.foldl (emitTop x).code
  unfold write
  -- without a limit the flush takes everything
  cases hresult : (emitTop x).result with
  | error e => simp only [hresult]
  | ok r =>
    have hflushed := htook.flush.1.accepted
    simp only [hresult, hflushed]

/-- A listing that fails in the emission has failed in that of the code. -/
theorem emitTop_of_write {x : Node} {sink : Sink} {e : EmitError}
    (h : (write x sink).2 = .error (.emission e)) : (emitTop x).result = .error e := by
  unfold write at h
  -- the flush comes after the emission, so its complaint is another one
  cases hresult : (emitTop x).result with
  | error e' =>
    simp only [hresult, Except.error.injEq, OutputError.emission.injEq] at h
    rw [h]
  | ok r =>
    simp only [hresult] at h
    split at h
    · cases h
    · cases h

/-- At most a whole buffer is missing behind what was written. -/
theorem written_of_error {x : Node} {e : EmitError} (h : (emitTop x).result = .error e) :
    ∃ pending, listing (emitTop x).code = written x ++ pending ∧ pending.length ≤ bufferSize := by
  have htook := Buffered.took_nothing.foldl (emitTop x).code
  have htext := htook.text
  rw [List.nil_append] at htext
  refine ⟨_, ?_, htook.fits⟩
  rw [← htext]
  unfold written write
  simp only [h]

end Assembly

/-! ## §3 Commands that only look -/

namespace Command

/-- Carries out an action in a world. -/
def inWorld {α : Type} (x : ExceptT Failure (StateM World) α) (w : World) :
    Except Failure α × World := x.run.run w

section Actions

variable {α β : Type}

/-- A sequence in a world, with the world that its first part leaves. -/
theorem inWorld_bind (x : ExceptT Failure (StateM World) α)
    (f : α → ExceptT Failure (StateM World) β) (w : World) :
    inWorld (x >>= f) w =
      match inWorld x w with
      | (.ok a, w') => inWorld (f a) w'
      | (.error e, w') => (.error e, w') := by
  unfold inWorld
  rw [ExceptT.run_bind, StateT.run_bind]
  cases h : x.run.run w with
  | mk r w' =>
    cases r with
    | ok a => rfl
    | error e => rfl

/-- A sequence fails in its first part, or in its second after the first. -/
theorem inWorld_bind_error {x : ExceptT Failure (StateM World) α}
    {f : α → ExceptT Failure (StateM World) β} {w w' : World} {e : Failure}
    (h : inWorld (x >>= f) w = (.error e, w')) :
    inWorld x w = (.error e, w') ∨
      ∃ a w₁, inWorld x w = (.ok a, w₁) ∧ inWorld (f a) w₁ = (.error e, w') := by
  rw [inWorld_bind] at h
  -- a computation is a result and the world that it leaves
  cases hx : inWorld x w with
  | mk r w₁ =>
    rw [hx] at h
    cases r with
    | ok a => exact .inr ⟨a, w₁, rfl, h⟩
    | error e' =>
      cases h
      exact .inl rfl

/-- The action leaves the disk as it is, and when it fails, that is not for want of code. -/
structure Looks (x : ExceptT Failure (StateM World) α) : Prop where
  disk : ∀ w, (inWorld x w).2.disk = w.disk
  cause : ∀ w f e, (inWorld x w).1 = .error f → f.cause ≠ .emission e

namespace Looks

variable {x : ExceptT Failure (StateM World) α} {f : α → ExceptT Failure (StateM World) β}

/-- What only looks at a world leaves the disk as it is. -/
theorem disk_eq (hx : Looks x) {w w' : World} {r : Except Failure α}
    (h : inWorld x w = (r, w')) : w'.disk = w.disk := by
  have hdisk := hx.disk w
  rwa [h] at hdisk

/-- What only looks fails with no error of the emission, and leaves the disk as it is. -/
theorem of_error (hx : Looks x) {w w' : World} {failure : Failure}
    (h : inWorld x w = (.error failure, w')) :
    (∀ e, failure.cause ≠ .emission e) ∧ w'.disk = w.disk :=
  ⟨fun e => hx.cause w failure e (by rw [h]), hx.disk_eq h⟩

theorem pure (a : α) : Looks (pure a : ExceptT Failure (StateM World) α) :=
  ⟨fun _ => rfl, fun _ _ _ h => nomatch h⟩

/-- What only looks, one part after the other, only looks. -/
theorem bind (hx : Looks x) (hf : ∀ a, Looks (f a)) : Looks (x >>= f) := by
  -- the second is run in the world of the first, and only if that had a result
  constructor
  · intro w
    have hdisk := hx.disk w
    rw [inWorld_bind]
    match hw : inWorld x w, hdisk with
    | (.ok a, w'), hdisk => exact ((hf a).disk w').trans hdisk
    | (.error _, w'), hdisk => exact hdisk
  · intro w failure e h
    have hcause := hx.cause w failure e
    rw [inWorld_bind] at h
    match hw : inWorld x w, hcause, h with
    | (.ok a, w'), _, h => exact (hf a).cause w' failure e h
    | (.error _, _), hcause, h => exact hcause (congrArg _ (Except.error.inj h))

/-- One of two actions and then the same goes on. -/
theorem bind_ite {c : Prop} [Decidable c] {y : ExceptT Failure (StateM World) α} (hx : Looks x)
    (hy : Looks y) (hf : ∀ a, Looks (f a)) : Looks (if c then x >>= f else y >>= f) := by
  split
  · exact hx.bind hf
  · exact hy.bind hf

/-- What leaves the disk as it is, only looks. -/
theorem lift {y : StateM World α} (h : ∀ w, (y.run w).2.disk = w.disk) :
    Looks (ExceptT.lift y) :=
  ⟨h, fun _ _ _ hw => nomatch hw⟩

/-- Settling a result only looks, when its errors are none of the emission. -/
theorem settle {ε : Type} {wrap : ε → Failure} (h : ∀ e e', (wrap e).cause ≠ .emission e')
    (r : Except ε α) : Looks (settle wrap r : ExceptT Failure (StateM World) α) := by
  cases r with
  | ok a => exact .pure a
  | error e =>
    refine ⟨fun _ => rfl, fun _ f e' hw => ?_⟩
    cases hw
    exact h e e'

theorem valueOf (name : Text) :
    Looks (Host.valueOf name : ExceptT Failure (StateM World) Text) := lift fun _ => rfl

theorem presence (path : Text) :
    Looks (Host.presence path : ExceptT Failure (StateM World) Presence) := lift fun _ => rfl

theorem readFile (path : Text) :
    Looks (Host.readFile path : ExceptT Failure (StateM World) (Except PathError Text)) :=
  lift fun _ => rfl

theorem input : Looks (Host.input : ExceptT Failure (StateM World) Input) := lift fun _ => rfl

theorem log (s : Setup) (r : Log.Record) :
    Looks (log s r : ExceptT Failure (StateM World) Unit) :=
  ⟨fun _ => rfl, fun _ _ _ h => nomatch h⟩

/-- What only looks for each member of a list, only looks. -/
theorem mapM (hf : ∀ a, Looks (f a)) (as : List α) : Looks (as.mapM f) := by
  induction as with
  | nil =>
    rw [List.mapM_nil]
    exact .pure []
  | cons a as ih =>
    rw [List.mapM_cons]
    exact (hf a).bind fun b => ih.bind fun bs => .pure (b :: bs)

/-! Finding settings looks at variables and files. -/

/-- Variables are expanded by looking. -/
theorem expand (t : Text) :
    Looks (Expansion.expand Host.valueOf t : ExceptT Failure (StateM World) Text) := by
  unfold Expansion.expand
  refine .bind (.mapM (fun segment => ?_) _) fun parts => .pure _
  cases segment with
  | byte b => exact .pure [b]
  | «variable» name => exact .valueOf name

theorem decode (t : Text) :
    Looks (Settings.decode t : ExceptT Failure (StateM World) (Except SettingsError Settings)) := by
  unfold Settings.decode
  split
  · exact .pure _
  · unfold Settings.home Settings.expanded
    exact .bind (.valueOf _) fun home =>
      .bind (.bind (.expand _) fun history => .bind (.expand _) fun output => .pure _)
        fun s => .pure _

/-- Settings are loaded by looking. -/
theorem load (path : Text) :
    Looks (Settings.load path : ExceptT Failure (StateM World) (Except SettingsError Settings)) := by
  unfold Settings.load
  refine .bind (.expand path) fun path => .bind (.presence path) fun presence => ?_
  cases presence with
  | absent => exact .pure _
  | present | blocked =>
    refine .bind (.readFile path) fun contents => ?_
    cases contents with
    | error e => exact .pure _
    | ok t => exact .bind (.decode t) fun r => .pure _

/-- The first settings that are there are found by looking. -/
theorem loadFirst (paths : List Text) :
    Looks (Settings.loadFirst paths :
      ExceptT Failure (StateM World) (Except SettingsError Settings)) := by
  induction paths with
  | nil => exact .bind (.bind (.valueOf _) fun home => .pure _) fun s => .pure _
  | cons path rest ih =>
    refine .bind (.presence path) fun presence => ?_
    cases presence with
    | present => exact .load path
    | absent => exact ih
    | blocked => exact ih

theorem find :
    Looks (Settings.find : ExceptT Failure (StateM World) (Except SettingsError Settings)) := by
  unfold Settings.find
  refine .bind (.valueOf _) fun path => ?_
  split
  · exact .bind (.valueOf _) fun home => .loadFirst _
  · exact .load path

theorem settingsFor (o : Options) :
    Looks (settingsFor o : ExceptT Failure (StateM World) Settings) := by
  have hcause : ∀ e e', (Failure.settings e).cause ≠ .emission e' := by
    intro e e' h
    cases h
  unfold Command.settingsFor
  exact .bind_ite .find (.load _) fun found => .bind (.settle hcause found) fun s =>
    .bind_ite (.pure s) (.settle hcause _) fun s => .pure _

/-- A command is set up by looking. -/
theorem prepare (o : Options) : Looks (prepare o : ExceptT Failure (StateM World) Setup) := by
  unfold Command.prepare
  exact .bind (.settingsFor o) fun s => .bind (.log _ _) fun _ => .pure _

/-! So does reading a source. -/

/-- The source is read by looking. -/
theorem readSource (s : Setup) : Looks (readSource s : ExceptT Failure (StateM World) Source) := by
  have hinput : Looks (do
      let text ← Command.settle (fun c => .within "read stdin" (.unreadable c)) (← Host.input).whole
      return ⟨"<stdin>", text⟩ : ExceptT Failure (StateM World) Source) := by
    refine .bind .input fun i => .bind (.settle (fun e e' h => ?_) _) fun text => .pure _
    cases h
  unfold Command.readSource
  -- the source is the standard input or a file, and neither is written to
  simp only
  split
  · exact hinput
  · split
    · exact hinput
    · refine .bind (.readFile _) fun r => .bind (.settle (fun e e' h => ?_) _) fun text => .pure _
      cases h

/-- The program is read by looking. -/
theorem readNamedProgram (s : Setup) :
    Looks (readNamedProgram s : ExceptT Failure (StateM World) (Text × Program)) := by
  unfold Command.readNamedProgram
  refine .bind (.readSource s) fun src => .bind (.settle (fun e e' h => ?_) _) fun p =>
    .bind (.log _ _) fun _ => .pure _
  cases h

end Looks

end Actions

/-! ## §4 Targets -/

/-- The path stands for the standard output. -/
def isStandard (path : Text) : Bool := path.isEmpty || path = "-"

/-- The standard output needs no opening. -/
theorem inWorld_openTarget_standard {path : Text} (h : isStandard path = true) (w : World) :
    inWorld (openTarget path) w = (.ok .standard, w) := by
  unfold isStandard at h
  unfold openTarget
  rw [if_pos h]
  rfl

/-- A file that is created is empty, if it can be created. -/
theorem run_createFile (path : Text) (w : World) :
    (Host.createFile path : StateM World _).run w =
      match w.disk.write path [] with
      | .ok disk => (.ok (), { w with disk := disk })
      | .error e => (.error e, w) := by
  cases hwrite : w.disk.write path [] with
  | ok disk => simp [Host.createFile, hwrite]; rfl
  | error e => simp [Host.createFile, hwrite]; rfl

/-- A file for output is emptied when it is opened, unless it cannot be written. -/
theorem inWorld_openTarget_file {path : Text} (h : isStandard path = false) (w : World) :
    inWorld (openTarget path) w =
      match w.disk.write path [] with
      | .ok disk => (.ok (.file path), { w with disk := disk })
      | .error e => (.error (.path e), w) := by
  unfold isStandard at h
  unfold openTarget
  -- opening truncates the file, or is refused with the world unchanged
  rw [if_neg (Bool.not_eq_true _ ▸ h), inWorld_bind]
  have hcreate : inWorld (Host.createFile path) w =
      (.ok ((Host.createFile path : StateM World _).run w).1,
        ((Host.createFile path : StateM World _).run w).2) := rfl
  rw [hcreate, run_createFile]
  cases w.disk.write path [] with
  | ok disk => rfl
  | error e => rfl

/-- Only what is written decides whether writing to the standard output fails; files stay. -/
theorem inWorld_writeTo_standard (write : Sink → Sink × Except Failure Unit) (w : World) :
    inWorld (writeTo .standard write) w =
      ((write w.output).2, { w with output := (write w.output).1 }) := by
  unfold writeTo
  simp only [inWorld_bind]
  show inWorld (settle id (write w.output).2) _ = _
  cases (write w.output).2 with
  | ok r => rfl
  | error e => rfl

/-- What is written to a file is filled into it, whatever the write ends with. -/
theorem inWorld_writeTo_file (path : Text) (write : Sink → Sink × Except Failure Unit)
    (w : World) :
    inWorld (writeTo (.file path) write) w =
      let filled := w.fill path (write .unlimited).1.contents
      (match (write .unlimited).2 with
        | .ok _ => filled.1.mapError .path
        | .error e => .error e,
        filled.2) := by
  unfold writeTo
  simp only [inWorld_bind]
  have hfill : inWorld (Host.fillFile path (write .unlimited).1.contents) w =
      (.ok (w.fill path (write .unlimited).1.contents).1,
        (w.fill path (write .unlimited).1.contents).2) := rfl
  rw [hfill]
  cases (write .unlimited).2 with
  | error e => rfl
  | ok r =>
    show inWorld (settle .path (w.fill path (write .unlimited).1.contents).1) _ = _
    cases (w.fill path (write .unlimited).1.contents).1 with
    | ok r => rfl
    | error e => rfl

/-- A file that was opened takes a text as far as there is room, and says so if there is too
little. -/
theorem fill_of_opened {before : Disk} {w : World} {path : Text}
    (hopen : before.write path [] = .ok w.disk) (contents : Text) :
    ∃ disk, before.write path ((before.mediumAt path).fitting contents) = .ok disk ∧
      w.fill path contents =
        (if (before.mediumAt path).fits contents then .ok () else .error ⟨.writing, path, .full⟩,
          { w with disk := disk }) := by
  obtain ⟨disk, hwrite⟩ := Disk.write_again hopen ((before.mediumAt path).fitting contents)
  refine ⟨disk, hwrite, ?_⟩
  simp only [World.fill, Disk.mediumAt_of_write hopen, Disk.write_write hopen, hwrite]

/-- Closing changes no file. -/
theorem inWorld_closeTarget (target : Target) (w : World) :
    inWorld (closeTarget target) w = (.ok (), w) ∨
      ∃ e : PathError, e.action = .closing ∧
        inWorld (closeTarget target) w = (.error (.path e), w) := by
  cases target with
  | standard => exact .inl rfl
  | file path =>
    have hclose : inWorld (closeTarget (.file path)) w =
        inWorld (settle .path (w.close path)) w := by
      unfold closeTarget
      rw [inWorld_bind]
      rfl
    rw [hclose, World.close]
    cases (w.disk.mediumAt path).fault with
    | none => exact .inl rfl
    | some fault => exact .inr ⟨_, rfl, rfl⟩

/-- Naming the errors of an action changes nothing else. -/
theorem inWorld_adapt {α : Type} (g : Failure → Failure) (x : ExceptT Failure (StateM World) α)
    (w : World) :
    inWorld (ExceptT.adapt g x) w = ((inWorld x w).1.mapError g, (inWorld x w).2) := by
  unfold inWorld ExceptT.adapt
  rfl

/-! ## §5 Failed assemblies -/

/-- The path that a listing goes to. -/
def Setup.listingPath (s : Setup) : Text :=
  if s.options.output.isEmpty then s.settings.output else s.options.output

/-- Writes the listing of a node to a target that was opened. -/
def writeListing (target : Target) (name : Text) (x : Node) :
    ExceptT Failure (StateM World) Unit :=
  ExceptT.adapt (Failure.within name) <| writeTo target fun sink =>
    let (sink, result) := Assembly.write x sink
    (sink, result.mapError .ofOutput)

/-- Writing a listing: the program is read, the target opened, written to and closed. -/
theorem performAsm_eq (s : Setup) :
    performAsm s = (do
      let (name, p) ← readNamedProgram s
      let target ← openTarget s.listingPath
      writeListing target name p.toNode
      log s ⟨.debug, "assembly written", [("file", .text name), ("output", .text s.listingPath)]⟩
      closeTarget target : ExceptT Failure (StateM World) Unit) := rfl

/-- The file for output was open when the failure came, and is the reason for it: there was no room
for what was written, or the file could not be closed. -/
def IsOfOpenFile (f : Failure) : Prop :=
  ∃ e : PathError, f.cause = .path e ∧ (e.action = .writing ∨ e.action = .closing)

/-- The emission of a node ended with an error, and the disk with it: a file for the listing holds
the start of what was emitted, up to a whole buffer before the error, and less only if there is no
room for it. -/
structure Cut (path : Text) (x : Node) (e : Assembly.EmitError) (before after : Disk) : Prop where
  emission : (Assembly.emitTop x).result = .error e
  standard : isStandard path = true → after = before
  file : isStandard path = false → ∃ held,
    held <+: Assembly.written x ∧
      ((before.mediumAt path).room = none → held = Assembly.written x) ∧
      before.Replaced path held after
  start : ∃ pending,
    Assembly.listing (Assembly.emitTop x).code = Assembly.written x ++ pending ∧
      pending.length ≤ Assembly.bufferSize

/-- A listing for the standard output leaves all files alone. -/
theorem writeListing_standard_error {name : Text} {x : Node} {w w' : World} {f : Failure}
    (h : inWorld (writeListing .standard name x) w = (.error f, w')) :
    w'.disk = w.disk ∧ ∀ e, f.cause = .emission e → (Assembly.emitTop x).result = .error e := by
  simp only [writeListing, inWorld_adapt, inWorld_writeTo_standard, Prod.mk.injEq] at h
  obtain ⟨hresult, rfl⟩ := h
  refine ⟨rfl, fun e he => ?_⟩
  cases houtput : (Assembly.write x w.output).2 with
  | ok r =>
    rw [houtput] at hresult
    cases hresult
  | error e' =>
    rw [houtput] at hresult
    cases hresult
    cases e' with
    | refused complaint => cases he
    | emission e' =>
      cases he
      exact Assembly.emitTop_of_write houtput

/-- A listing for a file that was opened fails for want of room, or because the node has no code. -/
theorem writeListing_file_error {path name : Text} {x : Node} {before : Disk} {w w' : World}
    {f : Failure} (hstandard : isStandard path = false)
    (hopen : before.write path [] = .ok w.disk)
    (h : inWorld (writeListing (.file path) name x) w = (.error f, w')) :
    IsOfOpenFile f ∨ ∃ e, f.cause = .emission e ∧ Cut path x e before w'.disk := by
  obtain ⟨disk, hdisk, hfill⟩ := fill_of_opened hopen (Assembly.written x)
  simp only [writeListing, inWorld_adapt, inWorld_writeTo_file, Assembly.write_unlimited,
    Prod.mk.injEq] at h
  obtain ⟨hresult, rfl⟩ := h
  rw [show (Assembly.write x .unlimited).1.contents = Assembly.written x from rfl, hfill] at *
  cases hemission : (Assembly.emitTop x).result with
  | ok r =>
    rw [hemission] at hresult
    -- the emission went well, so the file has no room
    cases hfits : (before.mediumAt path).fits (Assembly.written x) with
    | true =>
      rw [hfits] at hresult
      cases hresult
    | false =>
      rw [hfits] at hresult
      cases hresult
      exact .inl ⟨_, rfl, .inl rfl⟩
  | error e =>
    rw [hemission] at hresult
    cases hresult
    refine .inr ⟨e, rfl, hemission, fun hs => ?_, fun _ => ?_, Assembly.written_of_error hemission⟩
    · rw [hstandard] at hs
      cases hs
    · exact ⟨_, Medium.fitting_prefix _ _, fun hroom => Medium.fitting_of_room hroom _,
        Disk.replaced_of_write hdisk⟩

/-- How a run of an assembly that fails has ended: nothing was touched, or the open file is to
blame, or the node has no code. -/
inductive Ends (path : Text) (f : Failure) (before after : Disk) (x : Node) : Prop where
  | untouched (hcause : ∀ e, f.cause ≠ .emission e) (hdisk : after = before)
  | openFile (h : IsOfOpenFile f)
  | cut (e : Assembly.EmitError) (hcause : f.cause = .emission e) (h : Cut path x e before after)

/-- The log takes every record, so behind the listing only closing can fail. -/
theorem listing_or_close_error {s : Setup} {target : Target} {name : Text} {x : Node}
    {r : Log.Record} {w w' : World} {f : Failure}
    (h : inWorld (do
        writeListing target name x
        log s r
        closeTarget target) w = (.error f, w')) :
    inWorld (writeListing target name x) w = (.error f, w') ∨ IsOfOpenFile f := by
  obtain hlisting | ⟨u, w₁, -, h⟩ := inWorld_bind_error h
  · exact .inl hlisting
  obtain hlog | ⟨u, w₂, -, h⟩ := inWorld_bind_error h
  · cases hlog
  obtain hok | ⟨e, haction, herror⟩ := inWorld_closeTarget target w₂
  · rw [hok] at h
    cases h
  · rw [herror] at h
    cases h
    exact .inr ⟨e, rfl, .inr haction⟩

/-- Behind the reading of the program, an assembly fails when it opens the target, or when it writes
the listing or closes the target. -/
theorem ends_of_listing_error {s : Setup} {path name : Text} {x : Node} {r : Log.Record}
    {w w' : World} {f : Failure}
    (h : inWorld (do
        let target ← openTarget path
        writeListing target name x
        log s r
        closeTarget target) w = (.error f, w')) :
    Ends path f w.disk w'.disk x := by
  -- the standard output is no file; any other path is opened, and so emptied, first
  cases hstandard : isStandard path with
  | true =>
    rw [inWorld_bind, inWorld_openTarget_standard hstandard] at h
    obtain hlisting | hfile := listing_or_close_error h
    · obtain ⟨hdisk, hemission⟩ := writeListing_standard_error hlisting
      by_cases hcause : ∃ e, f.cause = .emission e
      · obtain ⟨e, he⟩ := hcause
        refine .cut e he ⟨hemission e he, fun _ => hdisk, fun hfile => ?_,
          Assembly.written_of_error (hemission e he)⟩
        rw [hstandard] at hfile
        cases hfile
      · exact .untouched (fun e he => hcause ⟨e, he⟩) hdisk
    · exact .openFile hfile
  | false =>
    rw [inWorld_bind, inWorld_openTarget_file hstandard] at h
    cases hcreate : w.disk.write path [] with
    | error e =>
      rw [hcreate] at h
      cases h
      exact .untouched (fun e he => (nomatch he)) rfl
    | ok emptied =>
      rw [hcreate] at h
      obtain hlisting | hfile := listing_or_close_error h
      · obtain hfile | ⟨e, he, hcut⟩ := writeListing_file_error hstandard hcreate hlisting
        · exact .openFile hfile
        · exact .cut e he hcut
      · exact .openFile hfile

/-- An assembly that fails has not read its program, or it ends as its listing does. -/
theorem performAsm_error {s : Setup} {w w' : World} {f : Failure}
    (h : inWorld (performAsm s) w = (.error f, w')) :
    ((∀ e, f.cause ≠ .emission e) ∧ w'.disk = w.disk) ∨
      ∃ name p w₁, inWorld (readNamedProgram s) w = (.ok (name, p), w₁) ∧
        Ends s.listingPath f w.disk w'.disk p.toNode := by
  rw [performAsm_eq] at h
  have hlooks := Looks.readNamedProgram s
  obtain hread | ⟨⟨name, p⟩, w₁, hread, h⟩ := inWorld_bind_error h
  · exact .inl (hlooks.of_error hread)
  · exact .inr ⟨name, p, w₁, hread, hlooks.disk_eq hread ▸ ends_of_listing_error h⟩

/-- The command fails while it gets ready or reads, or it ends as its listing does. -/
theorem performIn_asm_error {args : List Text} {i : Invocation} {w w' : World} {f : Failure}
    (hargs : Invocation.ofArguments args = .ok i) (hcommand : i.command = .asm)
    (hrun : performIn args w = (.error f, w')) :
    ((∀ e, f.cause ≠ .emission e) ∧ w'.disk = w.disk) ∨
      ∃ setup w₁ name p w₂,
        inWorld (prepare i.options) w = (.ok setup, w₁) ∧
        inWorld (readNamedProgram setup) w₁ = (.ok (name, p), w₂) ∧
        Ends setup.listingPath f w.disk w'.disk p.toNode := by
  have hperform : inWorld (prepare i.options >>= performAsm) w = (.error f, w') := by
    have hinvocation : performIn args w = inWorld (perform i) w := by
      show inWorld (performArguments args) w = _
      unfold performArguments
      rw [hargs]
      exact inWorld_bind _ _ w
    rw [← hrun, hinvocation]
    unfold perform
    rw [hcommand]
  have hlooks := Looks.prepare i.options
  -- preparing, and then the assembly in the world that it leaves
  obtain hprepare | ⟨setup, w₁, hprepare, hasm⟩ := inWorld_bind_error hperform
  · exact .inl (hlooks.of_error hprepare)
  have hdisk := hlooks.disk_eq hprepare
  obtain ⟨hcause, hkept⟩ | ⟨name, p, w₂, hread, hends⟩ := performAsm_error hasm
  · exact .inl ⟨hcause, hkept.trans hdisk⟩
  · exact .inr ⟨setup, w₁, name, p, w₂, hprepare, hread, hdisk ▸ hends⟩

/-- The failure itself is for want of code. -/
def isEmission : Failure → Bool
  | .emission _ => true
  | _ => false

/-- The command ended with a failure for want of code. -/
def endsUnemitted (r : Except Failure Unit × World) : Bool :=
  match r.1 with
  | .ok _ => false
  | .error f => isEmission f.cause

/-- A run that ends unemitted has an error of the emission. -/
theorem exists_emission {r : Except Failure Unit × World} (h : endsUnemitted r = true) :
    ∃ f e w', r = (.error f, w') ∧ f.cause = .emission e := by
  obtain ⟨result, w'⟩ := r
  cases result with
  | ok u => cases h
  | error f =>
    change isEmission f.cause = true at h
    cases hcause : f.cause with
    | emission e => exact ⟨f, e, w', rfl, hcause⟩
    | _ =>
      rw [hcause] at h
      cases h

end Command

end Scriptlet
