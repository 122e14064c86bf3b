import MiniDB.Common.ConcurrentSaves
import MiniDB.Common.ReadFile

/-!
# Reading while files are saved

`readFile` asks for the size at a path and opens the path afterwards, so a save may put
another file there in between. The file that a reader has opened is never written to again,
whatever the saves do; but the reader takes as many bytes of it as the other one had.
-/

namespace MiniDB.Common.FileIO

open Posix Refinement

section Reading

variable {ι : Type} [DecidableEq ι] {path : String} {contents : ι → List UInt8} {s s' : Saves ι}

/-- No save writes to a file or will open it for writing. -/
structure Untouchable (path : String) (fd : ℕ) (s : Saves ι) : Prop where
  /-- The file exists. -/
  created : fd < s.1.next
  /-- It is not the one beside the target. -/
  tmp : s.1.directory.get? (tmpOf path) ≠ some fd
  /-- No save has it open. -/
  writers : ∀ i fd' offset remaining, s.2 i = .writing fd' offset remaining → fd' ≠ fd

/-- One system call of a save leaves a file alone that it neither has open nor can open. -/
theorem writeStep_untouchable {fs : FileSystem} {stage : WriteStage} {fd : ℕ}
    (hcreated : fd < fs.next) (htmp : fs.directory.get? (tmpOf path) ≠ some fd)
    (hwriter : ∀ fd' offset remaining, stage = .writing fd' offset remaining → fd' ≠ fd)
    (content : List UInt8) (outcome : Outcome) :
    (writeStep path content outcome fs stage).1.bytes fd = fs.bytes fd ∧
      fd < (writeStep path content outcome fs stage).1.next ∧
      (writeStep path content outcome fs stage).1.directory.get? (tmpOf path) ≠ some fd ∧
      ∀ fd' offset remaining,
        (writeStep path content outcome fs stage).2 = .writing fd' offset remaining → fd' ≠ fd := by
  cases stage with
  | opening =>
    dsimp only [writeStep]
    split
    · obtain ⟨hother, hnext, hbytes⟩ := FileSystem.openTruncate_apart hcreated htmp
      refine ⟨hbytes, hnext, fun hfd => ?_, ?_⟩
      · rw [(fs.openTruncate_spec (tmpOf path)).1] at hfd
        exact hother (Option.some.inj hfd)
      · rintro fd' offset remaining ⟨⟩
        exact hother
    · exact ⟨rfl, hcreated, htmp, by rintro fd' offset remaining ⟨⟩⟩
  | writing open' offset remaining =>
    have hother := hwriter _ _ _ rfl
    cases remaining with
    | nil => exact ⟨rfl, hcreated, htmp, by rintro fd' offset remaining ⟨⟩⟩
    | cons byte bytes =>
      dsimp only [writeStep]
      cases outcome.transfer (byte :: bytes).length with
      | none => exact ⟨rfl, hcreated, htmp, by rintro fd' offset remaining ⟨⟩⟩
      | some n =>
        refine ⟨FileSystem.store_bytes_of_ne hother.symm _, hcreated, htmp, ?_⟩
        rintro fd' offset remaining ⟨⟩
        exact hother
  | closing synced =>
    cases synced with
    | true => exact ⟨rfl, hcreated, htmp, by rintro fd' offset remaining ⟨⟩⟩
    | false => exact ⟨rfl, hcreated, htmp, by rintro fd' offset remaining ⟨⟩⟩
  | replacing =>
    dsimp only [writeStep]
    split
    · rename_i fs' hrename
      split at hrename
      · cases hfile : fs.directory.get? (tmpOf path) with
        | none =>
          rw [FileSystem.rename_of_none hfile] at hrename
          cases hrename
        | some file =>
          obtain ⟨fs₁, hrename₁, hbytes, hnext, hdirectory⟩ :=
            @FileSystem.rename_of_some fs (tmpOf path) path file hfile
          rw [hrename] at hrename₁
          cases hrename₁
          refine ⟨congrFun hbytes fd, hnext ▸ hcreated, ?_, by rintro fd' offset remaining ⟨⟩⟩
          rw [hdirectory, FiniteMap.get?_put, if_neg (tmpOf_ne path), FiniteMap.get?_erase,
            if_pos rfl]
          exact (Option.some_ne_none fd).symm
      · cases hrename
    · exact ⟨rfl, hcreated, htmp, by rintro fd' offset remaining ⟨⟩⟩
  | removing =>
    dsimp only [writeStep]
    split
    · refine ⟨rfl, hcreated, ?_, by rintro fd' offset remaining ⟨⟩⟩
      unfold FileSystem.remove
      dsimp only
      rw [FiniteMap.get?_erase, if_pos rfl]
      exact (Option.some_ne_none fd).symm
    · exact ⟨rfl, hcreated, htmp, by rintro fd' offset remaining ⟨⟩⟩
  | returned status => exact ⟨rfl, hcreated, htmp, by rintro fd' offset remaining ⟨⟩⟩
  | thrown => exact ⟨rfl, hcreated, htmp, by rintro fd' offset remaining ⟨⟩⟩

/-- A turn of a save leaves such a file alone. -/
theorem Untouchable.step {fd : ℕ} (h : Untouchable path fd s) {turn : ι × Outcome}
    (hstep : saveStep path contents s turn = .ok ((), s')) :
    Untouchable path fd s' ∧ s'.1.bytes fd = s.1.bytes fd := by
  obtain ⟨i, outcome⟩ := turn
  cases hstep
  obtain ⟨hbytes, hcreated, htmp, hwriter⟩ :=
    writeStep_untouchable h.created h.tmp (h.writers i) (contents i) outcome
  refine ⟨⟨hcreated, htmp, fun j fd' offset remaining hwriting => ?_⟩, hbytes⟩
  by_cases hj : j = i
  · subst hj
    rw [Interleaving.move_snd_self] at hwriting
    exact hwriter fd' offset remaining hwriting
  · rw [Interleaving.move_snd_of_ne hj] at hwriting
    exact h.writers j fd' offset remaining hwriting

/-- Any number of turns leaves such a file alone. -/
theorem Untouchable.run {fd : ℕ} (h : Untouchable path fd s) {turns : List (ι × Outcome)}
    {outputs : List Unit} (hrun : run (saveStep path contents) s turns = .ok (outputs, s')) :
    Untouchable path fd s' ∧ s'.1.bytes fd = s.1.bytes fd := by
  have hkeeps : ∀ {s₁ turn output s₂}, Untouchable path fd s₁ ∧ s₁.1.bytes fd = s.1.bytes fd →
      saveStep path contents s₁ turn = .ok (output, s₂) →
      Untouchable path fd s₂ ∧ s₂.1.bytes fd = s.1.bytes fd := by
    rintro s₁ turn output s₂ ⟨huntouchable, hbytes⟩ hstep
    obtain ⟨huntouchable', hbytes'⟩ := huntouchable.step hstep
    exact ⟨huntouchable', hbytes'.trans hbytes⟩
  exact run_keeps hkeeps ⟨h, rfl⟩ hrun

omit [DecidableEq ι] in
/-- The file at the path is such a file while every save owns what it writes to. -/
theorem Sound.untouchable {before : Option (List UInt8)} (h : Sound before path contents s) {fd : ℕ}
    (hfd : s.1.directory.get? path = some fd) : Untouchable path fd s where
  created := s.1.created hfd
  tmp htmp := tmpOf_ne path (s.1.distinct htmp hfd)
  writers := by
    rintro i fd' offset remaining hwriting rfl
    have howns := h.owns i
    rw [hwriting] at howns
    exact howns.1 hfd

/-- Saves that hinder none of each other leave all well. -/
theorem Sound.run {before : Option (List UInt8)} (h : Sound before path contents s)
    {turns : List (ι × Outcome)} (hturns : Along (saveStep path contents) Unhindered s turns) :
    ∃ outputs s', Refinement.run (saveStep path contents) s turns = .ok (outputs, s') ∧
      Sound before path contents s' :=
  hturns.run_invariant (fun hsound hturn => ⟨(), _, rfl, hsound.step hturn rfl⟩) h

/-- What a reader gets that asks for the size of one version and opens another one. -/
def readBetween (sized opened : Option (List UInt8)) (outcome₁ outcome₂ outcome₃ : Outcome) :
    Status × List UInt8 :=
  match if outcome₁.succeeds then sized else none with
  | none => (.IO_ERROR, [])
  | some first =>
    match if outcome₂.succeeds then opened else none with
    | none => (.IO_ERROR, [])
    | some second =>
      if first = [] then (.OK, [])
      else if outcome₃.succeeds ∧ first.length ≤ second.length then
        (.OK, second.take first.length)
      else (.IO_ERROR, [])

/-- The three calls of a reader, made at three moments, depend on the versions at the path at the
first two of them, if the opened file stays as it was. -/
theorem readStep_eq_readBetween {fs₁ fs₂ fs₃ : FileSystem} (outcome₁ outcome₂ outcome₃ : Outcome)
    (hkept : ∀ fd, fs₂.directory.get? path = some fd → fs₃.bytes fd = fs₂.bytes fd) :
    readStep fs₃ path outcome₃ (readStep fs₂ path outcome₂ (readStep fs₁ path outcome₁ .sizing)) =
      .returned (readBetween (fs₁.read path) (fs₂.read path) outcome₁ outcome₂ outcome₃).1
        (readBetween (fs₁.read path) (fs₂.read path) outcome₁ outcome₂ outcome₃).2 := by
  unfold readBetween
  cases hsized : if outcome₁.succeeds then fs₁.read path else none with
  | none =>
    dsimp only [readStep]
    rw [hsized]
  | some first =>
    dsimp only [readStep]
    rw [hsized]
    dsimp only
    cases outcome₂.succeeds with
    | false => rfl
    | true =>
      rw [if_pos rfl, if_pos rfl]
      cases hfd : fs₂.directory.get? path with
      | none =>
        rw [FileSystem.read_of_none hfd]
      | some fd =>
        rw [FileSystem.read_of_some hfd]
        dsimp only
        by_cases hempty : first = []
        · rw [if_pos hempty, if_pos (List.length_eq_zero_iff.mpr hempty)]
        · rw [if_neg hempty, if_neg (List.length_eq_zero_iff.not.mpr hempty)]
          dsimp only
          rw [hkept fd hfd]
          split
          · rfl
          · rfl

/-- A reader gets the beginning of the version that it opens, as long as the version whose size
it asked for, or an I/O error and nothing. -/
theorem readBetween_eq_ok_iff {sized opened : Option (List UInt8)}
    {outcome₁ outcome₂ outcome₃ : Outcome} {out : List UInt8} :
    readBetween sized opened outcome₁ outcome₂ outcome₃ = (.OK, out) ↔
      ∃ first second, sized = some first ∧ opened = some second ∧
        outcome₁.succeeds = true ∧ outcome₂.succeeds = true ∧
        (first ≠ [] → outcome₃.succeeds = true) ∧ first.length ≤ second.length ∧
        out = second.take first.length := by
  unfold readBetween
  constructor
  · intro h
    split at h
    · cases h
    · rename_i first hfirst
      split at h
      · cases h
      · rename_i second hsecond
        split at hfirst
        · rename_i h₁
          split at hsecond
          · rename_i h₂
            split at h
            · rename_i hempty
              cases h
              subst hempty
              exact ⟨[], second, hfirst, hsecond, h₁, h₂, fun hne => absurd rfl hne,
                Nat.zero_le _, rfl⟩
            · split at h
              · rename_i hread
                cases h
                exact ⟨first, second, hfirst, hsecond, h₁, h₂, fun _ => hread.1, hread.2, rfl⟩
              · cases h
          · cases hsecond
        · cases hfirst
  · rintro ⟨first, second, rfl, rfl, h₁, h₂, h₃, hlength, rfl⟩
    rw [h₁, h₂, if_pos rfl, if_pos rfl]
    dsimp only
    split
    · rename_i hempty
      rw [hempty]
      rfl
    · rename_i hne
      rw [if_pos ⟨h₃ hne, hlength⟩]

/-- A reader that does not get `OK` gets an I/O error. -/
theorem readBetween_eq_ok_or_error (sized opened : Option (List UInt8))
    (outcome₁ outcome₂ outcome₃ : Outcome) :
    (readBetween sized opened outcome₁ outcome₂ outcome₃).1 = .OK ∨
      (readBetween sized opened outcome₁ outcome₂ outcome₃).1 = .IO_ERROR := by
  unfold readBetween
  split
  · exact .inr rfl
  · split
    · exact .inr rfl
    · split
      · exact .inl rfl
      · split
        · exact .inl rfl
        · exact .inr rfl

/-- Whatever is between the calls of a reader and those of saves to its path, as long as these do
not hinder each other: the reader gets `OK` if and only if no call of its own fails and the
version that it opens is at least as long as the one whose size it asked for, and then it gets as
much of the former as that. -/
theorem read_between_saves (path : String) (contents : ι → List UInt8) (fs : FileSystem)
    {first second third : List (ι × Outcome)}
    (h : Along (saveStep path contents) Unhindered (fs, fun _ => .opening)
      (first ++ (second ++ third))) :
    ∃ outputs₁ s₁ outputs₂ s₂ outputs₃ s₃,
      run (saveStep path contents) (fs, fun _ => .opening) first = .ok (outputs₁, s₁) ∧
      run (saveStep path contents) s₁ second = .ok (outputs₂, s₂) ∧
      run (saveStep path contents) s₂ third = .ok (outputs₃, s₃) ∧
      Readable (fs.read path) path contents s₁ ∧ Readable (fs.read path) path contents s₂ ∧
      ∀ outcome₁ outcome₂ outcome₃, ∃ status out,
        readStep s₃.1 path outcome₃
            (readStep s₂.1 path outcome₂ (readStep s₁.1 path outcome₁ .sizing)) =
          .returned status out ∧
        (status = .OK ∨ status = .IO_ERROR) ∧
        ∀ bytes, status = .OK ∧ out = bytes ↔
          ∃ sized opened, s₁.1.read path = some sized ∧ s₂.1.read path = some opened ∧
            outcome₁.succeeds = true ∧ outcome₂.succeeds = true ∧
            (sized ≠ [] → outcome₃.succeeds = true) ∧ sized.length ≤ opened.length ∧
            bytes = opened.take sized.length := by
  obtain ⟨hfirst, hrest⟩ := h.of_append
  obtain ⟨outputs₁, s₁, hrun₁, hsound₁⟩ := (sound_start fs path contents).run hfirst
  obtain ⟨hsecond, hthird⟩ := (hrest outputs₁ s₁ hrun₁).of_append
  obtain ⟨outputs₂, s₂, hrun₂, hsound₂⟩ := hsound₁.run hsecond
  obtain ⟨outputs₃, s₃, hrun₃, _⟩ := hsound₂.run (hthird outputs₂ s₂ hrun₂)
  refine ⟨outputs₁, s₁, outputs₂, s₂, outputs₃, s₃, hrun₁, hrun₂, hrun₃, hsound₁.readable,
    hsound₂.readable, fun outcome₁ outcome₂ outcome₃ => ?_⟩
  have hkept : ∀ fd, s₂.1.directory.get? path = some fd → s₃.1.bytes fd = s₂.1.bytes fd :=
    fun fd hfd => ((hsound₂.untouchable hfd).run hrun₃).2
  refine ⟨_, _, readStep_eq_readBetween outcome₁ outcome₂ outcome₃ hkept,
    readBetween_eq_ok_or_error _ _ _ _ _, fun bytes => ?_⟩
  rw [← readBetween_eq_ok_iff, Prod.ext_iff]

end Reading

/-- A directory with a database file of one byte. -/
def oneByte : FileSystem :=
  (writeFileAtomic .empty "shop.json" [0x30] (List.replicate 5 .full)).1

/-- The size is that of one byte, and a save renames its file of two bytes before the path is
opened: the reader gets `OK` and the first of them, which is no version of the file. -/
theorem read_between_saves_torn :
    ∃ s₁ s₂ : Saves Bool,
      run (saveStep "shop.json" twoContents) (oneByte, fun _ => .opening) [] = .ok ([], s₁) ∧
      run (saveStep "shop.json" twoContents) s₁ (List.replicate 5 (false, .full)) =
        .ok (List.replicate 5 (), s₂) ∧
      ∃ status out,
        readStep s₂.1 "shop.json" .full
            (readStep s₂.1 "shop.json" .full (readStep s₁.1 "shop.json" .full .sizing)) =
          .returned status out ∧
        (status = .OK ∧ out = [0x7B]) ∧ some out ≠ some [0x30] ∧ ∀ i, out ≠ twoContents i := by
  have halong : Along (saveStep "shop.json" twoContents) Unhindered (oneByte, fun _ => .opening)
      ([] ++ (List.replicate 5 (false, .full) ++ [])) := by
    refine ⟨fun _ _ _ _ => rfl, ?_⟩
    rintro _ _ ⟨⟩
    refine ⟨by rintro ⟨⟩, ?_⟩
    rintro _ _ ⟨⟩
    refine ⟨by rintro ⟨⟩, ?_⟩
    rintro _ _ ⟨⟩
    refine ⟨by rintro ⟨⟩, ?_⟩
    rintro _ _ ⟨⟩
    refine ⟨by rintro ⟨⟩, ?_⟩
    rintro _ _ ⟨⟩
    trivial
  obtain ⟨_, s₁, _, s₂, _, s₃, hrun₁, hrun₂, hrun₃, _, _, hreader⟩ :=
    read_between_saves "shop.json" twoContents oneByte halong
  cases hrun₁
  cases hrun₂
  cases hrun₃
  obtain ⟨status, out, hread, _, hok⟩ := hreader .full .full .full
  have hout : status = .OK ∧ out = [0x7B] :=
    (hok [0x7B]).mpr ⟨[0x30], [0x7B, 0x7D], rfl, rfl, rfl, rfl, fun _ => rfl, by decide, rfl⟩
  refine ⟨_, _, rfl, rfl, status, out, hread, hout, ?_, fun i => ?_⟩
  · rw [hout.2]
    decide
  · rw [hout.2]
    cases i with
    | false => decide
    | true => decide

end MiniDB.Common.FileIO
