import MiniDB.Common.AtomicWrite
import MiniDB.Library.Interleaving
import MiniDB.Library.Refinement

/-!
# Saves to one path by turns

Calls of `writeFileAtomic` on one path all write through the same file beside it. As long as
none of them opens that file while another is under way, every reader of the path sees a whole
content. Otherwise the file that one of them renames may have been emptied by another.
-/

namespace MiniDB.Common.FileIO

open Posix Refinement

/-- A call has opened the file beside the target and has neither given up nor renamed it. -/
def WriteStage.inFlight : WriteStage → Bool
  | .writing _ _ _ => true
  | .closing synced => synced
  | .replacing => true
  | _ => false

section Calls

variable {ι : Type} [DecidableEq ι]

/-- The files, and where each call stands. -/
abbrev Saves (ι : Type) := FileSystem × (ι → WriteStage)

/-- The next system call of one of the calls, with its outcome. -/
def saveStep (path : String) (contents : ι → List UInt8) (s : Saves ι) (turn : ι × Outcome) :
    Except Empty (Unit × Saves ι) :=
  .ok ((), Interleaving.move (fun i => writeStep path (contents i) turn.2) turn.1 s)

/-- No call opens the file beside the target while another one is under way. -/
def Unhindered (s : Saves ι) (turn : ι × Outcome) : Prop :=
  s.2 turn.1 = .opening → turn.2.succeeds = true → ∀ j, j ≠ turn.1 → (s.2 j).inFlight = false

/-- A reader of the path sees what was there before or the content of one of the calls. -/
def Readable (before : Option (List UInt8)) (path : String) (contents : ι → List UInt8)
    (s : Saves ι) : Prop :=
  s.1.read path = before ∨ ∃ i, s.1.read path = some (contents i)

/-- A call that now returns `OK` has put its content at the path. -/
def Installs (path : String) (contents : ι → List UInt8) (s : Saves ι) (turn : ι × Outcome) :
    Prop :=
  ∀ s', saveStep path contents s turn = .ok ((), s') → s.2 turn.1 ≠ .returned .OK →
    s'.2 turn.1 = .returned .OK → s'.1.read path = some (contents turn.1)

end Calls

/-- What a call relies on: if the file beside the target is there, it is its own, and holds what
has been written. -/
def Owns (path : String) (content : List UInt8) (fs : FileSystem) : WriteStage → Prop
  | .writing fd offset remaining => fs.directory.get? path ≠ some fd ∧
      (∀ file, fs.directory.get? (tmpOf path) = some file → file = fd) ∧
        offset = (fs.bytes fd).length ∧ fs.bytes fd ++ remaining = content
  | .closing true => ∀ found, fs.read (tmpOf path) = some found → found = content
  | .replacing => ∀ found, fs.read (tmpOf path) = some found → found = content
  | _ => True

section Steps

variable {fs : FileSystem} {path : String} {content : List UInt8} {stage other : WriteStage}

/-- A call that is not under way relies on nothing. -/
theorem owns_of_idle (h : stage.inFlight = false) : Owns path content fs stage := by
  cases stage with
  | writing fd offset remaining => cases h
  | closing synced =>
    cases synced with
    | true => cases h
    | false => trivial
  | replacing => cases h
  | _ => trivial

/-- Each system call of a call keeps what it relies on. -/
theorem Owns.step (h : Owns path content fs stage) (outcome : Outcome) :
    Owns path content (writeStep path content outcome fs stage).1
      (writeStep path content outcome fs stage).2 := by
  cases stage with
  | opening =>
    dsimp only [writeStep]
    split
    · obtain ⟨hfd, hempty, _, _⟩ := fs.openTruncate_spec (tmpOf path)
      refine ⟨fun hpath => ?_, fun file hfile => ?_, ?_, ?_⟩
      · exact tmpOf_ne path ((fs.openTruncate (tmpOf path)).2.distinct hfd hpath)
      · rw [hfd] at hfile
        exact (Option.some.inj hfile).symm
      · rw [hempty]
        rfl
      · rw [hempty, List.nil_append]
    · trivial
  | writing fd offset remaining =>
    obtain ⟨hpath, htmp, rfl, hcontent⟩ := h
    cases remaining with
    | nil =>
      dsimp only [writeStep]
      cases outcome.succeeds with
      | false => trivial
      | true =>
        intro found hfound
        obtain ⟨file, hfile, rfl⟩ := Option.map_eq_some_iff.mp hfound
        rw [htmp file hfile, ← hcontent, List.append_nil]
    | cons byte bytes =>
      dsimp only [writeStep]
      cases htransfer : outcome.transfer (byte :: bytes).length with
      | none => trivial
      | some n =>
        have hn := Outcome.transfer_le htransfer
        refine ⟨hpath, htmp, ?_, ?_⟩
        · rw [FileSystem.write_bytes_self, List.length_append, List.length_take, min_eq_left hn]
        · rw [FileSystem.write_bytes_self, List.append_assoc, List.take_append_drop, hcontent]
  | closing synced =>
    cases synced with
    | true => exact h
    | false => trivial
  | replacing =>
    dsimp only [writeStep]
    split
    · trivial
    · trivial
  | removing =>
    dsimp only [writeStep]
    split
    · trivial
    · trivial
  | returned s => trivial
  | thrown => trivial

/-- A call that is not under way and does not open the file beside the target can only remove
it. -/
theorem writeStep_idle (hidle : other.inFlight = false) (content : List UInt8) {outcome : Outcome}
    (hopen : other = .opening → outcome.succeeds = false) :
    (writeStep path content outcome fs other).1 = fs ∨
      (writeStep path content outcome fs other).1 = fs.remove (tmpOf path) := by
  cases other with
  | opening =>
    left
    dsimp only [writeStep]
    rw [hopen rfl, if_neg Bool.false_ne_true]
  | writing fd offset remaining => cases hidle
  | closing synced =>
    cases synced with
    | true => cases hidle
    | false => exact Or.inl rfl
  | replacing => cases hidle
  | removing =>
    dsimp only [writeStep]
    split
    · exact Or.inr rfl
    · exact Or.inl rfl
  | returned s => exact Or.inl rfl
  | thrown => exact Or.inl rfl

/-- Removing the file beside the target leaves a call with what it relies on: it will find no
file to rename. -/
theorem Owns.remove (h : Owns path content fs stage) :
    Owns path content (fs.remove (tmpOf path)) stage := by
  have hnone : (fs.remove (tmpOf path)).directory.get? (tmpOf path) = none := by
    unfold FileSystem.remove
    dsimp only
    rw [FiniteMap.get?_erase, if_pos rfl]
  have hread : ∀ found, (fs.remove (tmpOf path)).read (tmpOf path) = some found →
      found = content := by
    intro found hfound
    rw [FileSystem.read_of_none hnone] at hfound
    cases hfound
  cases stage with
  | writing fd offset remaining =>
    obtain ⟨hpath, _, hoffset, hcontent⟩ := h
    refine ⟨?_, fun file hfile => ?_, hoffset, hcontent⟩
    · unfold FileSystem.remove
      dsimp only
      rw [FiniteMap.get?_erase, if_neg (tmpOf_ne path).symm]
      exact hpath
    · rw [hnone] at hfile
      cases hfile
  | closing synced =>
    cases synced with
    | true => exact hread
    | false => trivial
  | replacing => exact hread
  | _ => trivial

/-- A call that is under way was so before or has just opened the file beside the target. -/
theorem inFlight_of_step {content : List UInt8} {outcome : Outcome}
    (h : (writeStep path content outcome fs stage).2.inFlight = true) :
    stage.inFlight = true ∨ (stage = .opening ∧ outcome.succeeds = true) := by
  cases stage with
  | opening =>
    right
    dsimp only [writeStep] at h
    split at h
    · rename_i hopened
      exact ⟨rfl, hopened⟩
    · cases h
  | writing fd offset remaining => exact Or.inl rfl
  | closing synced =>
    cases synced with
    | true => exact Or.inl rfl
    | false => cases h
  | replacing => exact Or.inl rfl
  | removing =>
    dsimp only [writeStep] at h
    split at h
    · cases h
    · cases h
  | returned s => cases h
  | thrown => cases h

/-- A system call that ends a call with `OK` puts its content at the path; every other leaves the
path alone. -/
theorem Owns.read_path (h : Owns path content fs stage) (outcome : Outcome) :
    ((writeStep path content outcome fs stage).2 = .returned .OK ∧
      (writeStep path content outcome fs stage).1.read path = some content) ∨
    (((writeStep path content outcome fs stage).2 = .returned .OK → stage = .returned .OK) ∧
      (writeStep path content outcome fs stage).1.read path = fs.read path) := by
  have hne := (tmpOf_ne path).symm
  cases stage with
  | opening =>
    right
    dsimp only [writeStep]
    split
    · exact ⟨by rintro ⟨⟩, FileSystem.read_openTruncate_of_ne hne⟩
    · exact ⟨by rintro ⟨⟩, rfl⟩
  | writing fd offset remaining =>
    right
    cases remaining with
    | nil => exact ⟨by rintro ⟨⟩, rfl⟩
    | cons byte bytes =>
      dsimp only [writeStep]
      cases outcome.transfer (byte :: bytes).length with
      | none => exact ⟨by rintro ⟨⟩, rfl⟩
      | some n =>
        refine ⟨by rintro ⟨⟩, ?_⟩
        unfold FileSystem.read FileSystem.write
        rw [FileSystem.store_directory]
        cases hfile : fs.directory.get? path with
        | none => rfl
        | some file =>
          have hother : file ≠ fd := by
            rintro rfl
            exact h.1 hfile
          exact congrArg some (FileSystem.store_bytes_of_ne hother _)
  | closing synced =>
    right
    cases synced with
    | true => exact ⟨by rintro ⟨⟩, rfl⟩
    | false => exact ⟨by rintro ⟨⟩, rfl⟩
  | replacing =>
    dsimp only [writeStep]
    split
    · rename_i fs' hrename
      left
      refine ⟨rfl, ?_⟩
      split at hrename
      · cases hfile : fs.directory.get? (tmpOf path) with
        | none =>
          rw [FileSystem.rename_of_none hfile] at hrename
          cases hrename
        | some file =>
          have hread := FileSystem.read_of_some hfile
          rw [(FileSystem.read_rename hrename).1, hread, h _ hread]
      · cases hrename
    · exact Or.inr ⟨by rintro ⟨⟩, rfl⟩
  | removing =>
    right
    dsimp only [writeStep]
    split
    · exact ⟨by rintro ⟨⟩, FileSystem.read_remove_of_ne hne⟩
    · exact ⟨by rintro ⟨⟩, rfl⟩
  | returned s => exact Or.inr ⟨id, rfl⟩
  | thrown => exact Or.inr ⟨id, rfl⟩

end Steps

section Runs

variable {ι : Type} [DecidableEq ι] {path : String} {contents : ι → List UInt8}
  {before : Option (List UInt8)} {s s' : Saves ι}

/-- Every call owns the file beside the target while it is under way, and at most one is. -/
structure Sound (before : Option (List UInt8)) (path : String) (contents : ι → List UInt8)
    (s : Saves ι) : Prop where
  /-- Readers see a whole content. -/
  readable : Readable before path contents s
  /-- Every call has what it relies on. -/
  owns : ∀ i, Owns path (contents i) s.1 (s.2 i)
  /-- At most one call is under way. -/
  alone : ∀ i j, i ≠ j → (s.2 i).inFlight = true → (s.2 j).inFlight = false

omit [DecidableEq ι] in
/-- Before any call has begun all is well. -/
theorem sound_start (fs : FileSystem) (path : String) (contents : ι → List UInt8) :
    Sound (fs.read path) path contents (fs, fun _ => .opening) where
  readable := Or.inl rfl
  owns _ := trivial
  alone _ _ _ h := by cases h

/-- A turn that hinders no call under way keeps all well. -/
theorem Sound.step (h : Sound before path contents s) {turn : ι × Outcome}
    (hturn : Unhindered s turn) (hstep : saveStep path contents s turn = .ok ((), s')) :
    Sound before path contents s' := by
  obtain ⟨i, outcome⟩ := turn
  cases hstep
  refine ⟨?_, ?_, ?_⟩
  · rcases (h.owns i).read_path outcome with ⟨_, hread⟩ | ⟨_, hread⟩
    · exact Or.inr ⟨i, hread⟩
    · rcases h.readable with hbefore | ⟨j, hcontent⟩
      · exact Or.inl (hread.trans hbefore)
      · exact Or.inr ⟨j, hread.trans hcontent⟩
  · apply Interleaving.move_assertions
    · exact (h.owns i).step outcome
    · intro j hj
      by_cases hflight : (s.2 j).inFlight = true
      · have hidle := h.alone j i hj hflight
        have hopen : s.2 i = .opening → outcome.succeeds = false := by
          intro hopening
          by_contra hopened
          rw [Bool.not_eq_false] at hopened
          rw [hturn hopening hopened j hj] at hflight
          cases hflight
        dsimp only
        rcases writeStep_idle hidle (contents i) hopen with hsame | hremoved
        · rw [hsame]
          exact h.owns j
        · rw [hremoved]
          exact (h.owns j).remove
      · rw [Bool.not_eq_true] at hflight
        exact owns_of_idle hflight
  · have hothers : (writeStep path (contents i) outcome s.1 (s.2 i)).2.inFlight = true →
        ∀ j, j ≠ i → (s.2 j).inFlight = false := by
      intro hflight j hj
      rcases inFlight_of_step hflight with hbefore | ⟨hopening, hopened⟩
      · exact h.alone i j hj.symm hbefore
      · exact hturn hopening hopened j hj
    intro j k hjk hflight
    by_cases hj : j = i
    · subst hj
      rw [Interleaving.move_snd_self] at hflight
      rw [Interleaving.move_snd_of_ne hjk.symm]
      exact hothers hflight k hjk.symm
    · rw [Interleaving.move_snd_of_ne hj] at hflight
      by_cases hk : k = i
      · subst hk
        rw [Interleaving.move_snd_self]
        by_contra hboth
        rw [Bool.not_eq_false] at hboth
        rw [hothers hboth j hj] at hflight
        cases hflight
      · rw [Interleaving.move_snd_of_ne hk]
        exact h.alone j k hjk hflight

/-- Where all is well, a call that now returns `OK` has put its content at the path. -/
theorem Sound.installs (h : Sound before path contents s) (turn : ι × Outcome) :
    Installs path contents s turn := by
  intro s' hstep hnot hreturned
  cases hstep
  rw [Interleaving.move_snd_self] at hreturned
  rcases (h.owns turn.1).read_path turn.2 with ⟨_, hread⟩ | ⟨honly, _⟩
  · exact hread
  · exact absurd (honly hreturned) hnot

/-- Whatever the outcomes and the order of the system calls of saves to one path are: if none of
them opens the file beside the target while another is under way, every reader sees what was
there before or the whole content of one of them, and each that returns `OK` has put its content
there. -/
theorem saves_by_turns (path : String) (contents : ι → List UInt8) (fs : FileSystem)
    (turns : List (ι × Outcome))
    (h : Along (saveStep path contents) Unhindered (fs, fun _ => .opening) turns) :
    Throughout (saveStep path contents) (Readable (fs.read path) path contents)
        (fs, fun _ => .opening) turns ∧
      Along (saveStep path contents) (Installs path contents) (fs, fun _ => .opening) turns := by
  have hstart := sound_start fs path contents
  constructor
  · exact (h.throughout (fun hsound hturn hstep => hsound.step hturn hstep) hstart).imp
      fun hsound => hsound.readable
  · exact h.imp (fun hsound hturn hstep => hsound.step hturn hstep)
      (fun hsound _ => hsound.installs _) hstart

/-- A file that another call opens just before it is renamed arrives empty. -/
theorem read_of_opened_before_rename {i j : ι} (hij : i ≠ j) (hi : s.2 i = .replacing)
    (hj : s.2 j = .opening) :
    ∃ s', run (saveStep path contents) s [(j, .full), (i, .full)] = .ok ([(), ()], s') ∧
      s'.2 i = .returned .OK ∧ s'.1.read path = some [] := by
  obtain ⟨hfd, hempty, _, _⟩ := s.1.openTruncate_spec (tmpOf path)
  obtain ⟨fs', hrename, _⟩ :=
    @FileSystem.rename_of_some (s.1.openTruncate (tmpOf path)).2 (tmpOf path) path _ hfd
  have hopen : Interleaving.move (fun i => writeStep path (contents i) .full) j s =
      ((s.1.openTruncate (tmpOf path)).2, Function.update s.2 j
        (.writing (s.1.openTruncate (tmpOf path)).1 0 (contents j))) := by
    unfold Interleaving.move
    rw [hj]
    rfl
  have hreplace : ∀ stage, Interleaving.move (fun i => writeStep path (contents i) .full) i
      ((s.1.openTruncate (tmpOf path)).2, Function.update s.2 j stage) =
      (fs', Function.update (Function.update s.2 j stage) i (.returned .OK)) := by
    intro stage
    unfold Interleaving.move
    dsimp only
    rw [Function.update_of_ne hij, hi, writeStep_replacing_of_some hrename]
  refine ⟨(fs', Function.update (Function.update s.2 j
    (.writing (s.1.openTruncate (tmpOf path)).1 0 (contents j))) i (.returned .OK)), ?_, ?_, ?_⟩
  · simp only [run, saveStep, hopen, hreplace]
  · exact Function.update_self _ _ _
  · rw [(FileSystem.read_rename hrename).1, FileSystem.read_of_some hfd, hempty]

end Runs

/-- The contents of two saves. -/
def twoContents : Bool → List UInt8
  | false => [0x7B, 0x7D]
  | true => [0x5B, 0x5D]

/-- A second save opens the file beside the target just before the first one renames it: the
first one returns `OK`, and the file that was there has become empty. -/
theorem second_save_empties :
    ∃ s : Saves Bool, run (saveStep "shop.json" twoContents)
        ((writeFileAtomic .empty "shop.json" [0x30] (List.replicate 5 .full)).1, fun _ => .opening)
        [(false, .full), (false, .full), (false, .full), (false, .full), (true, .full),
          (false, .full)] = .ok (List.replicate 6 (), s) ∧
      (writeFileAtomic .empty "shop.json" [0x30] (List.replicate 5 .full)).1.read "shop.json" =
        some [0x30] ∧
      s.2 false = .returned .OK ∧ s.1.read "shop.json" = some [] ∧
      ¬Readable (some [0x30]) "shop.json" twoContents s := by
  refine ⟨_, rfl, rfl, rfl, rfl, ?_⟩
  rintro (hbefore | ⟨i, hcontent⟩)
  · cases hbefore
  · cases i with
    | false => cases hcontent
    | true => cases hcontent

/-- The first save returns before the second one opens the file beside the target. -/
theorem saves_by_turns_after :
    Throughout (saveStep "shop.json" twoContents)
        (Readable (FileSystem.empty.read "shop.json") "shop.json" twoContents)
        (.empty, fun _ => .opening)
        [(false, .full), (false, .full), (false, .full), (false, .full), (false, .full),
          (true, .full), (true, .short 0)] ∧
      Along (saveStep "shop.json" twoContents) (Installs "shop.json" twoContents)
        (.empty, fun _ => .opening)
        [(false, .full), (false, .full), (false, .full), (false, .full), (false, .full),
          (true, .full), (true, .short 0)] := by
  apply saves_by_turns
  -- only the first turns of the two saves open a file
  refine ⟨fun _ _ _ _ => rfl, ?_⟩
  rintro _ _ ⟨⟩
  refine ⟨by rintro ⟨⟩, ?_⟩
  rintro _ _ ⟨⟩
  refine ⟨by rintro ⟨⟩, ?_⟩
  rintro _ _ ⟨⟩
  refine ⟨by rintro ⟨⟩, ?_⟩
  rintro _ _ ⟨⟩
  refine ⟨by rintro ⟨⟩, ?_⟩
  rintro _ _ ⟨⟩
  refine ⟨fun _ _ j hj => ?_, ?_⟩
  · cases j with
    | false => rfl
    | true => exact absurd rfl hj
  · rintro _ _ ⟨⟩
    exact ⟨by rintro ⟨⟩, fun _ _ _ => trivial⟩

end MiniDB.Common.FileIO
