import MiniDB.Common.AtomicWrite
import MiniDB.Library.Memory

/-!
# A file and the file beside it

Of the whole directory a call to replace a file sees the target and the file beside it, and it
changes no other file. What it makes of the two does not depend on where they are.
-/

namespace MiniDB.Common.FileIO

open Memory Posix

/-- What is read at the target and beside it. -/
structure Site where
  /-- The content of the target. -/
  target : Option (List UInt8)
  /-- The content of the file beside it. -/
  tmp : Option (List UInt8)

/-- The two files of a path. -/
def siteOf (fs : FileSystem) (path : String) : Site := ⟨fs.read path, fs.read (tmpOf path)⟩

/-- A stage without the descriptor. -/
def WriteStage.blind : WriteStage → WriteStage
  | .writing _ offset remaining => .writing 0 offset remaining
  | stage => stage

/-- One system call on the two files. -/
def siteStep (content : List UInt8) (outcome : Outcome) (site : Site) :
    WriteStage → Site × WriteStage
  | .opening =>
    if outcome.succeeds then (⟨site.target, some []⟩, .writing 0 0 content)
    else (site, .returned .IO_ERROR)
  | .writing _ _ [] => (site, .closing outcome.succeeds)
  | .writing fd offset (byte :: bytes) =>
    match outcome.transfer (byte :: bytes).length with
    | none => (site, .closing false)
    | some n =>
      (⟨site.target, site.tmp.map (· ++ (byte :: bytes).take n)⟩,
        .writing fd (offset + n) ((byte :: bytes).drop n))
  | .closing true => (site, .replacing)
  | .closing false => (site, .returned .IO_ERROR)
  | .replacing =>
    match if outcome.succeeds then site.tmp else none with
    | some written => (⟨some written, none⟩, .returned .OK)
    | none => (site, .removing)
  | .removing =>
    if outcome.succeeds then (⟨site.target, none⟩, .returned .IO_ERROR) else (site, .thrown)
  | .returned s => (site, .returned s)
  | .thrown => (site, .thrown)

/-- While writing, the descriptor is that of the file beside the target, at its end. -/
def Attached (fs : FileSystem) (path : String) : WriteStage → Prop
  | .writing fd offset _ => fs.directory.get? (tmpOf path) = some fd ∧ offset = (fs.bytes fd).length
  | _ => True

section Steps

variable {fs : FileSystem} {path : String} {stage : WriteStage}

/-- A system call on a path changes nothing at paths other than it and the one beside it. -/
theorem writeStep_frame (h : Attached fs path stage) (content : List UInt8) (outcome : Outcome)
    {other : String} (hpath : other ≠ path) (htmp : other ≠ tmpOf path) :
    (writeStep path content outcome fs stage).1.directory.get? other = fs.directory.get? other ∧
    ∀ file, fs.directory.get? other = some file →
      (writeStep path content outcome fs stage).1.bytes file = fs.bytes file := by
  cases stage with
  | opening =>
    dsimp only [writeStep]
    split
    · obtain ⟨_, _, hdirectory, hbytes⟩ := fs.openTruncate_spec (tmpOf path)
      refine ⟨hdirectory other htmp, fun file hfile => hbytes file ?_ (fs.created hfile)⟩
      intro hsame
      exact htmp (fs.distinct hfile hsame)
    · exact ⟨rfl, fun _ _ => rfl⟩
  | writing fd offset remaining =>
    cases remaining with
    | nil => exact ⟨rfl, fun _ _ => rfl⟩
    | cons byte bytes =>
      dsimp only [writeStep]
      split
      · exact ⟨rfl, fun _ _ => rfl⟩
      · refine ⟨rfl, fun file hfile => FileSystem.store_bytes_of_ne ?_ _⟩
        rintro rfl
        exact htmp (fs.distinct hfile h.1)
  | closing synced =>
    cases synced with
    | true => exact ⟨rfl, fun _ _ => rfl⟩
    | false => exact ⟨rfl, fun _ _ => rfl⟩
  | replacing =>
    dsimp only [writeStep]
    split
    · rename_i fs' hrename
      split at hrename
      · cases hfile : fs.directory.get? (tmpOf path) with
        | none =>
          rw [FileSystem.rename_of_none hfile] at hrename
          cases hrename
        | some file =>
          obtain ⟨fs'', hrename', hbytes, _, hdirectory⟩ :=
            @FileSystem.rename_of_some fs _ path _ hfile
          cases hrename.symm.trans hrename'
          rw [hbytes, hdirectory, FiniteMap.get?_put, if_neg hpath, FiniteMap.get?_erase,
            if_neg htmp]
          exact ⟨rfl, fun _ _ => rfl⟩
      · cases hrename
    · exact ⟨rfl, fun _ _ => rfl⟩
  | removing =>
    dsimp only [writeStep]
    split
    · refine ⟨?_, fun _ _ => rfl⟩
      unfold FileSystem.remove
      dsimp only
      rw [FiniteMap.get?_erase, if_neg htmp]
    · exact ⟨rfl, fun _ _ => rfl⟩
  | returned s => exact ⟨rfl, fun _ _ => rfl⟩
  | thrown => exact ⟨rfl, fun _ _ => rfl⟩

/-- A system call on a path is not read at paths other than it and the one beside it. -/
theorem read_writeStep (h : Attached fs path stage) (content : List UInt8) (outcome : Outcome)
    {other : String} (hpath : other ≠ path) (htmp : other ≠ tmpOf path) :
    (writeStep path content outcome fs stage).1.read other = fs.read other := by
  obtain ⟨hdirectory, hbytes⟩ := writeStep_frame h content outcome hpath htmp
  unfold FileSystem.read
  rw [hdirectory]
  cases hfile : fs.directory.get? other with
  | none => rfl
  | some file => exact congrArg some (hbytes file hfile)

/-- A call stays attached to the file beside its target. -/
theorem Attached.step (h : Attached fs path stage) (content : List UInt8) (outcome : Outcome) :
    Attached (writeStep path content outcome fs stage).1 path
      (writeStep path content outcome fs stage).2 := by
  cases stage with
  | opening =>
    dsimp only [writeStep]
    split
    · obtain ⟨hfd, hempty, _, _⟩ := fs.openTruncate_spec (tmpOf path)
      refine ⟨hfd, ?_⟩
      rw [hempty]
      rfl
    · trivial
  | writing fd offset remaining =>
    cases remaining with
    | nil => trivial
    | cons byte bytes =>
      obtain ⟨hfd, rfl⟩ := h
      dsimp only [writeStep]
      split
      · trivial
      · rename_i n htransfer
        refine ⟨hfd, ?_⟩
        rw [FileSystem.write_bytes_self, List.length_append, List.length_take,
          min_eq_left (Outcome.transfer_le htransfer)]
  | closing synced =>
    cases synced with
    | true => trivial
    | false => trivial
  | replacing =>
    dsimp only [writeStep]
    split
    · trivial
    · trivial
  | removing =>
    dsimp only [writeStep]
    split
    · trivial
    · trivial
  | returned s => trivial
  | thrown => trivial

/-- A call stays attached while another one works elsewhere. -/
theorem Attached.other (h : Attached fs path stage) {other : String} {stage' : WriteStage}
    (h' : Attached fs other stage') (content : List UInt8) (outcome : Outcome)
    (hpath : tmpOf other ≠ path) (htmp : tmpOf other ≠ tmpOf path) :
    Attached (writeStep path content outcome fs stage).1 other stage' := by
  cases stage' with
  | writing fd offset remaining =>
    obtain ⟨hfd, rfl⟩ := h'
    obtain ⟨hdirectory, hbytes⟩ := writeStep_frame h content outcome hpath htmp
    refine ⟨hdirectory.trans hfd, ?_⟩
    rw [hbytes fd hfd]
  | _ => trivial

/-- A system call does to the two files what it does wherever they are. -/
theorem siteOf_writeStep (h : Attached fs path stage) (content : List UInt8) (outcome : Outcome) :
    (siteOf (writeStep path content outcome fs stage).1 path,
      (writeStep path content outcome fs stage).2.blind) =
        siteStep content outcome (siteOf fs path) stage.blind := by
  have hne := (tmpOf_ne path).symm
  cases stage with
  | opening =>
    dsimp only [writeStep, siteStep, WriteStage.blind]
    split
    · obtain ⟨hfd, hempty, _, _⟩ := fs.openTruncate_spec (tmpOf path)
      unfold siteOf
      rw [FileSystem.read_openTruncate_of_ne hne, FileSystem.read_of_some hfd, hempty]
    · rfl
  | writing fd offset remaining =>
    cases remaining with
    | nil => rfl
    | cons byte bytes =>
      obtain ⟨hfd, rfl⟩ := h
      dsimp only [writeStep, siteStep, WriteStage.blind]
      cases htransfer : outcome.transfer (byte :: bytes).length with
      | none => rfl
      | some n =>
        have hafter : (fs.write fd (fs.bytes fd).length
            ((byte :: bytes).take n)).directory.get? (tmpOf path) = some fd := hfd
        have htarget : (fs.write fd (fs.bytes fd).length ((byte :: bytes).take n)).read path =
            fs.read path := FileSystem.read_store_of_ne hfd hne _
        unfold siteOf
        dsimp only
        rw [FileSystem.read_of_some hfd, FileSystem.read_of_some hafter,
          FileSystem.write_bytes_self, htarget]
        rfl
  | closing synced =>
    cases synced with
    | true => rfl
    | false => rfl
  | replacing =>
    dsimp only [writeStep, siteStep, WriteStage.blind]
    cases outcome.succeeds with
    | false => rfl
    | true =>
      cases hfile : fs.directory.get? (tmpOf path) with
      | none =>
        have hread : (siteOf fs path).tmp = none := FileSystem.read_of_none hfile
        rw [if_pos rfl, if_pos rfl, FileSystem.rename_of_none hfile, hread]
      | some file =>
        obtain ⟨fs', hrename, hbytes, _, hdirectory⟩ :=
          @FileSystem.rename_of_some fs _ path _ hfile
        have hread : (siteOf fs path).tmp = some (fs.bytes file) := FileSystem.read_of_some hfile
        have htarget : fs'.directory.get? path = some file := by
          rw [hdirectory, FiniteMap.get?_put, if_pos rfl]
        have htmp : fs'.directory.get? (tmpOf path) = none := by
          rw [hdirectory, FiniteMap.get?_put, if_neg (tmpOf_ne path), FiniteMap.get?_erase,
            if_pos rfl]
        rw [if_pos rfl, if_pos rfl, hrename, hread]
        unfold siteOf
        dsimp only
        rw [FileSystem.read_of_some htarget, hbytes, FileSystem.read_of_none htmp]
  | removing =>
    dsimp only [writeStep, siteStep, WriteStage.blind]
    split
    · unfold siteOf
      rw [FileSystem.read_remove_of_ne hne]
      unfold FileSystem.read FileSystem.remove
      dsimp only
      rw [FiniteMap.get?_erase, if_pos rfl]
      rfl
    · rfl
  | returned s => rfl
  | thrown => rfl

/-- How many system calls a call makes at most. -/
def stepsLeft (content : List UInt8) : WriteStage → ℕ
  | .opening => content.length + 5
  | .writing _ _ remaining => remaining.length + 4
  | .closing _ => 3
  | .replacing => 2
  | .removing => 1
  | .returned _ => 0
  | .thrown => 0

/-- Every system call leaves fewer. -/
theorem stepsLeft_writeStep (fs : FileSystem) (path : String) (content : List UInt8)
    (outcome : Outcome) (stage : WriteStage) :
    stepsLeft content (writeStep path content outcome fs stage).2 ≤
      stepsLeft content stage - 1 := by
  cases stage with
  | opening =>
    dsimp only [writeStep]
    split
    · exact le_rfl
    · exact Nat.zero_le _
  | writing fd offset remaining =>
    cases remaining with
    | nil => exact le_rfl
    | cons byte bytes =>
      dsimp only [writeStep]
      split
      · dsimp only [stepsLeft]
        rw [List.length_cons]
        omega
      · rename_i n htransfer
        have hpos := Outcome.transfer_pos htransfer (Nat.succ_pos _)
        dsimp only [stepsLeft]
        rw [List.length_drop, List.length_cons]
        omega
  | closing synced =>
    cases synced with
    | true => exact le_rfl
    | false => exact Nat.zero_le _
  | replacing =>
    dsimp only [writeStep]
    split
    · exact Nat.zero_le _
    · exact le_rfl
  | removing =>
    dsimp only [writeStep]
    split
    · exact le_rfl
    · exact Nat.zero_le _
  | returned s => exact le_rfl
  | thrown => exact le_rfl

/-- Enough system calls bring a call to its end. -/
theorem stepsLeft_writeSteps (path : String) (content : List UInt8) (io : Schedule)
    (s : FileSystem × WriteStage) :
    stepsLeft content (writeSteps path content io s).2 ≤ stepsLeft content s.2 - io.length := by
  induction io generalizing s with
  | nil => exact le_rfl
  | cons outcome io ih =>
    have hstep := stepsLeft_writeStep s.1 path content outcome s.2
    have hrest := ih (writeStep path content outcome s.1 s.2)
    rw [List.length_cons]
    change stepsLeft content (writeSteps path content io
      (writeStep path content outcome s.1 s.2)).2 ≤ _
    omega

end Steps

/-- How a call to replace a file has ended. -/
def writeResult : WriteStage → Option (Except Fault Status)
  | .returned s => some (.ok s)
  | .thrown => some (.error .exception)
  | _ => none

/-- `writeFileAtomic` to its end: the calls without a given outcome do all that is asked. -/
def writeFileFully (fs : FileSystem) (path : String) (content : List UInt8) (io : Schedule) :
    FileSystem × Except Fault Status :=
  let written := writeFileAtomic fs path content (io ++ List.replicate (content.length + 5) .full)
  (written.1, (writeResult written.2).getD (.error .undefined))

/-- A call that has ended makes no system calls. -/
theorem writeSteps_of_result {path : String} {content : List UInt8} {fs : FileSystem}
    {stage : WriteStage} {r : Except Fault Status} (h : writeResult stage = some r)
    (io : Schedule) : writeSteps path content io (fs, stage) = (fs, stage) := by
  induction io with
  | nil => rfl
  | cons outcome io ih =>
    cases stage with
    | returned s => exact ih
    | thrown => exact ih
    | _ => cases h

/-- A call that makes no more system calls has ended. -/
theorem exists_writeResult {content : List UInt8} {stage : WriteStage}
    (h : stepsLeft content stage = 0) : ∃ r, writeResult stage = some r := by
  cases stage with
  | returned s => exact ⟨_, rfl⟩
  | thrown => exact ⟨_, rfl⟩
  | _ => cases h

/-- A call without a failure succeeds. -/
theorem writeFileFully_ok (fs : FileSystem) (path : String) (content : List UInt8) :
    (writeFileFully fs path content []).2 = .ok .OK := by
  have hstart : Achieved fs path content (fs, WriteStage.opening).1 (fs, WriteStage.opening).2 :=
    fun _ _ => rfl
  have hdone := @returned_of_callsLeft fs path content (fs, .opening) hstart (content.length + 4)
    rfl (List.replicate (content.length + 5) .full) (by
      intro outcome houtcome
      rw [List.eq_of_mem_replicate houtcome]
      decide) (by
      rw [List.length_replicate]
      omega)
  unfold writeFileFully writeFileAtomic
  dsimp only
  rw [List.nil_append, hdone]
  rfl

/-- A call that is given all the outcomes it asks for ends. -/
theorem writeResult_fully (fs : FileSystem) (path : String) (content : List UInt8)
    (io : Schedule) :
    writeResult (writeFileAtomic fs path content
      (io ++ List.replicate (content.length + 5) .full)).2 =
        some (writeFileFully fs path content io).2 := by
  have hleft := stepsLeft_writeSteps path content
    (io ++ List.replicate (content.length + 5) .full) (fs, .opening)
  rw [List.length_append, List.length_replicate] at hleft
  obtain ⟨r, hr⟩ := exists_writeResult (Nat.le_zero.mp (hleft.trans (by
    dsimp only [stepsLeft]
    omega)))
  unfold writeFileFully
  dsimp only
  unfold writeFileAtomic
  rw [hr]
  rfl

end MiniDB.Common.FileIO
