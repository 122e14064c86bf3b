import MiniDB.Common.Type
import MiniDB.Library.FileSystem

/-!
# Replacing a file

`writeFileAtomic` of `FileIO.h`, one system call after the other, so that a crash may come
behind any of them. The content goes to a file beside the target, which is renamed over it
at the end; until then the target is not touched.
-/

namespace MiniDB.Common.FileIO

open Posix

/-- The path of the file beside the target. -/
def tmpOf (path : String) : String := path ++ ".tmp"

/-- Where a call stands: which system call is next, or how it ended. -/
inductive WriteStage
  | opening
  | writing (fd offset : ℕ) (remaining : List UInt8)
  | closing (synced : Bool)
  | replacing
  | removing
  | returned (s : Status)
  | thrown

/-- One system call with a given outcome. With nothing left to write the file is synced; the
outcome of `close` is not looked at; a `remove` that fails throws. -/
def writeStep (path : String) (content : List UInt8) (outcome : Outcome) (fs : FileSystem) :
    WriteStage → FileSystem × WriteStage
  | .opening =>
    if outcome.succeeds then
      ((fs.openTruncate (tmpOf path)).2, .writing (fs.openTruncate (tmpOf path)).1 0 content)
    else (fs, .returned .IO_ERROR)
  | .writing _ _ [] => (fs, .closing outcome.succeeds)
  | .writing fd offset (byte :: bytes) =>
    match outcome.transfer (byte :: bytes).length with
    | none => (fs, .closing false)
    | some n =>
      (fs.write fd offset ((byte :: bytes).take n),
        .writing fd (offset + n) ((byte :: bytes).drop n))
  | .closing true => (fs, .replacing)
  | .closing false => (fs, .returned .IO_ERROR)
  | .replacing =>
    match if outcome.succeeds then fs.rename (tmpOf path) path else none with
    | some fs => (fs, .returned .OK)
    | none => (fs, .removing)
  | .removing =>
    if outcome.succeeds then (fs.remove (tmpOf path), .returned .IO_ERROR) else (fs, .thrown)
  | .returned s => (fs, .returned s)
  | .thrown => (fs, .thrown)

/-- A rename that finds no file beside the target is followed by a remove. -/
theorem writeStep_replacing_of_none {path : String} {content : List UInt8} {fs : FileSystem}
    (h : fs.rename (tmpOf path) path = none) :
    writeStep path content .full fs .replacing = (fs, .removing) := by
  simp only [writeStep, Outcome.succeeds, if_true, h]

/-- A rename that succeeds is the last call. -/
theorem writeStep_replacing_of_some {path : String} {content : List UInt8} {fs fs' : FileSystem}
    (h : fs.rename (tmpOf path) path = some fs') :
    writeStep path content .full fs .replacing = (fs', .returned .OK) := by
  simp only [writeStep, Outcome.succeeds, if_true, h]

/-- The calls up to a point, with their outcomes. -/
def writeSteps (path : String) (content : List UInt8) :
    Schedule → FileSystem × WriteStage → FileSystem × WriteStage
  | [], s => s
  | outcome :: io, s => writeSteps path content io (writeStep path content outcome s.1 s.2)

/-- What `writeFileAtomic` has done when a process that got this far is looked at. -/
def writeFileAtomic (fs : FileSystem) (path : String) (content : List UInt8) (io : Schedule) :
    FileSystem × WriteStage := writeSteps path content io (fs, .opening)

/-- The file beside the target is not the target. -/
theorem tmpOf_ne (path : String) : tmpOf path ≠ path := by
  intro h
  have hlength := congrArg String.length h
  unfold tmpOf at hlength
  rw [String.length_append] at hlength
  have htmp : ".tmp".length = 4 := rfl
  omega

/-- Nothing is read differently except at the path beside the target. -/
def Untouched (before : FileSystem) (path : String) (fs : FileSystem) : Prop :=
  ∀ other, other ≠ tmpOf path → fs.read other = before.read other

/-- What has been achieved at each stage. -/
def Achieved (before : FileSystem) (path : String) (content : List UInt8) (fs : FileSystem) :
    WriteStage → Prop
  | .writing fd offset remaining => Untouched before path fs ∧
      fs.directory.get? (tmpOf path) = some fd ∧ offset = (fs.bytes fd).length ∧
        fs.bytes fd ++ remaining = content
  | .closing synced => Untouched before path fs ∧
      (synced = true → fs.read (tmpOf path) = some content)
  | .replacing => Untouched before path fs ∧ fs.read (tmpOf path) = some content
  | .returned .OK => fs.read path = some content ∧
      ∀ other, other ≠ path → other ≠ tmpOf path → fs.read other = before.read other
  | _ => Untouched before path fs

section Steps

variable {before fs : FileSystem} {path : String} {content : List UInt8}

/-- What is achieved while writing. -/
private theorem achieved_write {fd : ℕ} (huntouched : Untouched before path fs)
    (hfd : fs.directory.get? (tmpOf path) = some fd) {remaining : List UInt8}
    (hcontent : fs.bytes fd ++ remaining = content) (n : ℕ) (hn : n ≤ remaining.length) :
    Achieved before path content (fs.write fd (fs.bytes fd).length (remaining.take n))
      (.writing fd ((fs.bytes fd).length + n) (remaining.drop n)) := by
  refine ⟨fun other hother => ?_, hfd, ?_, ?_⟩
  · rw [← huntouched other hother]
    exact FileSystem.read_store_of_ne hfd hother _
  · rw [FileSystem.write_bytes_self, List.length_append, List.length_take, min_eq_left hn]
  · rw [FileSystem.write_bytes_self, List.append_assoc, List.take_append_drop, hcontent]

/-- Each system call achieves what its stage promises. -/
theorem Achieved.step {stage : WriteStage} (h : Achieved before path content fs stage)
    (outcome : Outcome) :
    Achieved before path content (writeStep path content outcome fs stage).1
      (writeStep path content outcome fs stage).2 := by
  cases stage with
  | opening =>
    dsimp only [writeStep]
    by_cases hopened : outcome.succeeds = true
    · rw [if_pos hopened]
      obtain ⟨hfd, hempty, _, _⟩ := fs.openTruncate_spec (tmpOf path)
      refine ⟨fun other hother => ?_, hfd, ?_, ?_⟩
      · rw [FileSystem.read_openTruncate_of_ne hother, h other hother]
      · rw [hempty]
        rfl
      · rw [hempty, List.nil_append]
    · rw [if_neg hopened]
      exact h
  | writing fd offset remaining =>
    obtain ⟨huntouched, hfd, rfl, hcontent⟩ := h
    cases remaining with
    | nil =>
      refine ⟨huntouched, fun _ => ?_⟩
      dsimp only [writeStep]
      rw [FileSystem.read_of_some hfd, ← hcontent, List.append_nil]
    | cons byte bytes =>
      dsimp only [writeStep]
      cases htransfer : outcome.transfer (byte :: bytes).length with
      | none => exact ⟨huntouched, fun hfalse => (nomatch hfalse)⟩
      | some n => exact achieved_write huntouched hfd hcontent n (Outcome.transfer_le htransfer)
  | closing synced =>
    obtain ⟨huntouched, hsynced⟩ := h
    cases synced with
    | true => exact ⟨huntouched, hsynced rfl⟩
    | false => exact huntouched
  | replacing =>
    obtain ⟨huntouched, htmp⟩ := h
    dsimp only [writeStep]
    split
    · rename_i fs' hrename
      split at hrename
      · obtain ⟨htarget, hothers⟩ := FileSystem.read_rename hrename
        refine ⟨htarget.trans htmp, fun other hother hnotTmp => ?_⟩
        rw [hothers other hnotTmp hother, huntouched other hnotTmp]
      · cases hrename
    · exact huntouched
  | removing =>
    dsimp only [writeStep]
    by_cases hremoved : outcome.succeeds = true
    · rw [if_pos hremoved]
      intro other hother
      rw [FileSystem.read_remove_of_ne hother]
      exact h other hother
    · rw [if_neg hremoved]
      exact h
  | returned s => exact h
  | thrown => exact h

/-- A call has achieved what the stage it has reached promises. -/
theorem Achieved.steps {s : FileSystem × WriteStage} (h : Achieved before path content s.1 s.2)
    (io : Schedule) :
    Achieved before path content (writeSteps path content io s).1
      (writeSteps path content io s).2 := by
  induction io generalizing s with
  | nil => exact h
  | cons outcome io ih => exact ih (h.step outcome)

/-- Until a call has returned `OK` it has touched nothing but the file beside the target. -/
theorem Achieved.untouched {stage : WriteStage} (h : Achieved before path content fs stage)
    (hstage : stage ≠ .returned .OK) : Untouched before path fs := by
  cases stage with
  | returned s =>
    cases s with
    | OK => contradiction
    | _ => exact h
  | writing fd offset remaining => exact h.1
  | closing synced => exact h.1
  | replacing => exact h.1
  | _ => exact h

/-- What any stage means for the target and for other files. -/
theorem Achieved.read {stage : WriteStage} (h : Achieved before path content fs stage) :
    ((stage = .returned .OK ∧ fs.read path = some content) ∨
      (stage ≠ .returned .OK ∧ fs.read path = before.read path)) ∧
    ∀ other, other ≠ path → other ≠ tmpOf path → fs.read other = before.read other := by
  by_cases hstage : stage = .returned .OK
  · subst hstage
    exact ⟨Or.inl ⟨rfl, h.1⟩, h.2⟩
  · have huntouched := h.untouched hstage
    exact ⟨Or.inr ⟨hstage, huntouched path (tmpOf_ne path).symm⟩,
      fun other _ htmp => huntouched other htmp⟩

/-- How many calls without a failure are left, at most. -/
def callsLeft (content : List UInt8) : WriteStage → Option ℕ
  | .opening => some (content.length + 4)
  | .writing _ _ remaining => some (remaining.length + 3)
  | .closing true => some 2
  | .replacing => some 1
  | .returned .OK => some 0
  | _ => none

/-- A system call that does not fail leaves fewer to do. -/
theorem callsLeft_step {stage : WriteStage} (h : Achieved before path content fs stage)
    {outcome : Outcome} (hok : outcome ≠ .fail) {left : ℕ}
    (hleft : callsLeft content stage = some left) :
    ∃ left', callsLeft content (writeStep path content outcome fs stage).2 = some left' ∧
      left' ≤ left - 1 := by
  have hsucceeds : outcome.succeeds = true := by
    cases outcome with
    | fail => contradiction
    | _ => rfl
  cases stage with
  | opening =>
    cases hleft
    dsimp only [writeStep]
    rw [if_pos hsucceeds]
    exact ⟨_, rfl, le_rfl⟩
  | writing fd offset remaining =>
    cases hleft
    cases remaining with
    | nil =>
      dsimp only [writeStep]
      rw [hsucceeds]
      exact ⟨2, rfl, le_rfl⟩
    | cons byte bytes =>
      obtain ⟨n, htransfer⟩ := Outcome.exists_transfer hok (byte :: bytes).length
      have hpos := Outcome.transfer_pos htransfer (Nat.succ_pos _)
      dsimp only [writeStep]
      rw [htransfer]
      refine ⟨((byte :: bytes).drop n).length + 3, rfl, ?_⟩
      rw [List.length_drop, List.length_cons]
      omega
  | closing synced =>
    cases synced with
    | true =>
      cases hleft
      exact ⟨1, rfl, le_rfl⟩
    | false => cases hleft
  | replacing =>
    cases hleft
    obtain ⟨_, htmp⟩ := h
    obtain ⟨file, hfile, _⟩ := Option.map_eq_some_iff.mp htmp
    obtain ⟨fs', hrename, _⟩ := @FileSystem.rename_of_some fs (tmpOf path) path file hfile
    dsimp only [writeStep]
    rw [if_pos hsucceeds, hrename]
    exact ⟨0, rfl, le_rfl⟩
  | removing => cases hleft
  | returned s =>
    cases s with
    | OK =>
      cases hleft
      exact ⟨0, rfl, le_rfl⟩
    | _ => cases hleft
  | thrown => cases hleft

/-- Enough system calls without a failure end the call well. -/
theorem returned_of_callsLeft {s : FileSystem × WriteStage}
    (h : Achieved before path content s.1 s.2) {left : ℕ}
    (hleft : callsLeft content s.2 = some left) {io : Schedule}
    (hok : ∀ outcome ∈ io, outcome ≠ .fail) (hlong : left ≤ io.length) :
    (writeSteps path content io s).2 = .returned .OK := by
  induction io generalizing s left with
  | nil =>
    obtain rfl : left = 0 := Nat.le_zero.mp hlong
    obtain ⟨fs, stage⟩ := s
    unfold callsLeft at hleft
    split at hleft
    · cases hleft
    · cases hleft
    · cases hleft
    · cases hleft
    · rename_i hstage
      exact hstage
    · cases hleft
  | cons outcome io ih =>
    rw [List.forall_mem_cons] at hok
    rw [List.length_cons] at hlong
    obtain ⟨left', hleft', hle⟩ := callsLeft_step h hok.1 hleft
    exact ih (h.step outcome) hleft' hok.2 (by omega)

end Steps

/-- Wherever a call to replace a file is interrupted, and however its system calls end, the
target reads as before or as the new content: as the new content exactly if the call has
returned `OK`. No other file but the one beside the target is touched, and a later call whose
system calls do not fail returns `OK`, whatever is left there. -/
theorem writeFileAtomic_atomic (fs : FileSystem) (path : String) (content : List UInt8)
    (io : Schedule) :
    (((writeFileAtomic fs path content io).2 = .returned .OK ∧
        (writeFileAtomic fs path content io).1.read path = some content) ∨
      ((writeFileAtomic fs path content io).2 ≠ .returned .OK ∧
        (writeFileAtomic fs path content io).1.read path = fs.read path)) ∧
    (∀ other, other ≠ path → other ≠ tmpOf path →
      (writeFileAtomic fs path content io).1.read other = fs.read other) ∧
    ∀ (content' : List UInt8) (io' : Schedule), (∀ outcome ∈ io', outcome ≠ .fail) →
      content'.length + 4 ≤ io'.length →
        (writeFileAtomic (writeFileAtomic fs path content io).1 path content' io').2 =
          .returned .OK ∧
        (writeFileAtomic (writeFileAtomic fs path content io).1 path content' io').1.read path =
          some content' := by
  have hstart : ∀ (fs : FileSystem) (content : List UInt8),
      Achieved fs path content fs .opening := fun _ _ _ _ => rfl
  obtain ⟨hpath, hothers⟩ :=
    (@Achieved.steps fs path content (fs, .opening) (hstart fs content) io).read
  refine ⟨hpath, hothers, ?_⟩
  intro content' io' hok hlong
  have hlater := hstart (writeFileAtomic fs path content io).1 content'
  have hdone := @returned_of_callsLeft _ path content' (_, .opening) hlater _ rfl io' hok hlong
  refine ⟨hdone, ?_⟩
  rcases (@Achieved.steps _ path content' (_, .opening) hlater io').read.1 with
    ⟨_, hread⟩ | ⟨hnot, _⟩
  · exact hread
  · exact absurd hdone hnot

/-- A call is interrupted after one of two bytes; nothing is at the target, and a second call
succeeds. -/
theorem writeFileAtomic_atomic_retried :
    (writeFileAtomic .empty "shop.json" [0x7B, 0x7D] [.full, .short 0]).1.read "shop.json" =
      none ∧
    (writeFileAtomic (writeFileAtomic .empty "shop.json" [0x7B, 0x7D] [.full, .short 0]).1
      "shop.json" [0x7B, 0x7D] (List.replicate 6 .full)).2 = .returned .OK := by
  obtain ⟨hpath, _, hlater⟩ :=
    writeFileAtomic_atomic .empty "shop.json" [0x7B, 0x7D] [.full, .short 0]
  constructor
  · rcases hpath with ⟨hreturned, _⟩ | ⟨_, hread⟩
    · cases hreturned
    · exact hread
  · exact (hlater [0x7B, 0x7D] (List.replicate 6 .full) (by decide) (by decide)).1

end MiniDB.Common.FileIO
