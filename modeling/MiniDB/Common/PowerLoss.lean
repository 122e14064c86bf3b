import MiniDB.Common.AtomicWrite
import MiniDB.Library.Refinement
import MiniDB.Library.Volume

/-!
# Saves when the power goes

`writeFileAtomic` syncs the file beside the target before the renaming, but not the directory
that the renaming changes. So a path never leads to a part of a content, whenever the power
goes; but it may lead to any content that was there since the power went last.
-/

namespace MiniDB.Common.FileIO

open Posix Refinement

/-- One system call of `writeFileAtomic` with a given outcome, on a disk. -/
def diskStep (path : String) (content : List UInt8) (outcome : Outcome) (v : Volume) :
    WriteStage → Volume × WriteStage
  | .opening =>
    if outcome.succeeds then
      ((v.openTruncate (tmpOf path)).2, .writing (v.openTruncate (tmpOf path)).1 0 content)
    else (v, .returned .IO_ERROR)
  | .writing fd _ [] => (if outcome.succeeds then v.fsync fd else v, .closing outcome.succeeds)
  | .writing fd offset (byte :: bytes) =>
    match outcome.transfer (byte :: bytes).length with
    | none => (v, .closing false)
    | some n =>
      (v.write fd offset ((byte :: bytes).take n),
        .writing fd (offset + n) ((byte :: bytes).drop n))
  | .closing true => (v, .replacing)
  | .closing false => (v, .returned .IO_ERROR)
  | .replacing =>
    match if outcome.succeeds then v.rename (tmpOf path) path else none with
    | some v => (v, .returned .OK)
    | none => (v, .removing)
  | .removing =>
    if outcome.succeeds then (v.remove (tmpOf path), .returned .IO_ERROR) else (v, .thrown)
  | .returned s => (v, .returned s)
  | .thrown => (v, .thrown)

/-- The system calls up to a point, on a disk. -/
def diskSteps (path : String) (content : List UInt8) :
    Schedule → Volume × WriteStage → Volume × WriteStage
  | [], s => s
  | outcome :: io, s => diskSteps path content io (diskStep path content outcome s.1 s.2)

/-- What is at a path, and what may be there again when the power goes. -/
structure Versions (α : Type) where
  /-- What is there. -/
  current : Option α
  /-- What has been there since the power went last. -/
  older : List (Option α)

namespace Versions

variable {α β : Type}

/-- Everything that may be there when the power goes. -/
def all (a : Versions α) : List (Option α) := a.current :: a.older

/-- A new version. -/
def push (a : Versions α) (version : α) : Versions α := ⟨some version, a.all⟩

/-- The versions seen another way. -/
def map (f : α → β) (a : Versions α) : Versions β :=
  ⟨a.current.map f, a.older.map (Option.map f)⟩

end Versions

/-- What happens to a path: a call gets as far as the outcomes of its system calls go, or the power
goes and leaves the files in some condition. -/
inductive SaveEvent
  | call (content : List UInt8) (io : Schedule)
  | powerLoss (left : FileSystem)

namespace SaveEvent

/-- One event; a call reports where it stands. -/
def step (path : String) (v : Volume) : SaveEvent → Except Empty (Option WriteStage × Volume)
  | .call content io =>
    let (v, stage) := diskSteps path content io (v, .opening)
    .ok (some stage, v)
  | .powerLoss left => .ok (none, .settled left)

/-- The power leaves what the disk may hold. -/
def Possible (v : Volume) : SaveEvent → Prop
  | .call _ _ => True
  | .powerLoss left => v.PowerLoss left

end SaveEvent

/-- A call that returned `OK` has replaced what is at the path, and any other has not. When the
power goes one of the versions is left. -/
def Versions.After (a : Versions (List UInt8)) :
    SaveEvent → Option WriteStage → Versions (List UInt8) → Prop
  | .call content _, some stage, a' =>
    stage = .returned .OK ∧ a' = a.push content ∨ stage ≠ .returned .OK ∧ a' = a
  | .powerLoss _, none, a' => a'.current ∈ a.all ∧ a'.older = []
  | _, _, _ => False

/-- What a call has done to the file beside the target. -/
def OnDisk (path : String) (v : Volume) : WriteStage → Prop
  | .writing fd _ _ => v.seen.directory.get? (tmpOf path) = some fd
  | .closing true => ∃ fd, v.seen.directory.get? (tmpOf path) = some fd ∧ v.synced fd = true
  | .replacing => ∃ fd, v.seen.directory.get? (tmpOf path) = some fd ∧ v.synced fd = true
  | _ => True

/-- The versions when a call has got to a stage. -/
def versionsAt (content : List UInt8) (versions : List (Option (List UInt8))) :
    WriteStage → List (Option (List UInt8))
  | .returned .OK => some content :: versions
  | _ => versions

section Steps

variable {path : String} {content : List UInt8} {before : FileSystem} {v : Volume}
  {versions : List (Option (List UInt8))} {stage : WriteStage}

/-- Programs see of a system call what they see without a disk. -/
theorem diskStep_seen (path : String) (content : List UInt8) (outcome : Outcome) (v : Volume)
    (stage : WriteStage) :
    ((diskStep path content outcome v stage).1.seen, (diskStep path content outcome v stage).2) =
      writeStep path content outcome v.seen stage := by
  cases stage with
  | opening =>
    dsimp only [diskStep, writeStep]
    split
    · rfl
    · rfl
  | writing fd offset remaining =>
    cases remaining with
    | nil =>
      dsimp only [diskStep, writeStep]
      split
      · rfl
      · rfl
    | cons byte bytes =>
      dsimp only [diskStep, writeStep]
      cases outcome.transfer (byte :: bytes).length with
      | none => rfl
      | some n => rfl
  | closing synced =>
    cases synced with
    | true => rfl
    | false => rfl
  | replacing =>
    dsimp only [diskStep, writeStep]
    cases outcome.succeeds with
    | false => rfl
    | true =>
      rw [if_pos rfl, if_pos rfl]
      cases hfile : v.seen.directory.get? (tmpOf path) with
      | none => rw [Volume.rename_of_none hfile, FileSystem.rename_of_none hfile]
      | some fd =>
        obtain ⟨v', hrename, hseen, _⟩ := @Volume.rename_of_some v (tmpOf path) path fd hfile
        rw [hrename, hseen]
  | removing =>
    dsimp only [diskStep, writeStep]
    split
    · rfl
    · rfl
  | returned s => rfl
  | thrown => rfl

/-- After every system call a power loss leaves one of the versions. A renaming that succeeds adds
the content to them. -/
theorem OnDisk.step (h : OnDisk path v stage)
    (hachieved : Achieved before path content v.seen stage)
    (hsafe : v.Safe path (tmpOf path) (versionsAt content versions stage)) (outcome : Outcome) :
    OnDisk path (diskStep path content outcome v stage).1
        (diskStep path content outcome v stage).2 ∧
      (diskStep path content outcome v stage).1.Safe path (tmpOf path)
        (versionsAt content versions (diskStep path content outcome v stage).2) := by
  have hne := tmpOf_ne path
  cases stage with
  | opening =>
    dsimp only [diskStep]
    split
    · exact ⟨(v.seen.openTruncate_spec (tmpOf path)).1, hsafe.openTruncate hne⟩
    · exact ⟨trivial, hsafe⟩
  | writing fd offset remaining =>
    cases remaining with
    | nil =>
      dsimp only [diskStep]
      cases outcome.succeeds with
      | false => exact ⟨trivial, hsafe⟩
      | true => exact ⟨⟨fd, h, Function.update_self _ _ _⟩, hsafe.fsync fd⟩
    | cons byte bytes =>
      dsimp only [diskStep]
      cases outcome.transfer (byte :: bytes).length with
      | none => exact ⟨trivial, hsafe⟩
      | some n => exact ⟨h, hsafe.write h offset _⟩
  | closing synced =>
    cases synced with
    | true => exact ⟨h, hsafe⟩
    | false => exact ⟨trivial, hsafe⟩
  | replacing =>
    obtain ⟨fd, hfd, hsynced⟩ := h
    have hcontent : v.seen.bytes fd = content :=
      Option.some.inj ((FileSystem.read_of_some hfd).symm.trans hachieved.2)
    obtain ⟨v', hrename, _, _, hsafe'⟩ := hsafe.rename hne hfd hsynced
    dsimp only [diskStep]
    cases outcome.succeeds with
    | false => exact ⟨trivial, hsafe⟩
    | true =>
      rw [if_pos rfl, hrename]
      exact ⟨trivial, hcontent ▸ hsafe'⟩
  | removing =>
    dsimp only [diskStep]
    split
    · exact ⟨trivial, hsafe.remove hne⟩
    · exact ⟨trivial, hsafe⟩
  | returned s => exact ⟨trivial, hsafe⟩
  | thrown => exact ⟨trivial, hsafe⟩

/-- The same after any number of system calls, which programs see as without a disk. -/
theorem OnDisk.steps (h : OnDisk path v stage)
    (hachieved : Achieved before path content v.seen stage)
    (hsafe : v.Safe path (tmpOf path) (versionsAt content versions stage)) (io : Schedule) :
    ∃ v' stage', diskSteps path content io (v, stage) = (v', stage') ∧
      writeSteps path content io (v.seen, stage) = (v'.seen, stage') ∧
      Achieved before path content v'.seen stage' ∧
      v'.Safe path (tmpOf path) (versionsAt content versions stage') := by
  induction io generalizing v stage with
  | nil => exact ⟨v, stage, rfl, rfl, hachieved, hsafe⟩
  | cons outcome io ih =>
    obtain ⟨h', hsafe'⟩ := h.step hachieved hsafe outcome
    have hachieved' := hachieved.step outcome
    rw [← diskStep_seen] at hachieved'
    obtain ⟨v', stage', hdisk, hwrite, hend⟩ := ih h' hachieved' hsafe'
    refine ⟨v', stage', hdisk, ?_, hend⟩
    rw [writeSteps, ← diskStep_seen]
    exact hwrite

/-- A whole call on a disk: what programs see, and what may be left when the power goes. -/
theorem diskSteps_call (hsafe : v.Safe path (tmpOf path) versions) (content : List UInt8)
    (io : Schedule) :
    ∃ v' stage, diskSteps path content io (v, .opening) = (v', stage) ∧
      writeFileAtomic v.seen path content io = (v'.seen, stage) ∧
      ((stage = .returned .OK ∧ v'.seen.read path = some content ∧
        v'.Safe path (tmpOf path) (some content :: versions)) ∨
      (stage ≠ .returned .OK ∧ v'.seen.read path = v.seen.read path ∧
        v'.Safe path (tmpOf path) versions)) := by
  obtain ⟨v', stage, hdisk, hwrite, hachieved, hsafe'⟩ :=
    @OnDisk.steps path content v.seen v versions .opening trivial (fun _ _ => rfl) hsafe io
  refine ⟨v', stage, hdisk, hwrite, ?_⟩
  rcases hachieved.read.1 with ⟨rfl, hread⟩ | ⟨hnot, hread⟩
  · exact Or.inl ⟨rfl, hread, hsafe'⟩
  · refine Or.inr ⟨hnot, hread, ?_⟩
    unfold versionsAt at hsafe'
    split at hsafe'
    · exact absurd rfl hnot
    · exact hsafe'

end Steps

/-- A path on a disk, as the versions that may be there when the power goes. -/
def Holds (path : String) (v : Volume) (a : Versions (List UInt8)) : Prop :=
  v.seen.read path = a.current ∧ v.Safe path (tmpOf path) a.all

end MiniDB.Common.FileIO
