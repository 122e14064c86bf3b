import MiniDB.Library.Durability
import MiniDB.Library.FileSystem
import Mathlib.Logic.Function.Basic

/-!
# A directory of files on a disk

Programs see every change of a directory and of its files at once. The disk holds a file as
it is seen once it has been synced, and until then may hold anything of it. Nothing forces
changes of the directory out: each of them may be lost or kept when the power goes.
-/

namespace Posix

open Durability

/-- A change of a directory. -/
inductive DirectoryChange
  | enter (path : String) (file : ℕ)
  | move (source target : String) (file : ℕ)
  | erase (path : String)

/-- The directory after a change. -/
def DirectoryChange.apply (directory : FiniteMap String ℕ) :
    DirectoryChange → FiniteMap String ℕ
  | .enter path file => directory.put path file
  | .move source target file => (directory.erase source).put target file
  | .erase path => directory.erase path

/-- The files that programs see, and what the disk holds of them. -/
structure Volume where
  /-- The files as programs see them. -/
  seen : FileSystem
  /-- The directory, with the changes that may be lost. -/
  entries : Medium (FiniteMap String ℕ) DirectoryChange
  /-- The files that were synced since they were changed. -/
  synced : ℕ → Bool
  /-- Programs see all changes of the directory. -/
  entries_seen : entries.content DirectoryChange.apply = seen.directory

namespace Volume

/-- A disk that holds what programs see. -/
def settled (fs : FileSystem) : Volume := ⟨fs, ⟨fs.directory, []⟩, fun _ => true, rfl⟩

/-- The directories that the disk may hold. -/
def directories (v : Volume) : List (FiniteMap String ℕ) :=
  v.entries.survivors DirectoryChange.apply

/-- The directory with one more change that may be lost. -/
private theorem content_alter (v : Volume) (change : DirectoryChange) :
    (v.entries.perform DirectoryChange.apply (.alter change)).content DirectoryChange.apply =
      change.apply v.seen.directory := by
  rw [← v.entries_seen]
  exact v.entries.content_performAll DirectoryChange.apply [.alter change]

/-- `open` with `O_CREAT | O_TRUNC`. -/
def openTruncate (v : Volume) (path : String) : ℕ × Volume :=
  ((v.seen.openTruncate path).1, {
    seen := (v.seen.openTruncate path).2
    entries :=
      match v.seen.directory.get? path with
      | some _ => v.entries
      | none => v.entries.perform DirectoryChange.apply (.alter (.enter path v.seen.next))
    synced := Function.update v.synced (v.seen.openTruncate path).1 false
    entries_seen := by
      unfold FileSystem.openTruncate
      split
      · rename_i file hfile
        split
        · exact v.entries_seen
        · rename_i hnone
          rw [hfile] at hnone
          cases hnone
      · rename_i hnone
        split
        · rename_i file hfile
          rw [hnone] at hfile
          cases hfile
        · exact v.content_alter _ })

/-- `write` through a descriptor, at an offset. -/
def write (v : Volume) (file offset : ℕ) (data : List UInt8) : Volume where
  seen := v.seen.write file offset data
  entries := v.entries
  synced := Function.update v.synced file false
  entries_seen := v.entries_seen

/-- `fsync` of a file. -/
def fsync (v : Volume) (file : ℕ) : Volume :=
  { v with synced := Function.update v.synced file true }

/-- `rename`. -/
def rename (v : Volume) (source target : String) : Option Volume :=
  match hfile : v.seen.directory.get? source, hrename : v.seen.rename source target with
  | some file, some fs => some {
      seen := fs
      entries := v.entries.perform DirectoryChange.apply (.alter (.move source target file))
      synced := v.synced
      entries_seen := by
        obtain ⟨fs', hrename', _, _, hdirectory⟩ :=
          @FileSystem.rename_of_some v.seen source target file hfile
        rw [hrename] at hrename'
        cases hrename'
        rw [hdirectory]
        exact v.content_alter _ }
  | _, _ => none

/-- `remove`. -/
def remove (v : Volume) (path : String) : Volume where
  seen := v.seen.remove path
  entries := v.entries.perform DirectoryChange.apply (.alter (.erase path))
  synced := v.synced
  entries_seen := v.content_alter _

/-- What the power going may leave: a directory that the disk may hold, the files that were synced
as they were, and the others in any condition. -/
structure PowerLoss (v : Volume) (left : FileSystem) : Prop where
  /-- The directory was held by the disk. -/
  directory : left.directory ∈ v.directories
  /-- Synced files are as they were. -/
  bytes : ∀ file, v.synced file = true → left.bytes file = v.seen.bytes file
  /-- No number of a file is used again. -/
  next : left.next = v.seen.next

/-- What is read at a path if the directory is another one. -/
def readIn (v : Volume) (directory : FiniteMap String ℕ) (path : String) : Option (List UInt8) :=
  (directory.get? path).map v.seen.bytes

/-- A directory of created files without hard links. -/
def Legal (v : Volume) (directory : FiniteMap String ℕ) : Prop :=
  (∀ {path other file}, directory.get? path = some file → directory.get? other = some file →
    path = other) ∧ ∀ {path file}, directory.get? path = some file → file < v.seen.next

/-- Whatever the power going leaves, one of several versions is read at a path, and each of them
may be. No file that holds one of them is at the path beside it. -/
structure Safe (path beside : String) (versions : List (Option (List UInt8))) (v : Volume) :
    Prop where
  /-- One of the versions is left. -/
  left : ∀ directory ∈ v.directories, v.readIn directory path ∈ versions
  /-- Files that may be left at the path stay as they are. -/
  kept : ∀ directory ∈ v.directories, ∀ file, directory.get? path = some file →
    v.synced file = true ∧ file < v.seen.next ∧ v.seen.directory.get? beside ≠ some file
  /-- Each version may be left. -/
  possible : ∀ version ∈ versions, ∃ directory ∈ v.directories, v.Legal directory ∧
    v.readIn directory path = version

section Safe

variable {v v' : Volume} {path beside : String} {versions : List (Option (List UInt8))}

/-- What programs see may be left. -/
theorem seen_mem_directories (v : Volume) : v.seen.directory ∈ v.directories := by
  rw [← v.entries_seen]
  exact v.entries.content_mem_survivors DirectoryChange.apply

/-- The directories after one more change. -/
theorem mem_directories_alter {change : DirectoryChange}
    (h : v'.entries = v.entries.perform DirectoryChange.apply (.alter change))
    {directory : FiniteMap String ℕ} :
    directory ∈ v'.directories ↔ directory ∈ v.directories ∨
      ∃ before ∈ v.directories, change.apply before = directory := by
  unfold directories
  rw [h]
  exact Medium.mem_survivors_alter DirectoryChange.apply

/-- What leaves the files alone that may be at the path, and the path in the directory, changes
nothing about what may be left. -/
theorem Safe.of_apart (h : Safe path beside versions v)
    (hold : ∀ directory ∈ v.directories, directory ∈ v'.directories)
    (hnew : ∀ directory ∈ v'.directories, ∃ before ∈ v.directories,
      directory.get? path = before.get? path)
    (hnext : v.seen.next ≤ v'.seen.next)
    (hfiles : ∀ file, v.synced file = true → file < v.seen.next →
      v.seen.directory.get? beside ≠ some file → v'.synced file = true ∧
        v'.seen.bytes file = v.seen.bytes file ∧ v'.seen.directory.get? beside ≠ some file) :
    Safe path beside versions v' := by
  have hread : ∀ directory ∈ v.directories, v'.readIn directory path = v.readIn directory path := by
    intro directory hdirectory
    unfold readIn
    cases hfile : directory.get? path with
    | none => rfl
    | some file =>
      obtain ⟨hsynced, hlt, hbeside⟩ := h.kept directory hdirectory file hfile
      exact congrArg some (hfiles file hsynced hlt hbeside).2.1
  refine ⟨fun directory hdirectory => ?_, fun directory hdirectory file hfile => ?_,
    fun version hversion => ?_⟩
  · obtain ⟨before, hbefore, hsame⟩ := hnew directory hdirectory
    have hread' : v'.readIn directory path = v.readIn before path := by
      rw [← hread before hbefore, readIn, readIn, hsame]
    exact hread' ▸ h.left before hbefore
  · obtain ⟨before, hbefore, hsame⟩ := hnew directory hdirectory
    obtain ⟨hsynced, hlt, hbeside⟩ := h.kept before hbefore file (hsame ▸ hfile)
    obtain ⟨hsynced', _, hbeside'⟩ := hfiles file hsynced hlt hbeside
    exact ⟨hsynced', hlt.trans_le hnext, hbeside'⟩
  · obtain ⟨directory, hdirectory, ⟨hdistinct, hcreated⟩, rfl⟩ := h.possible version hversion
    exact ⟨directory, hold directory hdirectory,
      ⟨hdistinct, fun hfile => (hcreated hfile).trans_le hnext⟩, hread directory hdirectory⟩

/-- Opening the path beside. -/
theorem Safe.openTruncate (h : Safe path beside versions v) (hne : beside ≠ path) :
    Safe path beside versions (v.openTruncate beside).2 := by
  obtain ⟨hfd, _, _, _⟩ := v.seen.openTruncate_spec beside
  refine h.of_apart (fun directory hdirectory => ?_) (fun directory hdirectory => ?_)
    (v.seen.next_le_openTruncate beside) (fun file hsynced hlt hbeside => ?_)
  · cases hfile : v.seen.directory.get? beside with
    | some file =>
      have hentries : (v.openTruncate beside).2.entries = v.entries := by
        simp only [Volume.openTruncate, hfile]
      rwa [directories, hentries]
    | none =>
      have hentries : (v.openTruncate beside).2.entries = v.entries.perform
          DirectoryChange.apply (.alter (.enter beside v.seen.next)) := by
        simp only [Volume.openTruncate, hfile]
      exact (mem_directories_alter hentries).mpr (Or.inl hdirectory)
  · cases hfile : v.seen.directory.get? beside with
    | some file =>
      have hentries : (v.openTruncate beside).2.entries = v.entries := by
        simp only [Volume.openTruncate, hfile]
      rw [directories, hentries] at hdirectory
      exact ⟨directory, hdirectory, rfl⟩
    | none =>
      have hentries : (v.openTruncate beside).2.entries = v.entries.perform
          DirectoryChange.apply (.alter (.enter beside v.seen.next)) := by
        simp only [Volume.openTruncate, hfile]
      rcases (mem_directories_alter hentries).mp hdirectory with hold | ⟨before, hbefore, rfl⟩
      · exact ⟨directory, hold, rfl⟩
      · exact ⟨before, hbefore, (FiniteMap.get?_put _ _ _ _).trans (if_neg hne.symm)⟩
  · obtain ⟨hother, _, hbytes⟩ := FileSystem.openTruncate_apart hlt hbeside
    refine ⟨?_, hbytes, fun hsame => hother ?_⟩
    · exact (Function.update_of_ne hother.symm _ _).trans hsynced
    · exact Option.some.inj (hfd.symm.trans hsame)

/-- Writing to the file at the path beside. -/
theorem Safe.write (h : Safe path beside versions v) {fd : ℕ}
    (hfd : v.seen.directory.get? beside = some fd) (offset : ℕ) (data : List UInt8) :
    Safe path beside versions (v.write fd offset data) := by
  refine h.of_apart (fun _ hdirectory => hdirectory) (fun directory hdirectory => ?_) le_rfl
    (fun file hsynced _ hbeside => ?_)
  · exact ⟨directory, hdirectory, rfl⟩
  · have hother : file ≠ fd := by
      rintro rfl
      exact hbeside hfd
    exact ⟨(Function.update_of_ne hother _ _).trans hsynced,
      FileSystem.store_bytes_of_ne hother _, hbeside⟩

/-- Syncing a file. -/
theorem Safe.fsync (h : Safe path beside versions v) (fd : ℕ) :
    Safe path beside versions (v.fsync fd) := by
  refine h.of_apart (fun _ hdirectory => hdirectory) (fun directory hdirectory => ?_) le_rfl
    (fun file hsynced _ hbeside => ⟨?_, rfl, hbeside⟩)
  · exact ⟨directory, hdirectory, rfl⟩
  · by_cases hfile : file = fd
    · exact hfile ▸ Function.update_self _ _ _
    · exact (Function.update_of_ne hfile _ _).trans hsynced

/-- Removing the path beside. -/
theorem Safe.remove (h : Safe path beside versions v) (hne : beside ≠ path) :
    Safe path beside versions (v.remove beside) := by
  have hgone : ∀ directory : FiniteMap String ℕ, (directory.erase beside).get? beside = none :=
    fun directory => (FiniteMap.get?_erase _ _ _).trans (if_pos rfl)
  have hentries : (v.remove beside).entries =
      v.entries.perform DirectoryChange.apply (.alter (.erase beside)) := rfl
  refine h.of_apart (fun directory hdirectory => ?_) (fun directory hdirectory => ?_) le_rfl
    (fun file hsynced _ _ => ⟨hsynced, rfl, ?_⟩)
  · exact (mem_directories_alter hentries).mpr (Or.inl hdirectory)
  · rcases (mem_directories_alter hentries).mp hdirectory with hold | ⟨before, hbefore, rfl⟩
    · exact ⟨directory, hold, rfl⟩
    · exact ⟨before, hbefore, (FiniteMap.get?_erase _ _ _).trans (if_neg hne.symm)⟩
  · rw [show (v.remove beside).seen.directory.get? beside = none from hgone _]
    exact Option.some_ne_none _ ∘ Eq.symm

/-- Renaming succeeds on a disk as far as programs see. -/
theorem rename_of_some {source target : String} {file : ℕ}
    (hfile : v.seen.directory.get? source = some file) :
    ∃ v', v.rename source target = some v' ∧ v.seen.rename source target = some v'.seen ∧
      v'.synced = v.synced ∧ v'.entries =
        v.entries.perform DirectoryChange.apply (.alter (.move source target file)) := by
  obtain ⟨fs, hrename, _⟩ := @FileSystem.rename_of_some v.seen source target file hfile
  unfold rename
  split
  · rename_i found fs' hfound hrename'
    rw [hfile] at hfound
    cases hfound
    exact ⟨_, rfl, hrename', rfl, rfl⟩
  · rename_i hnot
    exact absurd hrename (hnot file fs hfile)

/-- What is not there cannot be renamed. -/
theorem rename_of_none {source target : String} (h : v.seen.directory.get? source = none) :
    v.rename source target = none := by
  unfold rename
  split
  · rename_i file _ hfile _
    rw [h] at hfile
    cases hfile
  · rfl

/-- Renaming the file beside the path to it, once it was synced, adds a version. -/
theorem Safe.rename (h : Safe path beside versions v) (hne : beside ≠ path) {fd : ℕ}
    (hfd : v.seen.directory.get? beside = some fd) (hsynced : v.synced fd = true) :
    ∃ v', v.rename beside path = some v' ∧ v.seen.rename beside path = some v'.seen ∧
      v'.seen.read path = some (v.seen.bytes fd) ∧
      Safe path beside (some (v.seen.bytes fd) :: versions) v' := by
  obtain ⟨v', hrename, hseen, hsynced', hentries⟩ := @rename_of_some v beside path fd hfd
  obtain ⟨fs, hfs, hbytes, hnext, hdirectory⟩ :=
    @FileSystem.rename_of_some v.seen beside path fd hfd
  rw [hseen] at hfs
  cases hfs
  have hmoved : ∀ directory : FiniteMap String ℕ,
      ((directory.erase beside).put path fd).get? path = some fd :=
    fun directory => (FiniteMap.get?_put _ _ _ _).trans (if_pos rfl)
  have hgone : v'.seen.directory.get? beside = none := by
    rw [hdirectory, FiniteMap.get?_put, if_neg hne, FiniteMap.get?_erase, if_pos rfl]
  have hread : ∀ directory, v'.readIn directory path = v.readIn directory path := by
    intro directory
    rw [readIn, readIn, hbytes]
  have hmem := fun directory => @mem_directories_alter v v' _ hentries directory
  refine ⟨v', hrename, hseen, ?_, fun directory hmem' => ?_, fun directory hmem' file hfile => ?_,
    fun version hversion => ?_⟩
  · rw [FileSystem.read_of_some (hdirectory ▸ hmoved _), hbytes]
  · rcases (hmem directory).mp hmem' with hold | ⟨before, _, rfl⟩
    · rw [hread]
      exact List.mem_cons_of_mem _ (h.left directory hold)
    · rw [hread, readIn]
      exact List.mem_cons.mpr (Or.inl (congrArg (Option.map v.seen.bytes) (hmoved before)))
  · rw [hsynced', hnext, hgone]
    rcases (hmem directory).mp hmem' with hold | ⟨before, _, rfl⟩
    · obtain ⟨hkept, hlt, _⟩ := h.kept directory hold file hfile
      exact ⟨hkept, hlt, (Option.some_ne_none _).symm⟩
    · cases (hmoved before).symm.trans hfile
      exact ⟨hsynced, v.seen.created hfd, (Option.some_ne_none _).symm⟩
  · rcases List.mem_cons.mp hversion with rfl | hold
    · refine ⟨v'.seen.directory, v'.seen_mem_directories,
        ⟨v'.seen.distinct, v'.seen.created⟩, ?_⟩
      rw [hread, readIn, hdirectory, hmoved]
      rfl
    · obtain ⟨directory, hdirectory, ⟨hdistinct, hcreated⟩, rfl⟩ := h.possible version hold
      exact ⟨directory, (hmem directory).mpr (Or.inl hdirectory),
        ⟨hdistinct, fun hfile => hnext ▸ hcreated hfile⟩, hread directory⟩

/-- What is left is one of the versions. -/
theorem Safe.powerLoss (h : Safe path beside versions v) {left : FileSystem}
    (hleft : v.PowerLoss left) : left.read path ∈ versions := by
  have hread : left.read path = v.readIn left.directory path := by
    unfold FileSystem.read readIn
    cases hfile : left.directory.get? path with
    | none => rfl
    | some file =>
      exact congrArg some (hleft.bytes file (h.kept _ hleft.directory file hfile).1)
  exact hread ▸ h.left _ hleft.directory

end Safe

end Volume

end Posix
