import MiniDB.Library.FiniteMap
import MiniDB.Library.PosixFile

/-!
# A directory of files

Paths lead to files through a directory. An open file stays the same when the directory
changes under it, so a descriptor stands for a file and not for a path. There are no hard
links: different paths are different files.
-/

namespace Posix

open ByteSequence

/-- A directory and the files it leads to. A descriptor is the number of a file. -/
structure FileSystem where
  /-- The file at each path. -/
  directory : FiniteMap String ℕ
  /-- The content of each file. -/
  bytes : ℕ → List UInt8
  /-- The number of the next file. -/
  next : ℕ
  /-- Different paths are different files. -/
  distinct : ∀ {path other file}, directory.get? path = some file →
    directory.get? other = some file → path = other
  /-- Files at paths have been created. -/
  created : ∀ {path file}, directory.get? path = some file → file < next

namespace FileSystem

/-- The directory without files. -/
def empty : FileSystem where
  directory := FiniteMap.empty
  bytes _ := []
  next := 0
  distinct h := by
    cases h
  created h := by
    cases h

/-- What is read at a path, if there is a file. -/
def read (fs : FileSystem) (path : String) : Option (List UInt8) :=
  (fs.directory.get? path).map fs.bytes

/-- The content of a file replaced. -/
def store (fs : FileSystem) (file : ℕ) (content : List UInt8) : FileSystem :=
  { fs with bytes := fun other => if other = file then content else fs.bytes other }

/-- `open` with `O_CREAT | O_TRUNC`: the descriptor of an empty file at the path. -/
def openTruncate (fs : FileSystem) (path : String) : ℕ × FileSystem :=
  match h : fs.directory.get? path with
  | some file => (file, fs.store file [])
  | none => (fs.next, {
      directory := fs.directory.put path fs.next
      bytes := fun other => if other = fs.next then [] else fs.bytes other
      next := fs.next + 1
      distinct := by
        intro first second file hfirst hsecond
        rw [FiniteMap.get?_put] at hfirst hsecond
        split at hfirst
        · split at hsecond
          · rename_i heq heq'
            rw [heq, heq']
          · cases hfirst
            exact absurd (fs.created hsecond) (lt_irrefl _)
        · split at hsecond
          · cases hsecond
            exact absurd (fs.created hfirst) (lt_irrefl _)
          · exact fs.distinct hfirst hsecond
      created := by
        intro other file hfile
        rw [FiniteMap.get?_put] at hfile
        split at hfile
        · cases hfile
          exact Nat.lt_succ_self _
        · exact Nat.lt_succ_of_lt (fs.created hfile) })

/-- `write` through a descriptor, at an offset. -/
def write (fs : FileSystem) (file offset : ℕ) (data : List UInt8) : FileSystem :=
  fs.store file (overwrite 0 (fs.bytes file) offset data)

/-- `rename`: the file at one path takes the place of what is at another. -/
def rename (fs : FileSystem) (source target : String) : Option FileSystem :=
  match h : fs.directory.get? source with
  | none => none
  | some file => some {
      directory := (fs.directory.erase source).put target file
      bytes := fs.bytes
      next := fs.next
      distinct := by
        intro first second other hfirst hsecond
        rw [FiniteMap.get?_put, FiniteMap.get?_erase] at hfirst hsecond
        split at hfirst
        · split at hsecond
          · rename_i heq heq'
            rw [heq, heq']
          · split at hsecond
            · cases hsecond
            · rename_i hne
              cases hfirst
              exact absurd (fs.distinct hsecond h) hne
        · split at hfirst
          · cases hfirst
          · split at hsecond
            · rename_i hne _
              cases hsecond
              exact absurd (fs.distinct hfirst h) hne
            · split at hsecond
              · cases hsecond
              · exact fs.distinct hfirst hsecond
      created := by
        intro other found hfound
        rw [FiniteMap.get?_put, FiniteMap.get?_erase] at hfound
        split at hfound
        · cases hfound
          exact fs.created h
        · split at hfound
          · cases hfound
          · exact fs.created hfound }

/-- `remove`. -/
def remove (fs : FileSystem) (path : String) : FileSystem where
  directory := fs.directory.erase path
  bytes := fs.bytes
  next := fs.next
  distinct := by
    intro first second file hfirst hsecond
    rw [FiniteMap.get?_erase] at hfirst hsecond
    split at hfirst
    · cases hfirst
    · split at hsecond
      · cases hsecond
      · exact fs.distinct hfirst hsecond
  created := by
    intro other file hfile
    rw [FiniteMap.get?_erase] at hfile
    split at hfile
    · cases hfile
    · exact fs.created hfile

variable {fs : FileSystem}

@[simp] theorem store_directory (file : ℕ) (content : List UInt8) :
    (fs.store file content).directory = fs.directory := rfl

@[simp] theorem store_bytes_self (file : ℕ) (content : List UInt8) :
    (fs.store file content).bytes file = content := if_pos rfl

/-- Other files keep their content. -/
theorem store_bytes_of_ne {file other : ℕ} (h : other ≠ file) (content : List UInt8) :
    (fs.store file content).bytes other = fs.bytes other := if_neg h

/-- What is read at a path that leads to a file. -/
theorem read_of_some {path : String} {file : ℕ} (h : fs.directory.get? path = some file) :
    fs.read path = some (fs.bytes file) := by
  unfold read
  rw [h]
  rfl

/-- Nothing is read at a path that leads nowhere. -/
theorem read_of_none {path : String} (h : fs.directory.get? path = none) :
    fs.read path = none := by
  unfold read
  rw [h]
  rfl

/-- Replacing the content of the file at one path is not read at another. -/
theorem read_store_of_ne {path other : String} {file : ℕ} (h : fs.directory.get? path = some file)
    (hne : other ≠ path) (content : List UInt8) :
    (fs.store file content).read other = fs.read other := by
  unfold read
  rw [store_directory]
  cases hother : fs.directory.get? other with
  | none => rfl
  | some found =>
    have hfound : found ≠ file := by
      rintro rfl
      exact hne (fs.distinct hother h)
    exact congrArg some (store_bytes_of_ne hfound content)

/-- Writing behind the content of a file appends to it. -/
theorem write_bytes_self (file : ℕ) (data : List UInt8) :
    (fs.write file (fs.bytes file).length data).bytes file = fs.bytes file ++ data := by
  unfold write
  rw [store_bytes_self, overwrite_of_le 0 data le_rfl]
  simp

/-- An opened file is empty, and only its path leads somewhere new. -/
theorem openTruncate_spec (fs : FileSystem) (path : String) :
    (fs.openTruncate path).2.directory.get? path = some (fs.openTruncate path).1 ∧
    (fs.openTruncate path).2.bytes (fs.openTruncate path).1 = [] ∧
    (∀ other, other ≠ path →
      (fs.openTruncate path).2.directory.get? other = fs.directory.get? other) ∧
    ∀ file, fs.directory.get? path ≠ some file → file < fs.next →
      (fs.openTruncate path).2.bytes file = fs.bytes file := by
  unfold openTruncate
  split
  · rename_i file h
    refine ⟨h, store_bytes_self _ _, fun _ _ => rfl, fun other hother _ => ?_⟩
    apply store_bytes_of_ne
    rintro rfl
    exact hother h
  · refine ⟨if_pos rfl, if_pos rfl, fun other hother => if_neg hother, fun file _ hlt => ?_⟩
    exact if_neg hlt.ne

/-- Opening a path creates at most a file. -/
theorem next_le_openTruncate (fs : FileSystem) (path : String) :
    fs.next ≤ (fs.openTruncate path).2.next := by
  unfold openTruncate
  split
  · exact le_rfl
  · exact Nat.le_succ _

/-- Opening is not read at other paths. -/
theorem read_openTruncate_of_ne {path other : String} (hne : other ≠ path) :
    (fs.openTruncate path).2.read other = fs.read other := by
  obtain ⟨_, _, hdirectory, hbytes⟩ := fs.openTruncate_spec path
  unfold read
  rw [hdirectory other hne]
  cases hother : fs.directory.get? other with
  | none => rfl
  | some file =>
    refine congrArg some (hbytes file (fun h => ?_) (fs.created hother))
    exact hne (fs.distinct hother h)

/-- Opening a path leaves a file alone that is elsewhere, and does not lead to it. -/
theorem openTruncate_apart {path : String} {file : ℕ} (hcreated : file < fs.next)
    (hpath : fs.directory.get? path ≠ some file) :
    (fs.openTruncate path).1 ≠ file ∧ file < (fs.openTruncate path).2.next ∧
      (fs.openTruncate path).2.bytes file = fs.bytes file := by
  have hbytes := (fs.openTruncate_spec path).2.2.2 file hpath hcreated
  refine ⟨?_, ?_, hbytes⟩
  · unfold openTruncate
    split
    · rename_i found hfound
      rintro rfl
      exact hpath hfound
    · exact hcreated.ne'
  · unfold openTruncate
    split
    · exact hcreated
    · exact Nat.lt_succ_of_lt hcreated

/-- What is not there cannot be renamed. -/
theorem rename_of_none {source target : String} (h : fs.directory.get? source = none) :
    fs.rename source target = none := by
  unfold rename
  split
  · rfl
  · rename_i file hfile
    rw [h] at hfile
    cases hfile

/-- What a renaming does. -/
theorem rename_of_some {source target : String} {file : ℕ}
    (h : fs.directory.get? source = some file) :
    ∃ fs', fs.rename source target = some fs' ∧ fs'.bytes = fs.bytes ∧ fs'.next = fs.next ∧
      fs'.directory = (fs.directory.erase source).put target file := by
  unfold rename
  split
  · rename_i hnone
    rw [h] at hnone
    cases hnone
  · rename_i found hfound
    rw [h] at hfound
    cases hfound
    exact ⟨_, rfl, rfl, rfl, rfl⟩

/-- A renaming is read at both paths and nowhere else. -/
theorem read_rename {fs' : FileSystem} {source target : String}
    (h : fs.rename source target = some fs') :
    fs'.read target = fs.read source ∧
      ∀ other, other ≠ source → other ≠ target → fs'.read other = fs.read other := by
  unfold rename at h
  split at h
  · cases h
  · rename_i file hfile
    cases h
    unfold read
    refine ⟨?_, fun other hsource htarget => ?_⟩
    · dsimp only
      rw [FiniteMap.get?_put, if_pos rfl, hfile]
    · dsimp only
      rw [FiniteMap.get?_put, if_neg htarget, FiniteMap.get?_erase, if_neg hsource]

/-- A removal is not read at other paths. -/
theorem read_remove_of_ne {path other : String} (hne : other ≠ path) :
    (fs.remove path).read other = fs.read other := by
  unfold read remove
  dsimp only
  rw [FiniteMap.get?_erase, if_neg hne]

end FileSystem

end Posix
