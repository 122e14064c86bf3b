import MiniDB.Library.Durability
import MiniDB.Library.PosixFile

/-!
# Files on a disk

The system calls that change a file do so by writes and size changes. On a disk these
stay pending until an `fsync`. The changes of a write loop are one for each `pwrite`;
together they have the effect of the loop on the file that programs see.
-/

namespace Posix

open ByteSequence Durability

/-- What one system call changes in a file. -/
inductive Change
  | write (offset : ℕ) (bytes : List UInt8)
  | resize (size : ℕ)
  deriving DecidableEq

/-- The file after a change. -/
def File.change (file : File) : Change → File
  | .write offset bytes =>
    if h : (overwrite 0 file.bytes offset bytes).length < offsetLimit then
      ⟨overwrite 0 file.bytes offset bytes, h⟩
    else file
  | .resize size => (file.ftruncate size []).2.1

/-- A file of which some changes are not forced to the medium yet. -/
abbrev Disk := Medium File Change

/-- A change writes a part of a buffer to its place in a file. -/
def Change.PlacedIn (offset : ℕ) (buffer : List UInt8) (change : Change) : Prop :=
  ∃ before part after, buffer = before ++ part ++ after ∧
    change = .write (offset + before.length) part

/-- The disk of a file without pending changes. -/
def Disk.settled (file : File) : Disk := ⟨file, []⟩

/-- The writes of a write loop. -/
def File.writes (file : File) (buffer : List UInt8) (offset : ℕ) : Schedule → List Change
  | [] =>
    if buffer.isEmpty then []
    else match file.pwriteOnce buffer offset .full with
      | none => []
      | some (count, _) => [.write offset (buffer.take count)]
  | outcome :: io =>
    if buffer.isEmpty then []
    else match file.pwriteOnce buffer offset outcome with
      | none => []
      | some (count, written) =>
        .write offset (buffer.take count) ::
          written.writes (buffer.drop count) (offset + count) io

/-- What `ftruncate` does to the disk. -/
def File.resizeEffects (file : File) (size : ℕ) (io : Schedule) : List (Effect Change) :=
  if (file.ftruncate size io).1 then [.alter (.resize size)] else []

/-- What an `fsync` does to the disk; a failed one is taken to force nothing out. -/
def syncEffects (io : Schedule) : List (Effect Change) :=
  if (fsync io).1 then [.sync] else []

/-- A `pwrite` that moves bytes is one change. -/
theorem File.pwriteOnce_eq_some {file written : File} {buffer : List UInt8} {offset count : ℕ}
    {outcome : Outcome} (h : file.pwriteOnce buffer offset outcome = some (count, written)) :
    count ≤ buffer.length ∧ file.change (.write offset (buffer.take count)) = written := by
  unfold pwriteOnce at h
  split at h
  · cases h
  · rename_i moved htransfer
    split at h
    · rename_i hlimit
      cases h
      exact ⟨Outcome.transfer_le htransfer, dif_pos hlimit⟩
    · cases h

/-- The writes of a loop have its effect on the file. -/
theorem File.foldl_writes (file : File) (buffer : List UInt8) (offset : ℕ) (io : Schedule) :
    (file.writes buffer offset io).foldl File.change file =
      (file.pwriteAll buffer offset io).2.1 := by
  induction io generalizing file buffer offset with
  | nil =>
    unfold writes pwriteAll
    split
    · rfl
    · cases hwrite : file.pwriteOnce buffer offset .full with
      | none => rfl
      | some moved => exact (pwriteOnce_eq_some hwrite).2
  | cons outcome io ih =>
    unfold writes pwriteAll
    split
    · rfl
    · cases hwrite : file.pwriteOnce buffer offset outcome with
      | none => rfl
      | some moved =>
        dsimp only
        rw [List.foldl_cons, (pwriteOnce_eq_some hwrite).2]
        exact ih moved.2 (buffer.drop moved.1) (offset + moved.1)

/-- An `ftruncate` is one change, or fails and is none. -/
theorem File.ftruncate_cases (file : File) (size : ℕ) (io : Schedule) :
    (file.ftruncate size io = (false, file, io.next.2) ∧ file.resizeEffects size io = []) ∨
    (file.ftruncate size io = (true, file.change (.resize size), io.next.2) ∧
      file.resizeEffects size io = [.alter (.resize size)]) := by
  have hcut : file.ftruncate size io = (false, file, io.next.2) ∨
      file.ftruncate size io = (true, file.change (.resize size), io.next.2) := by
    by_cases hsize : size < offsetLimit
    · cases hok : io.next.1.succeeds with
      | false =>
        left
        simp only [ftruncate, hok, dif_pos hsize, Bool.false_eq_true, if_false]
      | true =>
        right
        have hfull : (Schedule.next []).1.succeeds = true := rfl
        simp only [change, ftruncate, hok, hfull, dif_pos hsize, if_true]
    · left
      simp only [ftruncate, dif_neg hsize]
  unfold resizeEffects
  rcases hcut with hcut | hcut
  · exact Or.inl ⟨hcut, by rw [hcut, if_neg Bool.false_ne_true]⟩
  · exact Or.inr ⟨hcut, by rw [hcut, if_pos rfl]⟩

/-- Each write of a loop puts a part of the buffer in its place. -/
theorem File.mem_writes {file : File} {buffer : List UInt8} {offset : ℕ} {io : Schedule}
    {change : Change} (h : change ∈ file.writes buffer offset io) :
    change.PlacedIn offset buffer := by
  induction io generalizing file buffer offset with
  | nil =>
    unfold writes at h
    split at h
    · cases h
    · split at h
      · cases h
      · rename_i count written hwrite
        rw [List.mem_singleton] at h
        exact ⟨[], buffer.take count, buffer.drop count, (List.take_append_drop _ _).symm, h⟩
  | cons outcome io ih =>
    unfold writes at h
    split at h
    · cases h
    · split at h
      · cases h
      · rename_i count written hwrite
        rcases List.mem_cons.mp h with rfl | hrest
        · exact ⟨[], buffer.take count, buffer.drop count, (List.take_append_drop _ _).symm, rfl⟩
        · obtain ⟨before, part, after, hsplit, rfl⟩ := ih hrest
          have hcount := (pwriteOnce_eq_some hwrite).1
          refine ⟨buffer.take count ++ before, part, after, ?_, ?_⟩
          · rw [List.append_assoc, List.append_assoc, ← List.append_assoc before, ← hsplit,
              List.take_append_drop]
          · rw [List.length_append, List.length_take, min_eq_left hcount, Nat.add_assoc]

/-- Without scheduled outcomes a loop is one write, if it writes at all. -/
theorem File.writes_nil (file : File) (buffer : List UInt8) (offset : ℕ) :
    file.writes buffer offset [] = [] ∨ file.writes buffer offset [] = [.write offset buffer] := by
  unfold writes
  split
  · exact Or.inl rfl
  · cases hwrite : file.pwriteOnce buffer offset .full with
    | none => exact Or.inl rfl
    | some moved =>
      have hwhole : moved.1 = buffer.length := by
        unfold pwriteOnce at hwrite
        dsimp only [Outcome.transfer] at hwrite
        split at hwrite
        · cases hwrite
          rfl
        · cases hwrite
      dsimp only
      rw [hwhole, List.take_length]
      exact Or.inr rfl

/-- A write at the end of a file extends it, or exceeds the offset range. -/
theorem File.change_write_end (file : File) (bytes : List UInt8) :
    file.change (.write file.bytes.length bytes) = file ∨
      (file.change (.write file.bytes.length bytes)).bytes = file.bytes ++ bytes := by
  unfold change
  dsimp only
  split
  · right
    have hend := overwrite_append 0 file.bytes [] bytes
    rwa [List.append_nil, List.drop_nil, List.append_nil] at hend
  · exact Or.inl rfl

/-- Cutting a file to a prefix of its bytes. -/
theorem File.change_resize_of_prefix {file : File} {kept : List UInt8} (h : kept <+: file.bytes) :
    (file.change (.resize kept.length)).bytes = kept := by
  obtain ⟨cut, hbytes, hcut⟩ := File.ftruncate_of_prefix h []
  unfold change
  dsimp only
  rw [hcut]
  exact hbytes

/-- Writing behind a prefix of a file keeps the prefix. -/
theorem File.prefix_change_write {file : File} {kept part : List UInt8} {distance : ℕ}
    (h : kept <+: file.bytes) :
    kept <+: (file.change (.write (kept.length + distance) part)).bytes := by
  obtain ⟨rest, hrest⟩ := h
  unfold change
  dsimp only
  split
  · dsimp only
    rw [overwrite, ← hrest]
    simp only [List.take_append, List.append_assoc]
    rw [List.take_of_length_le (by omega)]
    exact List.prefix_append _ _
  · exact ⟨rest, hrest⟩

/-- A change behind the first `size` bytes of a file. -/
def Change.Behind (size : ℕ) : Change → Prop
  | .write offset _ => size ≤ offset
  | .resize size' => size ≤ size'

/-- A change behind the first bytes of a file keeps them. -/
theorem File.prefix_change {file : File} {kept : List UInt8} {change : Change}
    (hbehind : change.Behind kept.length) (h : kept <+: file.bytes) :
    kept <+: (file.change change).bytes := by
  cases change with
  | write offset bytes =>
    obtain ⟨distance, rfl⟩ := Nat.exists_eq_add_of_le hbehind
    exact File.prefix_change_write h
  | resize size =>
    have hbehind : kept.length ≤ size := hbehind
    unfold change ftruncate
    dsimp only
    split
    · obtain ⟨rest, hrest⟩ := h
      rw [if_pos (show (Schedule.next []).1.succeeds = true from rfl)]
      dsimp only
      rw [← hrest, List.take_append, List.take_of_length_le hbehind, List.append_assoc]
      exact List.prefix_append _ _
    · exact h

/-- A part of a buffer is written behind what precedes the buffer. -/
theorem Change.PlacedIn.behind {offset size : ℕ} {buffer : List UInt8} {change : Change}
    (h : change.PlacedIn offset buffer) (hsize : size ≤ offset) : change.Behind size := by
  obtain ⟨before, part, after, _, rfl⟩ := h
  exact Nat.le_add_right_of_le hsize

/-- Writing over a file what it already holds there changes nothing. -/
theorem File.change_write_self {file : File} {before part after : List UInt8}
    (h : file.bytes = before ++ part ++ after) :
    file.change (.write before.length part) = file := by
  have hsame : overwrite 0 file.bytes before.length part = file.bytes := by
    rw [h, List.append_assoc, overwrite_append, List.drop_left, List.append_assoc]
  have hlimit : (overwrite 0 file.bytes before.length part).length < offsetLimit := by
    rw [hsame]
    exact file.size_lt
  unfold change
  dsimp only
  rw [dif_pos hlimit]
  exact File.ext hsame

/-- Writing parts of a buffer behind a prefix of a file keeps the prefix. -/
theorem File.prefix_foldl_change {file : File} {kept buffer : List UInt8} {writes : List Change}
    (hwrites : ∀ change ∈ writes, change.PlacedIn kept.length buffer) (h : kept <+: file.bytes) :
    kept <+: (writes.foldl File.change file).bytes := by
  induction writes generalizing file with
  | nil => exact h
  | cons change writes ih =>
    obtain ⟨before, part, after, _, rfl⟩ := hwrites change List.mem_cons_self
    exact ih (fun other hmem => hwrites other (List.mem_cons_of_mem _ hmem))
      (File.prefix_change_write h)

/-- Writing parts of a buffer over the buffer itself changes nothing. -/
theorem File.foldl_change_self {file : File} {kept buffer : List UInt8} {writes : List Change}
    (hwrites : ∀ change ∈ writes, change.PlacedIn kept.length buffer)
    (h : file.bytes = kept ++ buffer) : writes.foldl File.change file = file := by
  induction writes with
  | nil => rfl
  | cons change writes ih =>
    obtain ⟨before, part, after, hbuffer, rfl⟩ := hwrites change List.mem_cons_self
    have hbytes : file.bytes = kept ++ before ++ part ++ after := by
      rw [h, hbuffer, List.append_assoc, List.append_assoc, List.append_assoc]
    have hsame := File.change_write_self hbytes
    rw [List.length_append] at hsame
    rw [List.foldl_cons, hsame]
    exact ih fun other hmem => hwrites other (List.mem_cons_of_mem _ hmem)

end Posix
