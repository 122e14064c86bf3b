import MiniDB.Library.PosixFile

/-!
# Whole transfers at any offset

Loops of positional reads and writes that may begin beyond the end of the file. A read
loop that does not fail returns everything up to the end of the file or of the request; a
write loop that fails has laid some part of its buffer over the file, or nothing.
-/

namespace Posix

open ByteSequence

/-- `open`: whether the call succeeds. -/
def openCall (io : Schedule) : Bool × Schedule :=
  let (outcome, io) := io.next
  (outcome.succeeds, io)

/-- Without failures a file is opened. -/
theorem Schedule.Unfailing.openCall {io : Schedule} (h : io.Unfailing) :
    openCall io = (true, io.next.2) :=
  congrArg (Prod.mk · io.next.2) (Outcome.succeeds_of_ne h.next_ne_fail)

/-- A read loop: `pread` is called for what is missing until nothing is missing, the file
ends or a call fails. -/
def File.preadAll (file : File) (count offset : ℕ) : Schedule → Option (List UInt8)
  | [] => some ((file.bytes.drop offset).take count)
  | outcome :: io =>
    if count = 0 then some []
    else match outcome.transfer count with
      | none => none
      | some moved =>
        let chunk := (file.bytes.drop offset).take moved
        if chunk.isEmpty then some []
        else (file.preadAll (count - chunk.length) (offset + chunk.length) io).map (chunk ++ ·)

/-- A chunk of a file and what is read behind it make up the whole request, also where the
file ends inside the chunk. -/
private theorem chunk_append (bytes : List UInt8) (offset : ℕ) {moved count : ℕ}
    (h : moved ≤ count) :
    (bytes.drop offset).take moved ++
      (bytes.drop (offset + ((bytes.drop offset).take moved).length)).take
        (count - ((bytes.drop offset).take moved).length) = (bytes.drop offset).take count := by
  have havailable : (bytes.drop offset).length = bytes.length - offset := List.length_drop
  rw [List.length_take, havailable, ← List.drop_drop]
  by_cases hend : moved ≤ bytes.length - offset
  · rw [min_eq_left hend, ← List.take_add, Nat.add_sub_cancel' h]
  · have hnone : (bytes.drop offset).drop (bytes.length - offset) = [] :=
      List.drop_eq_nil_of_le havailable.le
    rw [min_eq_right (by omega), hnone, List.take_nil, List.append_nil,
      List.take_of_length_le (by omega), List.take_of_length_le (by omega)]

/-- A read loop fails or returns what the file holds. -/
theorem File.preadAll_eq (file : File) (count offset : ℕ) (io : Schedule) :
    file.preadAll count offset io = none ∨
      file.preadAll count offset io = some ((file.bytes.drop offset).take count) := by
  induction io generalizing count offset with
  | nil => exact Or.inr rfl
  | cons outcome io ih =>
    unfold preadAll
    by_cases hcount : count = 0
    · rw [if_pos hcount, hcount, List.take_zero]
      exact Or.inr rfl
    · rw [if_neg hcount]
      cases htransfer : outcome.transfer count with
      | none => exact Or.inl rfl
      | some moved =>
        dsimp only
        have hmoved := Outcome.transfer_le htransfer
        have hpositive := Outcome.transfer_pos htransfer (Nat.pos_of_ne_zero hcount)
        by_cases hchunk : ((file.bytes.drop offset).take moved).isEmpty = true
        · rw [if_pos hchunk]
          rw [List.isEmpty_iff_length_eq_zero, List.length_take, List.length_drop] at hchunk
          right
          rw [List.drop_eq_nil_of_le (by omega), List.take_nil]
        · rw [if_neg hchunk]
          rcases ih (count - ((file.bytes.drop offset).take moved).length)
            (offset + ((file.bytes.drop offset).take moved).length) with hnone | hsome
          · rw [hnone]
            exact Or.inl rfl
          · rw [hsome, Option.map_some, chunk_append file.bytes offset hmoved]
            exact Or.inr rfl

/-- A read loop none of whose calls fails returns what the file holds. -/
theorem File.preadAll_of_unfailing (file : File) (count offset : ℕ) {io : Schedule}
    (h : io.Unfailing) :
    file.preadAll count offset io = some ((file.bytes.drop offset).take count) := by
  refine (file.preadAll_eq count offset io).resolve_left fun hnone => ?_
  induction io generalizing count offset with
  | nil => cases hnone
  | cons outcome io ih =>
    obtain ⟨moved, hmoved⟩ := Outcome.exists_transfer (h outcome List.mem_cons_self) count
    have hrest : Schedule.Unfailing io := h.suffix (List.suffix_cons outcome io)
    unfold preadAll at hnone
    rw [hmoved] at hnone
    dsimp only at hnone
    split at hnone
    · cases hnone
    · split at hnone
      · cases hnone
      · exact ih _ _ hrest (Option.map_eq_none_iff.mp hnone)

/-- A write loop lays its whole buffer over the file, or fails after laying a part of it or
nothing. -/
theorem File.pwriteAll_cases {file : File} {buffer : List UInt8} (hne : buffer ≠ []) (offset : ℕ)
    (io : Schedule) :
    ∃ written rest, (file.pwriteAll buffer offset io = (true, written, rest) ∧
        written.bytes = overwrite 0 file.bytes offset buffer) ∨
      (file.pwriteAll buffer offset io = (false, written, rest) ∧ (written = file ∨
        ∃ count, written.bytes = overwrite 0 file.bytes offset (buffer.take count))) := by
  have hempty : ∀ {buffer : List UInt8}, buffer ≠ [] → ¬buffer.isEmpty = true := by
    intro buffer hne
    rwa [List.isEmpty_iff]
  induction io generalizing file buffer offset with
  | nil =>
    have htransfer : Outcome.full.transfer buffer.length = some buffer.length := rfl
    unfold pwriteAll
    rw [if_neg (hempty hne)]
    rcases file.pwriteOnce_of_transfer offset htransfer with
      ⟨_, written, hwrite, hbytes⟩ | ⟨_, hwrite⟩
    · rw [List.take_length] at hbytes
      rw [hwrite]
      exact ⟨written, [], Or.inl ⟨rfl, hbytes⟩⟩
    · rw [hwrite]
      exact ⟨file, [], Or.inr ⟨rfl, Or.inl rfl⟩⟩
  | cons outcome io ih =>
    unfold pwriteAll
    rw [if_neg (hempty hne)]
    cases htransfer : outcome.transfer buffer.length with
    | none =>
      have hwrite : file.pwriteOnce buffer offset outcome = none := by
        unfold pwriteOnce
        rw [htransfer]
      rw [hwrite]
      exact ⟨file, io, Or.inr ⟨rfl, Or.inl rfl⟩⟩
    | some count =>
      have hcount := Outcome.transfer_le htransfer
      have htake : (buffer.take count).length = count := by
        rw [List.length_take, min_eq_left hcount]
      rcases file.pwriteOnce_of_transfer offset htransfer with
        ⟨_, first, hwrite, hbytes⟩ | ⟨_, hwrite⟩
      · rw [hwrite]
        dsimp only
        have hmerge (more : List UInt8) :
            overwrite 0 first.bytes (offset + count) more =
              overwrite 0 file.bytes offset (buffer.take count ++ more) := by
          rw [hbytes, ← overwrite_overwrite, htake]
        by_cases hrest : buffer.drop count = []
        · have hall : buffer.take count = buffer := by
            rw [← List.take_append_drop count buffer, hrest, List.append_nil, List.take_take,
              min_self]
          rw [hall] at hbytes
          have hdone : first.pwriteAll [] (offset + count) io = (true, first, io) := by
            cases io <;> rfl
          rw [hrest, hdone]
          exact ⟨first, io, Or.inl ⟨rfl, hbytes⟩⟩
        · obtain ⟨written, rest, hall | ⟨hpart, hpartial⟩⟩ :=
            @ih first (buffer.drop count) hrest (offset + count)
          · rw [hmerge, List.take_append_drop] at hall
            exact ⟨written, rest, Or.inl hall⟩
          · refine ⟨written, rest, Or.inr ⟨hpart, Or.inr ?_⟩⟩
            rcases hpartial with rfl | ⟨more, hmore⟩
            · exact ⟨count, hbytes⟩
            · refine ⟨count + more, ?_⟩
              rw [hmore, hmerge, ← List.take_add]
      · rw [hwrite]
        exact ⟨file, io, Or.inr ⟨rfl, Or.inl rfl⟩⟩

/-- A call that does not fail writes a part of the buffer, up to the offset range. -/
theorem File.exists_pwriteOnce (file : File) {buffer : List UInt8} {offset : ℕ}
    (h : offset + buffer.length < offsetLimit) {outcome : Outcome} (houtcome : outcome ≠ .fail) :
    ∃ count first, count ≤ buffer.length ∧
      file.pwriteOnce buffer offset outcome = some (count, first) := by
  obtain ⟨count, htransfer⟩ := Outcome.exists_transfer houtcome buffer.length
  have hcount := Outcome.transfer_le htransfer
  rcases file.pwriteOnce_of_transfer offset htransfer with ⟨_, first, hwrite, _⟩ | ⟨hlimit, _⟩
  · exact ⟨count, first, hcount, hwrite⟩
  · omega

/-- A write loop none of whose calls fails succeeds within the offset range. -/
theorem File.pwriteAll_fst_of_unfailing (file : File) {buffer : List UInt8} {offset : ℕ}
    (h : offset + buffer.length < offsetLimit) {io : Schedule} (hio : io.Unfailing) :
    (file.pwriteAll buffer offset io).1 = true := by
  induction io generalizing file buffer offset with
  | nil =>
    unfold pwriteAll
    split
    · rfl
    · obtain ⟨count, first, _, hwrite⟩ := @exists_pwriteOnce file buffer offset h .full (by decide)
      rw [hwrite]
  | cons outcome io ih =>
    unfold pwriteAll
    split
    · rfl
    · obtain ⟨count, first, hcount, hwrite⟩ :=
        file.exists_pwriteOnce h (hio outcome List.mem_cons_self)
      rw [hwrite]
      refine ih first ?_ (hio.suffix (List.suffix_cons outcome io))
      rw [List.length_drop]
      omega

/-- Without failing calls a buffer is written, up to the offset range. -/
theorem File.pwriteAll_of_unfailing (file : File) {buffer : List UInt8} (hne : buffer ≠ [])
    {offset : ℕ} (h : offset + buffer.length < offsetLimit) {io : Schedule} (hio : io.Unfailing) :
    ∃ written rest, file.pwriteAll buffer offset io = (true, written, rest) ∧
      written.bytes = overwrite 0 file.bytes offset buffer := by
  obtain ⟨written, rest, hall | ⟨hfailed, _⟩⟩ := file.pwriteAll_cases hne offset io
  · exact ⟨written, rest, hall⟩
  · have hdone := file.pwriteAll_fst_of_unfailing h hio
    rw [hfailed] at hdone
    cases hdone

end Posix
