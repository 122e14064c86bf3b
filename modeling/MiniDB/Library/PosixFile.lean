import MiniDB.Library.ByteSequence

/-!
# Files under failing and partial system calls

A file is its byte content, of a size a signed 64-bit offset can express. Positional
reads and writes may fail or move fewer bytes than requested. The environment's
choices are a schedule: every call consumes one outcome, and once the schedule is
used up all further calls succeed in full.
-/

namespace Posix

open ByteSequence

/-- File sizes and offsets lie below this bound, the range of a signed 64-bit `off_t`. -/
def offsetLimit : ℕ := 2 ^ 63

/-- The content of a regular file. -/
@[ext] structure File where
  /-- The bytes of the file, from its beginning. -/
  bytes : List UInt8
  /-- The size of a file is a valid offset. -/
  size_lt : bytes.length < offsetLimit
  deriving DecidableEq

/-- The file with no content. -/
def File.empty : File := ⟨[], by decide⟩

/-- What one system call does: it fails, it stops short after at least one byte, or it
does all that was asked. -/
inductive Outcome
  | fail
  | short (count : ℕ)
  | full
  deriving DecidableEq

/-- The outcomes of the next system calls, in order. -/
abbrev Schedule := List Outcome

/-- The outcome of the next call and the outcomes left after it. -/
def Schedule.next : Schedule → Outcome × Schedule
  | [] => (.full, [])
  | outcome :: io => (outcome, io)

/-- The number of bytes a transfer of `want` bytes moves, or `none` when it fails. A
short transfer moves between one byte and all of them. -/
def Outcome.transfer : Outcome → ℕ → Option ℕ
  | .fail, _ => none
  | .short count, want => some (min want (count + 1))
  | .full, want => some want

/-- A transfer moves no more than was asked. -/
theorem Outcome.transfer_le {outcome : Outcome} {want count : ℕ}
    (h : outcome.transfer want = some count) : count ≤ want := by
  cases outcome <;> simp [transfer] at h <;> omega

/-- A transfer of something moves something. -/
theorem Outcome.transfer_pos {outcome : Outcome} {want count : ℕ}
    (h : outcome.transfer want = some count) (hwant : 0 < want) : 0 < count := by
  cases outcome with
  | fail => cases h
  | short least =>
    cases h
    omega
  | full =>
    cases h
    exact hwant

/-- A call that does not fail transfers. -/
theorem Outcome.exists_transfer {outcome : Outcome} (h : outcome ≠ .fail) (want : ℕ) :
    ∃ count, outcome.transfer want = some count := by
  cases outcome with
  | fail => contradiction
  | short least => exact ⟨_, rfl⟩
  | full => exact ⟨_, rfl⟩

/-- A call that only reports success or failure. -/
def Outcome.succeeds : Outcome → Bool
  | .fail => false
  | _ => true

/-- `pread`: up to `count` bytes of the file from `offset`, or `none` on failure. -/
def File.pread (file : File) (count offset : ℕ) (io : Schedule) :
    Option (List UInt8) × Schedule :=
  let (outcome, io) := io.next
  ((outcome.transfer count).map fun count => (file.bytes.drop offset).take count, io)

/-- Whether a read of `count` bytes is complete, and the outcomes left after it. -/
def readsAll (count : ℕ) (io : Schedule) : Bool × Schedule :=
  let (outcome, io) := io.next
  (outcome.transfer count = some count, io)

/-- No call of a schedule fails. -/
def Schedule.Unfailing (io : Schedule) : Prop := ∀ outcome ∈ io, outcome ≠ .fail

/-- The empty schedule does not fail. -/
theorem Schedule.unfailing_nil : Schedule.Unfailing [] :=
  fun _ houtcome => absurd houtcome List.not_mem_nil

/-- Later calls of a schedule without failures do not fail. -/
theorem Schedule.Unfailing.suffix {io io' : Schedule} (h : io.Unfailing) (hsuffix : io' <:+ io) :
    io'.Unfailing :=
  fun outcome houtcome => h outcome (hsuffix.subset houtcome)

/-- The outcomes left after a call are the later ones. -/
theorem Schedule.next_suffix (io : Schedule) : io.next.2 <:+ io := by
  cases io with
  | nil => exact List.suffix_refl _
  | cons outcome io => exact List.suffix_cons _ _

/-- Without failures the next call succeeds. -/
theorem Schedule.Unfailing.next_ne_fail {io : Schedule} (h : io.Unfailing) :
    io.next.1 ≠ .fail := by
  cases io with
  | nil => exact Outcome.noConfusion
  | cons outcome io => exact h outcome List.mem_cons_self

/-- A complete read inside the file returns the bytes there; any other read fails, as the
schedule has it, or stops short. -/
theorem File.pread_cases (file : File) {count offset : ℕ}
    (h : offset + count ≤ file.bytes.length) (io : Schedule) :
    ((readsAll count io).1 = true ∧ file.pread count offset io =
      (some ((file.bytes.drop offset).take count), (readsAll count io).2)) ∨
    ((readsAll count io).1 = false ∧ ∃ result,
      file.pread count offset io = (result, (readsAll count io).2) ∧
      (result = none ∧ ¬io.Unfailing ∨
        ∃ bytes, result = some bytes ∧ bytes.length < count)) := by
  rcases hnext : io.next with ⟨outcome, io'⟩
  simp only [pread, readsAll, hnext]
  cases htransfer : outcome.transfer count with
  | none =>
    refine Or.inr ⟨by simp, none, rfl, Or.inl ⟨rfl, fun hio => ?_⟩⟩
    obtain ⟨moved, hmoved⟩ := Outcome.exists_transfer hio.next_ne_fail count
    rw [hnext, htransfer] at hmoved
    cases hmoved
  | some moved =>
    have hmoved := Outcome.transfer_le htransfer
    rcases Nat.lt_or_eq_of_le hmoved with hshort | rfl
    · refine Or.inr ⟨?_, _, rfl, Or.inr ⟨_, rfl, ?_⟩⟩
      · simp only [Option.some.injEq, decide_eq_false_iff_not]
        omega
      · rw [List.length_take]
        omega
    · exact Or.inl ⟨by simp, rfl⟩

/-- Without a scheduled outcome reads are complete. -/
@[simp] theorem readsAll_nil (count : ℕ) : readsAll count [] = (true, []) := by
  simp [readsAll, Schedule.next, Outcome.transfer]

/-- Reads use up the outcomes of a schedule in order. -/
theorem readsAll_suffix (count : ℕ) (io : Schedule) : (readsAll count io).2 <:+ io :=
  io.next_suffix

/-- A call that does not fail succeeds. -/
theorem Outcome.succeeds_of_ne {outcome : Outcome} (h : outcome ≠ .fail) :
    outcome.succeeds = true := by
  cases outcome <;> first | rfl | exact absurd rfl h

/-- One `pwrite` with a given outcome: the number of bytes written and the new file, or
`none` on failure. A write past the largest offset fails. -/
def File.pwriteOnce (file : File) (buffer : List UInt8) (offset : ℕ) (outcome : Outcome) :
    Option (ℕ × File) :=
  match outcome.transfer buffer.length with
  | none => none
  | some count =>
    if h : (overwrite 0 file.bytes offset (buffer.take count)).length < offsetLimit then
      some (count, ⟨overwrite 0 file.bytes offset (buffer.take count), h⟩)
    else none

/-- A write loop: `pwrite` is called on what is left of the buffer until nothing is left
or a call fails. Returns whether everything was written. -/
def File.pwriteAll (file : File) (buffer : List UInt8) (offset : ℕ) :
    Schedule → Bool × File × Schedule
  | [] =>
    if buffer.isEmpty then (true, file, [])
    else match file.pwriteOnce buffer offset .full with
      | none => (false, file, [])
      | some (_, file) => (true, file, [])
  | outcome :: io =>
    if buffer.isEmpty then (true, file, outcome :: io)
    else match file.pwriteOnce buffer offset outcome with
      | none => (false, file, io)
      | some (count, file) => file.pwriteAll (buffer.drop count) (offset + count) io

/-- `fsync`: whether the call succeeds. -/
def fsync (io : Schedule) : Bool × Schedule :=
  let (outcome, io) := io.next
  (outcome.succeeds, io)

/-- `ftruncate`: the file cut, or extended with zero bytes, to `size`; a failed call
changes nothing. -/
def File.ftruncate (file : File) (size : ℕ) (io : Schedule) : Bool × File × Schedule :=
  let (outcome, io) := io.next
  if h : size < offsetLimit then
    if outcome.succeeds then
      (true, ⟨file.bytes.take size ++ List.replicate (size - file.bytes.length) 0, by
        simp only [List.length_append, List.length_take, List.length_replicate]; omega⟩, io)
    else (false, file, io)
  else (false, file, io)

/-- A file cut to a prefix of its bytes. -/
theorem File.ftruncate_of_prefix {file : File} {kept : List UInt8} (h : kept <+: file.bytes)
    (io : Schedule) :
    ∃ cut : File, cut.bytes = kept ∧ file.ftruncate kept.length io =
      if io.next.1.succeeds then (true, cut, io.next.2) else (false, file, io.next.2) := by
  have hlimit : kept.length < offsetLimit := Nat.lt_of_le_of_lt h.length_le file.size_lt
  have hbytes : file.bytes.take kept.length ++
      List.replicate (kept.length - file.bytes.length) 0 = kept := by
    rw [Nat.sub_eq_zero_of_le h.length_le, List.replicate_zero, List.append_nil]
    exact (List.prefix_iff_eq_take.mp h).symm
  refine ⟨⟨kept, hlimit⟩, rfl, ?_⟩
  unfold ftruncate
  dsimp only
  rw [dif_pos hlimit]
  simp only [hbytes]

/-- The number of bytes a write loop over `length` bytes at `offset` transfers before it
ends and the outcomes it leaves, a function of the schedule alone. -/
def transferred (length offset : ℕ) : Schedule → ℕ × Schedule
  | [] => (if offset + length < offsetLimit then length else 0, [])
  | outcome :: io =>
    if length = 0 then (0, outcome :: io)
    else match outcome.transfer length with
      | none => (0, io)
      | some count =>
        if offset + count < offsetLimit then
          let (rest, io) := transferred (length - count) (offset + count) io
          (count + rest, io)
        else (0, io)

/-- A write loop never transfers more than its buffer. -/
theorem transferred_le (length offset : ℕ) (io : Schedule) :
    (transferred length offset io).1 ≤ length := by
  induction io generalizing length offset with
  | nil => simp only [transferred]; split <;> omega
  | cons outcome io ih =>
    simp only [transferred]
    split
    · omega
    · cases htransfer : outcome.transfer length with
      | none => simp
      | some count =>
        have hcount := Outcome.transfer_le htransfer
        have hrest := ih (length - count) (offset + count)
        dsimp only
        split <;> dsimp only <;> omega

/-- One write either lays the transferred bytes over the file or exceeds the offset range. -/
theorem File.pwriteOnce_of_transfer (file : File) {buffer : List UInt8} (offset : ℕ) {count : ℕ}
    {outcome : Outcome} (htransfer : outcome.transfer buffer.length = some count) :
    (offset + count < offsetLimit ∧ ∃ written : File,
      file.pwriteOnce buffer offset outcome = some (count, written) ∧
      written.bytes = overwrite 0 file.bytes offset (buffer.take count)) ∨
    (offsetLimit ≤ offset + count ∧ file.pwriteOnce buffer offset outcome = none) := by
  have hcount := Outcome.transfer_le htransfer
  have hlength : (overwrite 0 file.bytes offset (buffer.take count)).length =
      max file.bytes.length (offset + count) := by
    rw [overwrite_length, List.length_take, min_eq_left hcount]
  have hsize := file.size_lt
  simp only [pwriteOnce, htransfer]
  by_cases hlimit : offset + count < offsetLimit
  · have hfits : (overwrite 0 file.bytes offset (buffer.take count)).length < offsetLimit := by
      omega
    rw [dif_pos hfits]
    exact Or.inl ⟨hlimit, _, rfl, rfl⟩
  · rw [dif_neg (by omega)]
    exact Or.inr ⟨by omega, rfl⟩

/-- A write loop lays the transferred part of its buffer over the file, and succeeds
exactly when that part is the whole buffer. -/
theorem File.pwriteAll_spec {file : File} {buffer : List UInt8} {offset : ℕ}
    (hoffset : offset ≤ file.bytes.length) (io : Schedule) :
    ∃ written : File,
      file.pwriteAll buffer offset io =
        (decide ((transferred buffer.length offset io).1 = buffer.length), written,
          (transferred buffer.length offset io).2) ∧
      written.bytes =
        overwrite 0 file.bytes offset (buffer.take (transferred buffer.length offset io).1) := by
  induction io generalizing file buffer offset with
  | nil =>
    cases buffer with
    | nil => exact ⟨file, by simp [pwriteAll, transferred], by simp [overwrite_nil 0 hoffset]⟩
    | cons byte buffer =>
      have hnonempty : ¬(byte :: buffer).isEmpty = true := by simp
      have htransfer : Outcome.full.transfer (byte :: buffer).length =
          some (byte :: buffer).length := rfl
      rcases file.pwriteOnce_of_transfer offset htransfer with
        ⟨hlimit, written, hwrite, hbytes⟩ | ⟨hlimit, hwrite⟩
      · refine ⟨written, ?_, ?_⟩
        · rw [pwriteAll, if_neg hnonempty, hwrite, transferred, if_pos hlimit, decide_eq_true rfl]
        · rw [transferred, if_pos hlimit, hbytes]
      · refine ⟨file, ?_, ?_⟩
        · rw [pwriteAll, if_neg hnonempty, hwrite, transferred, if_neg (Nat.not_lt.mpr hlimit)]
          simp
        · rw [transferred, if_neg (Nat.not_lt.mpr hlimit), List.take_zero, overwrite_nil 0 hoffset]
  | cons outcome io ih =>
    cases buffer with
    | nil => exact ⟨file, by simp [pwriteAll, transferred], by simp [overwrite_nil 0 hoffset]⟩
    | cons byte buffer =>
      have hnonempty : ¬(byte :: buffer).length = 0 := by simp
      cases htransfer : outcome.transfer (byte :: buffer).length with
      | none =>
        refine ⟨file, ?_, ?_⟩
        · simp only [pwriteAll, transferred, pwriteOnce, htransfer, if_neg hnonempty]
          simp
        · simp only [transferred, htransfer, if_neg hnonempty, List.take_zero,
            overwrite_nil 0 hoffset]
      | some count =>
        have hcount := Outcome.transfer_le htransfer
        have htake : ((byte :: buffer).take count).length = count := by
          rw [List.length_take, min_eq_left hcount]
        rcases file.pwriteOnce_of_transfer offset htransfer with
          ⟨hlimit, written, hwrite, hbytes⟩ | ⟨hlimit, hwrite⟩
        · have hinside : offset + count ≤ written.bytes.length := by
            rw [hbytes, overwrite_length, htake]
            omega
          have hstep : file.pwriteAll (byte :: buffer) offset (outcome :: io) =
              written.pwriteAll ((byte :: buffer).drop count) (offset + count) io := by
            rw [pwriteAll, hwrite]
            rfl
          have hmerge (rest : List UInt8) := overwrite_overwrite (0 : UInt8) file.bytes offset
            ((byte :: buffer).take count) rest
          rw [htake] at hmerge
          obtain ⟨final, hrest, hfinal⟩ := @ih written ((byte :: buffer).drop count)
            (offset + count) hinside
          rw [List.length_drop] at hrest hfinal
          have htransferred : transferred (byte :: buffer).length offset (outcome :: io) =
              (count + (transferred ((byte :: buffer).length - count) (offset + count) io).1,
                (transferred ((byte :: buffer).length - count) (offset + count) io).2) := by
            simp only [transferred, htransfer, if_pos hlimit, if_neg hnonempty]
          refine ⟨final, ?_, ?_⟩
          · rw [hstep, htransferred, hrest]
            have hiff : (transferred ((byte :: buffer).length - count) (offset + count) io).1 =
                (byte :: buffer).length - count ↔
                count + (transferred ((byte :: buffer).length - count) (offset + count) io).1 =
                  (byte :: buffer).length := by
              omega
            rw [decide_eq_decide.mpr hiff]
          · rw [hfinal, hbytes, hmerge, htransferred, ← List.take_add]
        · refine ⟨file, ?_, ?_⟩
          · simp only [pwriteAll, transferred, hwrite, htransfer, if_neg hnonempty,
              if_neg (Nat.not_lt.mpr hlimit)]
            simp
          · simp only [transferred, htransfer, if_neg hnonempty, if_neg (Nat.not_lt.mpr hlimit),
              List.take_zero, overwrite_nil 0 hoffset]

/-- Without a scheduled outcome everything is written, up to the offset range. -/
theorem transferred_nil {length offset : ℕ} (h : offset + length < offsetLimit) :
    transferred length offset [] = (length, []) := by
  rw [transferred, if_pos h]

end Posix
