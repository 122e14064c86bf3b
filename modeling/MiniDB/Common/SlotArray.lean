import MiniDB.Common.FileIO
import MiniDB.Library.Refinement
import Mathlib.Data.List.Induction
import Mathlib.Logic.Function.Basic

/-!
# A slot file is an array

As long as no system call fails, a slot file is an array of payloads: a write that fits replaces
one payload, any other write changes nothing, and a slot that was never written has no payload,
wherever it lies.
-/

namespace MiniDB.Common.FileIO

open Memory Posix ByteSequence Refinement

/-- The payloads of the slots that have one. -/
abbrev SlotArray := UInt64 → Option (List UInt8)

/-- One call of `writeSlot`. -/
structure SlotWrite where
  /-- The slot written. -/
  slotIndex : UInt64
  /-- The bytes stored. -/
  payload : List UInt8
  /-- What the system calls do. -/
  io : Schedule

namespace SlotWrite

/-- Whether the payload and its length prefix fit a slot. -/
def Fits (slotSize : UInt32) (write : SlotWrite) : Prop :=
  write.payload.length + LENGTH_SIZE ≤ slotSize.toNat

instance (slotSize : UInt32) (write : SlotWrite) : Decidable (write.Fits slotSize) :=
  inferInstanceAs (Decidable (_ ≤ _))

/-- A payload that is not empty is written to a slot within the range of offsets, and no system
call fails. -/
structure Sound (slotSize : UInt32) (write : SlotWrite) : Prop where
  /-- The payload is not empty. -/
  nonempty : write.payload ≠ []
  /-- The slot lies within the range of offsets. -/
  within : write.slotIndex.toNat * slotSize.toNat + slotSize.toNat < offsetLimit
  /-- No system call fails. -/
  unfailing : write.io.Unfailing

/-- What a write should report. -/
def verdict (slotSize : UInt32) (write : SlotWrite) : Status :=
  if write.Fits slotSize then .OK else .OUT_OF_MEMORY

/-- What a write should do to the array. -/
def store (slotSize : UInt32) (array : SlotArray) (write : SlotWrite) : SlotArray :=
  if write.Fits slotSize then Function.update array write.slotIndex (some write.payload) else array

end SlotWrite

/-- One write to a file. -/
def writeCall (path : String) (slotSize : UInt32) (files : Files) (write : SlotWrite) :
    Except Fault (Status × Files) :=
  writeSlot files path write.slotIndex slotSize write.payload write.io

/-- The payload of the last write to a slot that fits, if there is one. -/
def lastStored (slotSize : UInt32) (writes : List SlotWrite) (slotIndex : UInt64) :
    Option (List UInt8) :=
  (writes.filter fun write => write.slotIndex = slotIndex ∧ write.Fits slotSize).getLast?.map
    SlotWrite.payload

/-- A file holds the payloads of an array, and zero bytes in the slots without one. -/
def Represents (path : String) (slotSize : UInt32) (files : Files) (array : SlotArray) : Prop :=
  ∀ slotIndex : UInt64, match array slotIndex with
    | some payload =>
      payloadAt slotSize (bytesIn files path) (slotIndex.toNat * slotSize.toNat) = some payload
    | none =>
      window 0 (bytesIn files path) (slotIndex.toNat * slotSize.toNat) slotSize.toNat =
        List.replicate slotSize.toNat 0

/-- Different slots do not overlap. -/
theorem slots_disjoint {i j : ℕ} (hne : i ≠ j) (size : ℕ) :
    i * size + size ≤ j * size ∨ j * size + size ≤ i * size := by
  rcases Nat.lt_or_gt_of_ne hne with hlt | hlt
  · left
    rw [← Nat.succ_mul]
    exact Nat.mul_le_mul_right size hlt
  · right
    rw [← Nat.succ_mul]
    exact Nat.mul_le_mul_right size hlt

/-- Storing one more write changes what was stored last in its slot only, and only if it fits. -/
theorem lastStored_concat (slotSize : UInt32) (writes : List SlotWrite) (write : SlotWrite) :
    lastStored slotSize (writes ++ [write]) =
      write.store slotSize (lastStored slotSize writes) := by
  funext slotIndex
  unfold lastStored SlotWrite.store
  rw [List.filter_append]
  by_cases hfits : write.Fits slotSize
  · rw [if_pos hfits, Function.update_apply]
    by_cases hslot : slotIndex = write.slotIndex
    · subst hslot
      simp [hfits]
    · have hother : ¬write.slotIndex = slotIndex := fun h => hslot h.symm
      simp [hslot, hother]
  · rw [if_neg hfits]
    simp [hfits]

/-- What was stored last is what the writes do to an array one after the other. -/
theorem lastStored_eq_foldl (slotSize : UInt32) (writes : List SlotWrite) :
    lastStored slotSize writes = writes.foldl (SlotWrite.store slotSize) fun _ => none := by
  induction writes using List.reverseRecOn with
  | nil => rfl
  | append_singleton writes write ih =>
    rw [lastStored_concat, ih, List.foldl_append]
    rfl

/-- The offset of a slot within the range of offsets. -/
theorem slotOffset_of_within {slotIndex : UInt64} {slotSize : UInt32} (hsize : 0 < slotSize.toNat)
    (h : slotIndex.toNat * slotSize.toNat < offsetLimit) :
    slotOffset slotIndex slotSize = .ok (Int.ofNat (slotIndex.toNat * slotSize.toNat)) :=
  slotOffset_of_lt h (lt_of_le_of_lt (Nat.le_mul_of_pos_right _ hsize) h)

section Slots

variable {path : String} {slotSize : UInt32} {files : Files} {array : SlotArray}

/-- A file that does not exist represents the empty array. -/
theorem represents_missing (hmissing : files.get? path = none) :
    Represents path slotSize files fun _ => none := by
  have hbytes : bytesIn files path = [] := by
    unfold bytesIn
    rw [hmissing]
    rfl
  intro slotIndex
  dsimp only
  rw [hbytes]
  apply window_of_blank
  rw [List.drop_nil]
  exact fun _ hmem => absurd hmem List.not_mem_nil

/-- Laying a slot over a file that represents an array replaces one payload. -/
theorem Represents.overwrite (h : Represents path slotSize files array) {file : File}
    {slotIndex : UInt64} {payload : List UInt8} (hne : payload ≠ [])
    (hfits : payload.length + LENGTH_SIZE ≤ slotSize.toNat)
    (hbytes : file.bytes = ByteSequence.overwrite 0 (bytesIn files path)
      (slotIndex.toNat * slotSize.toNat) (slotBytes slotSize payload)) :
    Represents path slotSize (files.put path file)
      (Function.update array slotIndex (some payload)) := by
  intro other
  rw [bytesIn_put, hbytes]
  by_cases hslot : other = slotIndex
  · subst hslot
    rw [Function.update_self]
    exact payloadAt_overwrite_self hne hfits _ _
  · have hindex : other.toNat ≠ slotIndex.toNat := fun heq => hslot (UInt64.toNat_inj.mp heq)
    have hdisjoint := slots_disjoint hindex slotSize.toNat
    have hlength := slotBytes_length hfits
    have hother := h other
    rw [Function.update_of_ne hslot]
    cases harray : array other with
    | some kept =>
      rw [harray] at hother
      exact payloadAt_overwrite_of_disjoint hother (by omega)
    | none =>
      rw [harray] at hother
      dsimp only at hother ⊢
      rw [window_overwrite_of_disjoint 0 _ (by omega)]
      exact hother

/-- A write reports what it should and does to the array what it should. -/
theorem Represents.write (h : Represents path slotSize files array)
    (hsize : LENGTH_SIZE ≤ slotSize.toNat) {write : SlotWrite} (hsound : write.Sound slotSize) :
    ∃ files', writeCall path slotSize files write = .ok (write.verdict slotSize, files') ∧
      Represents path slotSize files' (write.store slotSize array) := by
  unfold writeCall SlotWrite.verdict SlotWrite.store
  by_cases hfits : write.Fits slotSize
  · rw [if_pos hfits, if_pos hfits]
    have hpositive := LENGTH_SIZE_pos
    have hwithin := hsound.within
    have hoffset := @slotOffset_of_within write.slotIndex slotSize (by omega) (by omega)
    obtain ⟨file, hwrite, hbytes⟩ :=
      @writeSlot_of_unfailing files path _ _ _ _ hoffset hfits hwithin _ hsound.unfailing
    exact ⟨files.put path file, hwrite, h.overwrite hsound.nonempty hfits hbytes⟩
  · rw [if_neg hfits, if_neg hfits]
    exact ⟨files, writeSlot_of_large (Nat.lt_of_not_le hfits) files path _ _, h⟩

/-- Writes report what they should and do to the array what they should. -/
theorem Represents.writes (h : Represents path slotSize files array)
    (hsize : LENGTH_SIZE ≤ slotSize.toNat) {writes : List SlotWrite}
    (hsound : ∀ write ∈ writes, write.Sound slotSize) :
    ∃ files', run (writeCall path slotSize) files writes =
        .ok (writes.map (SlotWrite.verdict slotSize), files') ∧
      Represents path slotSize files' (writes.foldl (SlotWrite.store slotSize) array) := by
  induction writes generalizing files array with
  | nil => exact ⟨files, rfl, h⟩
  | cons write writes ih =>
    rw [List.forall_mem_cons] at hsound
    obtain ⟨files₁, hwrite, h₁⟩ := h.write hsize hsound.1
    obtain ⟨files', hrun, h'⟩ := ih h₁ hsound.2
    refine ⟨files', ?_, h'⟩
    rw [run_cons hwrite, hrun]
    rfl

/-- A read returns the payload of the array. -/
theorem Represents.read (h : Represents path slotSize files array)
    (hsize : LENGTH_SIZE ≤ slotSize.toNat) {slotIndex : UInt64}
    (hwithin : slotIndex.toNat * slotSize.toNat < offsetLimit) {io : Schedule}
    (hio : io.Unfailing) :
    readSlot files path slotIndex slotSize io =
      .ok (match array slotIndex with
        | some payload => (.OK, payload)
        | none => (.NOT_FOUND, [])) := by
  have hpositive := LENGTH_SIZE_pos
  rw [readSlot_of_unfailing hsize (slotOffset_of_within (by omega) hwithin) hio]
  have hslot := h slotIndex
  cases harray : array slotIndex with
  | some payload =>
    rw [harray] at hslot
    exact congrArg Except.ok (slotAt_eq_ok.mpr hslot)
  | none =>
    rw [harray] at hslot
    exact congrArg Except.ok (slotAt_of_zero hslot)

end Slots

/-- A slot file that starts out missing is an array: writes to it without failing system calls
succeed exactly if their payload fits and change nothing otherwise, and afterwards a read returns
the payload of the last write to the slot that fits, or finds none. -/
theorem slot_file_is_array {path : String} {slotSize : UInt32}
    (hsize : LENGTH_SIZE ≤ slotSize.toNat) {files : Files} (hmissing : files.get? path = none)
    {writes : List SlotWrite} (hsound : ∀ write ∈ writes, write.Sound slotSize) :
    ∃ files', run (writeCall path slotSize) files writes =
        .ok (writes.map (SlotWrite.verdict slotSize), files') ∧
      (∀ write : SlotWrite, ¬write.Fits slotSize →
        writeCall path slotSize files' write = .ok (.OUT_OF_MEMORY, files')) ∧
      ∀ (slotIndex : UInt64) (io : Schedule),
        slotIndex.toNat * slotSize.toNat < offsetLimit → io.Unfailing →
        readSlot files' path slotIndex slotSize io =
          .ok (match lastStored slotSize writes slotIndex with
            | some payload => (.OK, payload)
            | none => (.NOT_FOUND, [])) := by
  obtain ⟨files', hrun, h'⟩ := (represents_missing hmissing).writes hsize hsound
  rw [← lastStored_eq_foldl] at h'
  refine ⟨files', hrun, fun write hlarge => ?_, fun slotIndex io => ?_⟩
  · exact writeSlot_of_large (Nat.lt_of_not_le hlarge) files' path _ _
  · exact fun hwithin hio => h'.read hsize hwithin hio

/-- Two slots are written behind one that is not, the second over a longer payload. -/
theorem slot_file_is_array_gap :
    ∃ files', run (writeCall "people.pages" 16) FiniteMap.empty
        [⟨2, [1, 2, 3], [.full, .short 0]⟩, ⟨1, [4], []⟩, ⟨2, [5], []⟩] =
          .ok ([.OK, .OK, .OK], files') ∧
      readSlot files' "people.pages" 0 16 [.short 0] = .ok (.NOT_FOUND, []) ∧
      readSlot files' "people.pages" 2 16 [] = .ok (.OK, [5]) := by
  have hshort : Schedule.Unfailing [.full, .short 0] := by simp [Schedule.Unfailing]
  have hsound : ∀ write ∈ ([⟨2, [1, 2, 3], [.full, .short 0]⟩, ⟨1, [4], []⟩, ⟨2, [5], []⟩] :
      List SlotWrite), write.Sound 16 := by
    intro write hwrite
    simp only [List.mem_cons, List.not_mem_nil, or_false] at hwrite
    rcases hwrite with rfl | rfl | rfl
    · exact ⟨List.cons_ne_nil _ _, by decide, hshort⟩
    · exact ⟨List.cons_ne_nil _ _, by decide, Schedule.unfailing_nil⟩
    · exact ⟨List.cons_ne_nil _ _, by decide, Schedule.unfailing_nil⟩
  obtain ⟨files', hrun, _, hread⟩ := @slot_file_is_array "people.pages" 16 (by decide)
    FiniteMap.empty rfl _ hsound
  exact ⟨files', hrun, hread 0 [.short 0] (by decide) (hshort.suffix (List.suffix_cons _ _)),
    hread 2 [] (by decide) Schedule.unfailing_nil⟩

end MiniDB.Common.FileIO
