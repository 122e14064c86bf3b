import MiniDB.Common.Type
import MiniDB.Library.FiniteMap
import MiniDB.Library.Memory
import MiniDB.Library.PosixTransfer
import Mathlib.Order.MinMax

/-!
# Slot files

`FileIO.h`: a file of slots of one size, each a length prefix, a payload and zero bytes up
to the size. A write that fails can leave any part of its slot written, but neither a
successful nor a failed write reaches the payload of another slot.
-/

namespace MiniDB.Common.FileIO

open Memory Posix ByteSequence

/-- The files that exist, by path. Different paths are different files. -/
abbrev Files := FiniteMap String File

/-- Size of the length prefix of a slot. -/
abbrev LENGTH_SIZE : ℕ := 4

/-- A length prefix is not empty. -/
theorem LENGTH_SIZE_pos : 0 < LENGTH_SIZE := by decide

/-- The offset of a slot, a product in `off_t`. -/
def slotOffset (slotIndex : UInt64) (slotSize : UInt32) : Except Fault ℤ :=
  let offset := Int.bmod slotIndex.toNat (2 ^ 64) * slotSize.toNat
  if -2 ^ 63 ≤ offset ∧ offset < 2 ^ 63 then .ok offset else .error .undefined

/-- The bytes of a slot with a payload. -/
def slotBuffer (slotSize : UInt32) (payload : List UInt8) : Except Fault (List UInt8) := do
  let buf := List.replicate slotSize.toNat 0
  let len := UInt32.ofNat payload.length
  let buf ← copyIn buf 0 (littleEndian LENGTH_SIZE len.toNat)
  copyIn buf LENGTH_SIZE payload

/-- The system calls of `writeSlot`: a missing file is created. Writing at a negative offset
fails. -/
def writeBuffer (files : Files) (path : String) (slotIndex : UInt64) (slotSize : UInt32)
    (buf : List UInt8) (io : Schedule) : Except Fault (Status × Files) :=
  match openCall io with
  | (false, _) => return (.IO_ERROR, files)
  | (true, io) => do
    let file := (files.get? path).getD File.empty
    match ← slotOffset slotIndex slotSize with
    | .negSucc _ => return (.IO_ERROR, files.put path file)
    | .ofNat offset =>
      match file.pwriteAll buf offset io with
      | (false, file, _) => return (.IO_ERROR, files.put path file)
      | (true, file, _) => return (.OK, files.put path file)

/-- `writeSlot`. -/
def writeSlot (files : Files) (path : String) (slotIndex : UInt64) (slotSize : UInt32)
    (payload : List UInt8) (io : Schedule) : Except Fault (Status × Files) := do
  if slotSize.toNat < payload.length + LENGTH_SIZE then return (.OUT_OF_MEMORY, files)
  writeBuffer files path slotIndex slotSize (← slotBuffer slotSize payload) io

/-- What `readSlot` makes of the bytes it has read and of its output parameter. -/
def parseSlotInto (slotSize : UInt32) (bytes outPayload : List UInt8) :
    Except Fault (Status × List UInt8) := do
  let buf ← copyIn (List.replicate slotSize.toNat 0) 0 bytes
  if bytes.length < LENGTH_SIZE then return (.NOT_FOUND, outPayload)
  let len := ofLittleEndian (← copyOut buf 0 LENGTH_SIZE)
  if len = 0 then return (.NOT_FOUND, outPayload)
  if slotSize.toNat < len + LENGTH_SIZE then return (.PARSE_ERROR, outPayload)
  return (.OK, ← copyOut buf LENGTH_SIZE len)

/-- `readSlot` with the content of its output parameter, which only a success replaces: opening a
missing file fails, and so does reading at a negative offset. -/
def readSlotInto (files : Files) (path : String) (slotIndex : UInt64) (slotSize : UInt32)
    (outPayload : List UInt8) (io : Schedule) : Except Fault (Status × List UInt8) :=
  match files.get? path, openCall io with
  | some file, (true, io) => do
    match ← slotOffset slotIndex slotSize with
    | .negSucc _ => return (.IO_ERROR, outPayload)
    | .ofNat offset =>
      match file.preadAll slotSize.toNat offset io with
      | none => return (.IO_ERROR, outPayload)
      | some bytes => parseSlotInto slotSize bytes outPayload
  | _, _ => .ok (.NOT_FOUND, outPayload)

/-- What `readSlot` makes of the bytes it has read if its output parameter is empty. -/
def parseSlot (slotSize : UInt32) (bytes : List UInt8) : Except Fault (Status × List UInt8) :=
  parseSlotInto slotSize bytes []

/-- `readSlot` into an empty string. -/
def readSlot (files : Files) (path : String) (slotIndex : UInt64) (slotSize : UInt32)
    (io : Schedule) : Except Fault (Status × List UInt8) :=
  readSlotInto files path slotIndex slotSize [] io

/-- A read in terms of the bytes that it parses. -/
theorem readSlot_eq (files : Files) (path : String) (slotIndex : UInt64) (slotSize : UInt32)
    (io : Schedule) : readSlot files path slotIndex slotSize io =
      match files.get? path, openCall io with
      | some file, (true, io) => do
        match ← slotOffset slotIndex slotSize with
        | .negSucc _ => return (.IO_ERROR, [])
        | .ofNat offset =>
          match file.preadAll slotSize.toNat offset io with
          | none => return (.IO_ERROR, [])
          | some bytes => parseSlot slotSize bytes
      | _, _ => .ok (.NOT_FOUND, []) := rfl

/-- The payload that the slot at an offset of a file holds. -/
def payloadAt (slotSize : UInt32) (bytes : List UInt8) (offset : ℕ) : Option (List UInt8) :=
  let buf := window 0 bytes offset slotSize.toNat
  let len := ofLittleEndian (buf.take LENGTH_SIZE)
  if bytes.length < offset + LENGTH_SIZE ∨ len = 0 ∨ slotSize.toNat < len + LENGTH_SIZE then none
  else some ((buf.drop LENGTH_SIZE).take len)

/-- The bytes of a file; one that does not exist has none. -/
def bytesIn (files : Files) (path : String) : List UInt8 :=
  ((files.get? path).getD File.empty).bytes

/-- The bytes of a file that was stored. -/
theorem bytesIn_put (files : Files) (path : String) (file : File) :
    bytesIn (files.put path file) path = file.bytes := by
  unfold bytesIn
  rw [FiniteMap.get?_put, if_pos rfl, Option.getD_some]

/-- The payload of a slot of a file that may not exist. -/
def payloadIn (slotSize : UInt32) (files : Files) (path : String) (offset : ℕ) :
    Option (List UInt8) :=
  (files.get? path).bind fun file => payloadAt slotSize file.bytes offset

/-- Bytes copied to the start of a zeroed buffer are a window. -/
private theorem overwrite_replicate (bytes : List UInt8) {offset size : ℕ} :
    overwrite 0 (List.replicate size 0) 0 ((bytes.drop offset).take size) =
      window 0 bytes offset size := by
  rw [overwrite_of_le 0 _ (Nat.zero_le _), List.take_zero, List.nil_append, Nat.zero_add]
  unfold window
  rw [List.drop_replicate, List.length_take, List.length_drop]
  congr 2
  omega

/-- What `readSlot` makes of a buffer that holds a whole length prefix. -/
def parseBuffer (slotSize : UInt32) (buf : List UInt8) : Status × List UInt8 :=
  let len := ofLittleEndian (buf.take LENGTH_SIZE)
  if len = 0 then (.NOT_FOUND, [])
  else if slotSize.toNat < len + LENGTH_SIZE then (.PARSE_ERROR, [])
  else (.OK, (buf.drop LENGTH_SIZE).take len)

/-- What the slot at an offset of a file is read as. -/
def slotAt (slotSize : UInt32) (bytes : List UInt8) (offset : ℕ) : Status × List UInt8 :=
  if bytes.length < offset + LENGTH_SIZE then (.NOT_FOUND, [])
  else parseBuffer slotSize (window 0 bytes offset slotSize.toNat)

/-- Parsing the bytes of a slot reads the slot. -/
theorem parseSlot_eq {slotSize : UInt32} (hsize : LENGTH_SIZE ≤ slotSize.toNat)
    (bytes : List UInt8) (offset : ℕ) :
    parseSlot slotSize ((bytes.drop offset).take slotSize.toNat) =
      .ok (slotAt slotSize bytes offset) := by
  have hlength : ((bytes.drop offset).take slotSize.toNat).length =
      min slotSize.toNat (bytes.length - offset) := by
    rw [List.length_take, List.length_drop]
  have hcopy : copyIn (List.replicate slotSize.toNat 0) 0
      ((bytes.drop offset).take slotSize.toNat) =
        .ok (window 0 bytes offset slotSize.toNat) := by
    unfold copyIn
    rw [if_pos (by rw [hlength, List.length_replicate]; omega), overwrite_replicate]
  have hprefix : copyOut (window 0 bytes offset slotSize.toNat) 0 LENGTH_SIZE =
      .ok ((window 0 bytes offset slotSize.toNat).take LENGTH_SIZE) :=
    copyOut_of_le (by rw [window_length, Nat.zero_add]; exact hsize)
  have hpositive := LENGTH_SIZE_pos
  unfold parseSlot parseSlotInto slotAt parseBuffer
  rw [hcopy]
  change (if _ then _ else _) = _
  dsimp only
  by_cases hshort : bytes.length < offset + LENGTH_SIZE
  · rw [if_pos (by omega), if_pos hshort]
    rfl
  · rw [if_neg (by omega), if_neg hshort, hprefix]
    change (if _ then _ else _) = _
    by_cases hzero : ofLittleEndian ((window 0 bytes offset slotSize.toNat).take LENGTH_SIZE) = 0
    · rw [if_pos hzero, if_pos hzero]
      rfl
    · rw [if_neg hzero, if_neg hzero]
      by_cases hlarge : slotSize.toNat <
          ofLittleEndian ((window 0 bytes offset slotSize.toNat).take LENGTH_SIZE) + LENGTH_SIZE
      · rw [if_pos hlarge, if_pos hlarge]
        rfl
      · rw [if_neg hlarge, if_neg hlarge, copyOut_of_le (by rw [window_length]; omega)]
        rfl

/-- A slot is read the same way in files that show the same bytes there and both reach behind its
length prefix or both do not. -/
theorem slotAt_congr {slotSize : UInt32} {bytes bytes' : List UInt8} {offset : ℕ}
    (hwindow : window 0 bytes' offset slotSize.toNat = window 0 bytes offset slotSize.toNat)
    (hlength : bytes'.length < offset + LENGTH_SIZE ↔ bytes.length < offset + LENGTH_SIZE) :
    slotAt slotSize bytes' offset = slotAt slotSize bytes offset := by
  unfold slotAt
  rw [hwindow]
  simp only [hlength]

/-- A slot that shows only zero bytes is read as one that was never written. -/
theorem slotAt_of_zero {slotSize : UInt32} {bytes : List UInt8} {offset : ℕ}
    (h : window 0 bytes offset slotSize.toNat = List.replicate slotSize.toNat 0) :
    slotAt slotSize bytes offset = (.NOT_FOUND, []) := by
  unfold slotAt parseBuffer
  rw [h, List.take_replicate, ofLittleEndian_replicate_zero, if_pos rfl, ite_self]

/-- A slot is read as a payload exactly if it holds it. -/
theorem slotAt_eq_ok {slotSize : UInt32} {bytes payload : List UInt8} {offset : ℕ} :
    slotAt slotSize bytes offset = (.OK, payload) ↔
      payloadAt slotSize bytes offset = some payload := by
  unfold slotAt parseBuffer payloadAt
  dsimp only
  by_cases hshort : bytes.length < offset + LENGTH_SIZE
  · simp [hshort]
  · by_cases hzero : ofLittleEndian ((window 0 bytes offset slotSize.toNat).take LENGTH_SIZE) = 0
    · simp [hshort, hzero]
    · by_cases hlarge : slotSize.toNat <
          ofLittleEndian ((window 0 bytes offset slotSize.toNat).take LENGTH_SIZE) + LENGTH_SIZE
      · simp [hshort, hzero, hlarge]
      · simp [hshort, hzero, hlarge]

/-- The payload of a slot of a file is the one that its bytes hold. -/
theorem payloadIn_eq (slotSize : UInt32) (files : Files) (path : String) (offset : ℕ) :
    payloadIn slotSize files path offset = payloadAt slotSize (bytesIn files path) offset := by
  unfold payloadIn bytesIn
  cases files.get? path with
  | none =>
    have hshort : File.empty.bytes.length < offset + LENGTH_SIZE :=
      Nat.lt_of_lt_of_le (by decide) (Nat.le_add_left LENGTH_SIZE offset)
    unfold payloadAt
    dsimp only
    rw [Option.getD_none, if_pos (Or.inl hshort)]
    rfl
  | some file => rfl

/-- Parsing the bytes of a slot finds its payload, if it holds one. -/
theorem parseSlot_eq_ok {slotSize : UInt32} (hsize : LENGTH_SIZE ≤ slotSize.toNat)
    {bytes payload : List UInt8} {offset : ℕ} :
    parseSlot slotSize ((bytes.drop offset).take slotSize.toNat) = .ok (.OK, payload) ↔
      payloadAt slotSize bytes offset = some payload := by
  rw [parseSlot_eq hsize, Except.ok.injEq, slotAt_eq_ok]

/-- A write next to a slot leaves its payload. -/
theorem payloadAt_overwrite_of_disjoint {slotSize : UInt32} {bytes payload data : List UInt8}
    {start offset : ℕ} (h : payloadAt slotSize bytes start = some payload)
    (hdisjoint : start + slotSize.toNat ≤ offset ∨ offset + data.length ≤ start) :
    payloadAt slotSize (overwrite 0 bytes offset data) start = some payload := by
  unfold payloadAt at h ⊢
  dsimp only at h ⊢
  rw [window_overwrite_of_disjoint 0 bytes hdisjoint, overwrite_length]
  split at h
  · cases h
  · rename_i hholds
    rw [if_neg (by omega)]
    exact h

/-- A slot with a payload: the length, the payload, and zero bytes. -/
def slotBytes (slotSize : UInt32) (payload : List UInt8) : List UInt8 :=
  littleEndian LENGTH_SIZE payload.length ++ payload ++
    List.replicate (slotSize.toNat - LENGTH_SIZE - payload.length) 0

theorem slotBytes_length {slotSize : UInt32} {payload : List UInt8}
    (hfits : payload.length + LENGTH_SIZE ≤ slotSize.toNat) :
    (slotBytes slotSize payload).length = slotSize.toNat := by
  simp only [slotBytes, List.length_append, littleEndian_length, List.length_replicate]
  omega

/-- The buffer of a slot is filled with the bytes of the slot. -/
theorem slotBuffer_eq {slotSize : UInt32} {payload : List UInt8}
    (hfits : payload.length + LENGTH_SIZE ≤ slotSize.toNat) :
    slotBuffer slotSize payload = .ok (slotBytes slotSize payload) := by
  have hsize := slotSize.toNat_lt
  have hlen : (UInt32.ofNat payload.length).toNat = payload.length := by
    rw [UInt32.toNat_ofNat', Nat.mod_eq_of_lt (by omega)]
  have hfirst := @copyIn_append [] (List.replicate slotSize.toNat 0)
    (littleEndian LENGTH_SIZE payload.length) (by simp; omega)
  have hsecond := @copyIn_append (littleEndian LENGTH_SIZE payload.length)
    (List.replicate (slotSize.toNat - LENGTH_SIZE) 0) payload (by simp; omega)
  rw [List.nil_append, List.nil_append, List.length_nil, littleEndian_length,
    List.drop_replicate] at hfirst
  rw [littleEndian_length, List.drop_replicate] at hsecond
  unfold slotBuffer
  dsimp only
  rw [hlen, hfirst]
  exact hsecond

/-- A written slot holds its payload. -/
theorem payloadAt_overwrite_self {slotSize : UInt32} {payload : List UInt8} (hne : payload ≠ [])
    (hfits : payload.length + LENGTH_SIZE ≤ slotSize.toNat) (bytes : List UInt8) (offset : ℕ) :
    payloadAt slotSize (overwrite 0 bytes offset (slotBytes slotSize payload)) offset =
      some payload := by
  have hsize := slotSize.toNat_lt
  have hpos := List.length_pos_iff.mpr hne
  have hlength := slotBytes_length hfits
  have hwindow := window_overwrite_self (0 : UInt8) bytes offset (slotBytes slotSize payload)
  rw [hlength] at hwindow
  have htake : (slotBytes slotSize payload).take LENGTH_SIZE =
      littleEndian LENGTH_SIZE payload.length := by
    unfold slotBytes
    rw [List.append_assoc]
    exact List.take_left' (littleEndian_length _ _)
  have hdrop : (slotBytes slotSize payload).drop LENGTH_SIZE =
      payload ++ List.replicate (slotSize.toNat - LENGTH_SIZE - payload.length) 0 := by
    unfold slotBytes
    rw [List.append_assoc]
    exact List.drop_left' (littleEndian_length _ _)
  have hlen : ofLittleEndian (littleEndian LENGTH_SIZE payload.length) = payload.length := by
    apply ofLittleEndian_littleEndian_of_lt
    have hbound : 256 ^ LENGTH_SIZE = 2 ^ 32 := by decide
    omega
  unfold payloadAt
  dsimp only
  rw [hwindow, htake, hdrop, hlen, overwrite_length, hlength, if_neg (by omega)]
  exact congrArg some List.take_left

/-- The offset of a slot that a signed offset can express. -/
theorem slotOffset_of_lt {slotIndex : UInt64} {slotSize : UInt32}
    (h : slotIndex.toNat * slotSize.toNat < 2 ^ 63) (hindex : slotIndex.toNat < 2 ^ 63) :
    slotOffset slotIndex slotSize = .ok (Int.ofNat (slotIndex.toNat * slotSize.toNat)) := by
  have hcast : Int.bmod slotIndex.toNat (2 ^ 64) = slotIndex.toNat := by
    rw [Int.bmod_def]
    omega
  unfold slotOffset
  rw [hcast]
  dsimp only
  rw [← Int.natCast_mul, if_pos (by omega)]
  rfl

/-- A payload that does not fit is not written. -/
theorem writeSlot_of_large {payload : List UInt8} {slotSize : UInt32}
    (hlarge : slotSize.toNat < payload.length + LENGTH_SIZE) (files : Files) (path : String)
    (slotIndex : UInt64) (io : Schedule) :
    writeSlot files path slotIndex slotSize payload io = .ok (.OUT_OF_MEMORY, files) := by
  unfold writeSlot
  rw [if_pos hlarge]
  rfl

section Access

variable {files : Files} {path : String} {slotIndex : UInt64} {slotSize : UInt32} {offset : ℕ}
  {payload : List UInt8}

/-- A read that succeeds returns the payload of the slot. -/
theorem payloadIn_of_readSlot (hsize : LENGTH_SIZE ≤ slotSize.toNat)
    (hoffset : slotOffset slotIndex slotSize = .ok (Int.ofNat offset)) {io : Schedule}
    (h : readSlot files path slotIndex slotSize io = .ok (.OK, payload)) :
    payloadIn slotSize files path offset = some payload := by
  rw [readSlot_eq] at h
  split at h
  · rename_i file rest hfile _
    rw [hoffset] at h
    rcases file.preadAll_eq slotSize.toNat offset rest with hnone | hsome
    · change (match file.preadAll slotSize.toNat offset rest with
        | none => _
        | some bytes => _) = _ at h
      rw [hnone] at h
      cases h
    · change (match file.preadAll slotSize.toNat offset rest with
        | none => _
        | some bytes => _) = _ at h
      rw [hsome] at h
      unfold payloadIn
      rw [hfile]
      exact (parseSlot_eq_ok hsize).mp h
  · cases h

/-- What writing a buffer makes of the outcome of the write loop. -/
private theorem writeBuffer_of_open
    (hoffset : slotOffset slotIndex slotSize = .ok (Int.ofNat offset)) {io rest left : Schedule}
    (hopen : openCall io = (true, rest)) {buf : List UInt8} {done : Bool} {written : File}
    (hwrite : ((files.get? path).getD File.empty).pwriteAll buf offset rest =
      (done, written, left)) :
    writeBuffer files path slotIndex slotSize buf io =
      .ok (if done then .OK else .IO_ERROR, files.put path written) := by
  unfold writeBuffer
  rw [hopen]
  dsimp only
  rw [hoffset]
  change (match ((files.get? path).getD File.empty).pwriteAll buf offset rest with
    | (false, file, _) => _
    | (true, file, _) => _) = _
  rw [hwrite]
  cases done with
  | false => rfl
  | true => rfl

/-- Writing a buffer either leaves all files alone and fails, or it lays the buffer or a part
of it over one file. -/
private theorem writeBuffer_cases
    (hoffset : slotOffset slotIndex slotSize = .ok (Int.ofNat offset)) (files : Files)
    (path : String) {buf : List UInt8} (hne : buf ≠ []) (io : Schedule) :
    writeBuffer files path slotIndex slotSize buf io = .ok (.IO_ERROR, files) ∨
    ∃ s file, writeBuffer files path slotIndex slotSize buf io = .ok (s, files.put path file) ∧
      (s = .OK ∧
          file.bytes = overwrite 0 ((files.get? path).getD File.empty).bytes offset buf ∨
        s ≠ .OK ∧ (file = (files.get? path).getD File.empty ∨ ∃ count, file.bytes =
          overwrite 0 ((files.get? path).getD File.empty).bytes offset (buf.take count))) := by
  rcases hopen : openCall io with ⟨opened, rest⟩
  cases opened with
  | false =>
    left
    unfold writeBuffer
    rw [hopen]
    rfl
  | true =>
    right
    obtain ⟨written, left, ⟨hwrite, hbytes⟩ | ⟨hwrite, hbytes⟩⟩ :=
      @File.pwriteAll_cases ((files.get? path).getD File.empty) _ hne offset rest
    · exact ⟨.OK, written, writeBuffer_of_open hoffset hopen hwrite, Or.inl ⟨rfl, hbytes⟩⟩
    · exact ⟨.IO_ERROR, written, writeBuffer_of_open hoffset hopen hwrite,
        Or.inr ⟨by decide, hbytes⟩⟩

/-- A read without failing calls reads the slot. -/
theorem readSlot_of_unfailing (hsize : LENGTH_SIZE ≤ slotSize.toNat)
    (hoffset : slotOffset slotIndex slotSize = .ok (Int.ofNat offset)) {io : Schedule}
    (hio : io.Unfailing) :
    readSlot files path slotIndex slotSize io =
      .ok (slotAt slotSize (bytesIn files path) offset) := by
  rw [readSlot_eq]
  unfold bytesIn
  cases hfile : files.get? path with
  | none =>
    have hshort : File.empty.bytes.length < offset + LENGTH_SIZE :=
      Nat.lt_of_lt_of_le (by decide) (Nat.le_add_left LENGTH_SIZE offset)
    rw [Option.getD_none, slotAt, if_pos hshort]
  | some file =>
    rw [hio.openCall, Option.getD_some]
    dsimp only
    rw [hoffset]
    change (match file.preadAll slotSize.toNat offset io.next.2 with
      | none => _
      | some bytes => _) = _
    rw [file.preadAll_of_unfailing _ _ (hio.suffix io.next_suffix)]
    exact parseSlot_eq hsize file.bytes offset

/-- A read of a slot fails in a system call or reads the slot. -/
theorem readSlot_cases (hsize : LENGTH_SIZE ≤ slotSize.toNat)
    (hoffset : slotOffset slotIndex slotSize = .ok (Int.ofNat offset)) (io : Schedule) :
    readSlot files path slotIndex slotSize io = .ok (.NOT_FOUND, []) ∨
      readSlot files path slotIndex slotSize io = .ok (.IO_ERROR, []) ∨
      readSlot files path slotIndex slotSize io =
        .ok (slotAt slotSize (bytesIn files path) offset) := by
  rw [readSlot_eq]
  unfold bytesIn
  rcases openCall io with ⟨opened, rest⟩
  cases hfile : files.get? path with
  | none => exact Or.inl rfl
  | some file =>
    rw [hoffset, Option.getD_some]
    cases opened with
    | false => exact Or.inl rfl
    | true =>
      right
      change (match file.preadAll slotSize.toNat offset rest with
        | none => _
        | some bytes => _) = _ ∨ (match file.preadAll slotSize.toNat offset rest with
          | none => _
          | some bytes => _) = _
      rcases file.preadAll_eq slotSize.toNat offset rest with hnone | hsome
      · rw [hnone]
        exact Or.inl rfl
      · rw [hsome]
        exact Or.inr (parseSlot_eq hsize file.bytes offset)

/-- A read without failing calls returns the payload of a slot that holds one. -/
theorem readSlot_nil_eq_ok (hsize : LENGTH_SIZE ≤ slotSize.toNat)
    (hoffset : slotOffset slotIndex slotSize = .ok (Int.ofNat offset)) :
    readSlot files path slotIndex slotSize [] = .ok (.OK, payload) ↔
      payloadIn slotSize files path offset = some payload := by
  rw [readSlot_of_unfailing hsize hoffset Schedule.unfailing_nil, Except.ok.injEq, slotAt_eq_ok,
    payloadIn_eq]

/-- A write that fails may have changed nothing; otherwise it has laid its slot over the file if
it succeeds, and at most a part of the slot if it fails. -/
theorem writeSlot_cases (hoffset : slotOffset slotIndex slotSize = .ok (Int.ofNat offset))
    (files : Files) (path : String) (payload : List UInt8) (io : Schedule) :
    ∃ s files', writeSlot files path slotIndex slotSize payload io = .ok (s, files') ∧
      (s ≠ .OK ∧ files' = files ∨ ∃ file, files' = files.put path file ∧
        (s = .OK ∧ payload.length + LENGTH_SIZE ≤ slotSize.toNat ∧
            file.bytes = overwrite 0 (bytesIn files path) offset (slotBytes slotSize payload) ∨
          s ≠ .OK ∧ (file.bytes = bytesIn files path ∨ ∃ data, data.length ≤ slotSize.toNat ∧
            file.bytes = overwrite 0 (bytesIn files path) offset data))) := by
  by_cases hlarge : slotSize.toNat < payload.length + LENGTH_SIZE
  · exact ⟨.OUT_OF_MEMORY, files, writeSlot_of_large hlarge files path slotIndex io,
      Or.inl ⟨by decide, rfl⟩⟩
  · have hfits := Nat.not_lt.mp hlarge
    unfold writeSlot
    rw [if_neg hlarge, slotBuffer_eq hfits]
    have hlength := slotBytes_length hfits
    have hne : slotBytes slotSize payload ≠ [] := by
      have hpositive := LENGTH_SIZE_pos
      rw [← List.length_pos_iff]
      omega
    change ∃ s files', writeBuffer files path slotIndex slotSize _ io = _ ∧ _
    rcases writeBuffer_cases hoffset files path hne io with hfail | ⟨s, file, hwrite, hbytes⟩
    · exact ⟨.IO_ERROR, files, hfail, Or.inl ⟨by decide, rfl⟩⟩
    · refine ⟨s, files.put path file, hwrite, Or.inr ⟨file, rfl, ?_⟩⟩
      rcases hbytes with ⟨hok, hall⟩ | ⟨hfailed, rfl | ⟨count, hpart⟩⟩
      · exact Or.inl ⟨hok, hfits, hall⟩
      · exact Or.inr ⟨hfailed, Or.inl rfl⟩
      · have hpartLength := List.length_take_le' count (slotBytes slotSize payload)
        exact Or.inr ⟨hfailed, Or.inr ⟨_, hlength ▸ hpartLength, hpart⟩⟩

/-- A write of a payload that does not fit reports that memory is short, any other write succeeds or
reports a failure of the system. -/
theorem status_of_writeSlot (hoffset : slotOffset slotIndex slotSize = .ok (Int.ofNat offset))
    {io : Schedule} {s : Status} {files' : Files}
    (h : writeSlot files path slotIndex slotSize payload io = .ok (s, files')) :
    s = .OUT_OF_MEMORY ∧ slotSize.toNat < payload.length + LENGTH_SIZE ∨
      (s = .OK ∨ s = .IO_ERROR) ∧ payload.length + LENGTH_SIZE ≤ slotSize.toNat := by
  by_cases hlarge : slotSize.toNat < payload.length + LENGTH_SIZE
  · rw [writeSlot_of_large hlarge] at h
    cases h
    exact Or.inl ⟨rfl, hlarge⟩
  · right
    refine ⟨?_, Nat.not_lt.mp hlarge⟩
    unfold writeSlot at h
    rw [if_neg hlarge, slotBuffer_eq (Nat.not_lt.mp hlarge)] at h
    change writeBuffer files path slotIndex slotSize _ io = _ at h
    rcases hopen : openCall io with ⟨opened, rest⟩
    cases opened with
    | false =>
      unfold writeBuffer at h
      rw [hopen] at h
      cases h
      exact Or.inr rfl
    | true =>
      rcases hwrite : ((files.get? path).getD File.empty).pwriteAll (slotBytes slotSize payload)
        offset rest with ⟨done, written, left⟩
      rw [writeBuffer_of_open hoffset hopen hwrite] at h
      cases done with
      | false =>
        cases h
        exact Or.inr rfl
      | true =>
        cases h
        exact Or.inl rfl

/-- A write leaves other files alone and lays at most a slot over its own. -/
theorem bytesIn_of_writeSlot (hoffset : slotOffset slotIndex slotSize = .ok (Int.ofNat offset))
    {io : Schedule} {s : Status} {files' : Files}
    (h : writeSlot files path slotIndex slotSize payload io = .ok (s, files')) :
    (∀ other, other ≠ path → bytesIn files' other = bytesIn files other) ∧
      (bytesIn files' path = bytesIn files path ∨ ∃ data, data.length ≤ slotSize.toNat ∧
        bytesIn files' path = overwrite 0 (bytesIn files path) offset data) := by
  obtain ⟨_, _, hwrite, hcases⟩ := writeSlot_cases hoffset files path payload io
  cases hwrite.symm.trans h
  rcases hcases with ⟨_, rfl⟩ | ⟨file, rfl, hbytes⟩
  · exact ⟨fun _ _ => rfl, Or.inl rfl⟩
  · have hother : ∀ other, other ≠ path → bytesIn (files.put path file) other =
        bytesIn files other := by
      intro other hother
      unfold bytesIn
      rw [FiniteMap.get?_put, if_neg hother]
    refine ⟨hother, ?_⟩
    rw [bytesIn_put]
    rcases hbytes with ⟨_, hfits, hall⟩ | ⟨_, hsame | hpart⟩
    · exact Or.inr ⟨_, (slotBytes_length hfits).le, hall⟩
    · exact Or.inl hsame
    · exact Or.inr hpart

/-- A write without failing calls lays its slot over the file if the payload and the file fit. -/
theorem writeSlot_of_unfailing
    (hoffset : slotOffset slotIndex slotSize = .ok (Int.ofNat offset))
    (hfits : payload.length + LENGTH_SIZE ≤ slotSize.toNat)
    (hlimit : offset + slotSize.toNat < offsetLimit) {io : Schedule} (hio : io.Unfailing) :
    ∃ file : File, writeSlot files path slotIndex slotSize payload io =
        .ok (.OK, files.put path file) ∧
      file.bytes = overwrite 0 (bytesIn files path) offset (slotBytes slotSize payload) := by
  have hlength := slotBytes_length hfits
  have hne : slotBytes slotSize payload ≠ [] := by
    have hpositive := LENGTH_SIZE_pos
    rw [← List.length_pos_iff]
    omega
  obtain ⟨written, left, hwrite, hbytes⟩ :=
    ((files.get? path).getD File.empty).pwriteAll_of_unfailing hne
      (by omega : offset + _ < offsetLimit) (hio.suffix io.next_suffix)
  refine ⟨written, ?_, hbytes⟩
  have hbuffer := writeBuffer_of_open hoffset hio.openCall hwrite
  rw [if_pos rfl] at hbuffer
  unfold writeSlot
  rw [if_neg (Nat.not_lt.mpr hfits)]
  exact except_bind_eq_ok.mpr ⟨_, slotBuffer_eq hfits, hbuffer⟩

/-- A write that succeeds stores its payload; whether it succeeds or not, the payloads of
other slots and other files stay. -/
theorem writeSlot_spec (hoffset : slotOffset slotIndex slotSize = .ok (Int.ofNat offset))
    (files : Files) (path : String) (payload : List UInt8) (io : Schedule) :
    ∃ s files', writeSlot files path slotIndex slotSize payload io = .ok (s, files') ∧
      (s = .OK → payload ≠ [] → payloadIn slotSize files' path offset = some payload) ∧
      ∀ other start kept,
        other ≠ path ∨ start + slotSize.toNat ≤ offset ∨ offset + slotSize.toNat ≤ start →
        payloadIn slotSize files other start = some kept →
          payloadIn slotSize files' other start = some kept := by
  obtain ⟨s, files', hwrite, hcases⟩ := writeSlot_cases hoffset files path payload io
  refine ⟨s, files', hwrite, ?_, ?_⟩
  · intro hok hpayload
    rcases hcases with ⟨hfailed, _⟩ | ⟨file, rfl, ⟨_, hfits, hall⟩ | ⟨hfailed, _⟩⟩
    · exact absurd hok hfailed
    · unfold payloadIn FiniteMap.put
      dsimp only
      rw [if_pos rfl, Option.bind_some, hall]
      exact payloadAt_overwrite_self hpayload hfits _ offset
    · exact absurd hok hfailed
  · intro other start kept hdisjoint hkept
    obtain ⟨hothers, hpath⟩ := bytesIn_of_writeSlot hoffset hwrite
    rw [payloadIn_eq] at hkept ⊢
    by_cases hother : other = path
    · subst hother
      have hapart : start + slotSize.toNat ≤ offset ∨ offset + slotSize.toNat ≤ start :=
        hdisjoint.resolve_left (not_not.mpr rfl)
      rcases hpath with hsame | ⟨data, hdata, hpart⟩
      · rw [hsame]
        exact hkept
      · rw [hpart]
        exact payloadAt_overwrite_of_disjoint hkept (by omega)
    · rw [hothers other hother]
      exact hkept

end Access

end MiniDB.Common.FileIO
