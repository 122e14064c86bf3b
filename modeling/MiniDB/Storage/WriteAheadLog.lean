import MiniDB.Common.Type
import MiniDB.Library.Memory
import MiniDB.Library.PosixFile

/-!
# The write-ahead log

`WriteAheadLog.cpp` as it computes: frame encoding in `append`, the recovery scan of
`open`, positional reads and truncation. Every system call consumes one outcome of the
call's schedule. Offsets are natural numbers because file sizes stay below `2 ^ 63`;
the 32-bit length fields and 64-bit indices wrap as in the source. The host is
little-endian.
-/

namespace MiniDB.Storage

open MiniDB.Common ByteSequence Memory Posix

/-- 1-based index of a log entry. -/
abbrev LogIndex := UInt64

/-- Caller-supplied tag of a log entry. -/
abbrev Term := UInt64

/-- Sentinel for "no entries appended yet". -/
def INVALID_LOG_INDEX : LogIndex := 0

/-- Sentinel for "no term recorded yet". -/
def INVALID_TERM : Term := 0

/-- Size of the length field that begins a frame. -/
abbrev FRAME_LENGTH_SIZE : ℕ := 4

/-- Size of the index field. -/
abbrev INDEX_SIZE : ℕ := 8

/-- Size of the term field. -/
abbrev TERM_SIZE : ℕ := 8

/-- Size of the payload length field. -/
abbrev PAYLOAD_LENGTH_SIZE : ℕ := 4

/-- Size of the checksum field. -/
abbrev CHECKSUM_SIZE : ℕ := 4

/-- Bytes covered by a frame's length field, in 32-bit arithmetic. -/
def bodySize (payloadLength : UInt32) : UInt32 :=
  UInt32.ofNat (INDEX_SIZE + TERM_SIZE + PAYLOAD_LENGTH_SIZE) + payloadLength +
    UInt32.ofNat CHECKSUM_SIZE

/-- The four bytes of a 32-bit field. -/
def bytesOfUInt32 (value : UInt32) : List UInt8 := littleEndian 4 value.toNat

/-- The eight bytes of a 64-bit field. -/
def bytesOfUInt64 (value : UInt64) : List UInt8 := littleEndian 8 value.toNat

/-- A 32-bit field read from its bytes. -/
def uint32OfBytes (bytes : List UInt8) : UInt32 := UInt32.ofNat (ofLittleEndian bytes)

/-- A 64-bit field read from its bytes. -/
def uint64OfBytes (bytes : List UInt8) : UInt64 := UInt64.ofNat (ofLittleEndian bytes)

/-- One step of the table computation: the register shifted by one bit. -/
def crcShift (c : UInt32) : UInt32 :=
  if c &&& 1 = 1 then (0xEDB88320 : UInt32) ^^^ (c >>> 1) else c >>> 1

/-- The checksum table: each index shifted through eight bits. -/
def crcTable : Vector UInt32 256 := Vector.ofFn fun i => crcShift^[8] (UInt32.ofNat i)

/-- The table position selected by the register and the next byte. -/
def crcIndex (crc : UInt32) (byte : UInt8) : Fin 256 :=
  ⟨((crc ^^^ byte.toUInt32) &&& 0xFF).toNat, by
    rw [UInt32.toNat_and]
    exact Nat.lt_of_le_of_lt Nat.and_le_right (by decide)⟩

/-- The register after one more byte. -/
def crcUpdate (crc : UInt32) (byte : UInt8) : UInt32 :=
  crcTable.get (crcIndex crc byte) ^^^ (crc >>> 8)

/-- The checksum of a byte sequence. -/
def crc32 (data : List UInt8) : UInt32 := data.foldl crcUpdate 0xFFFFFFFF ^^^ 0xFFFFFFFF

/-- One log entry as returned by read operations. -/
structure LogEntry where
  /-- Index of the entry. -/
  index : LogIndex
  /-- Term of the entry. -/
  term : Term
  /-- Opaque entry data. -/
  payload : List UInt8
  deriving DecidableEq

/-- The in-memory state of a log. -/
structure WriteAheadLog where
  /-- Whether the file descriptor `fd_` is open. -/
  isOpen : Bool
  /-- Byte offset of each entry's frame, by index minus one. -/
  offsetIndex : List ℕ
  /-- Index of the last durable entry. -/
  lastIndex : LogIndex
  /-- Term of the last durable entry. -/
  lastTerm : Term
  /-- Byte offset the next append writes at. -/
  writeOffset : ℕ
  deriving DecidableEq

/-- A log object together with the file at its path. -/
structure LogState where
  /-- The log object. -/
  log : WriteAheadLog
  /-- The content of the backing file. -/
  file : File
  deriving DecidableEq

/-- A log that was constructed but never opened, over an existing file. -/
def LogState.closed (file : File) : LogState :=
  ⟨⟨false, [], INVALID_LOG_INDEX, INVALID_TERM, 0⟩, file⟩

/-- What one iteration of the recovery scan decides. -/
inductive ScanResult
  | ioError
  | stop
  | entry (frameLength : UInt32) (index : LogIndex) (term : Term)
  deriving DecidableEq

/-- The checks of one scan iteration after the frame's body has been read. -/
def checkBody (frameLength : UInt32) (body : List UInt8) (entries : ℕ) :
    Except Fault ScanResult := do
  let payloadLength := uint32OfBytes (← copyOut body (INDEX_SIZE + TERM_SIZE) PAYLOAD_LENGTH_SIZE)
  if frameLength = bodySize payloadLength ∧
      INDEX_SIZE + TERM_SIZE + PAYLOAD_LENGTH_SIZE + CHECKSUM_SIZE ≤ frameLength.toNat then
    let storedChecksum :=
      uint32OfBytes (← copyOut body (frameLength.toNat - CHECKSUM_SIZE) CHECKSUM_SIZE)
    let checksumInput := bytesOfUInt32 frameLength ++
      (← copyOut body 0 (frameLength.toNat - CHECKSUM_SIZE))
    if crc32 checksumInput = storedChecksum then
      let entryIndex := uint64OfBytes (← copyOut body 0 INDEX_SIZE)
      let entryTerm := uint64OfBytes (← copyOut body INDEX_SIZE TERM_SIZE)
      if entryIndex.toNat = entries + 1 then .ok (.entry frameLength entryIndex entryTerm)
      else .ok .stop
    else .ok .stop
  else .ok .stop

/-- One iteration of the recovery scan: the frame at `pos`, if it is complete, internally
consistent, intact and next in sequence. -/
def scanFrame (file : File) (totalSize pos entries : ℕ) (io : Schedule) :
    Except Fault (ScanResult × Schedule) :=
  match file.pread FRAME_LENGTH_SIZE pos io with
  | (none, io) => .ok (.ioError, io)
  | (some lengthBytes, io) =>
    if lengthBytes.length < FRAME_LENGTH_SIZE then .ok (.stop, io)
    else
      let frameLength := uint32OfBytes lengthBytes
      if totalSize < pos + FRAME_LENGTH_SIZE + frameLength.toNat then .ok (.stop, io)
      else if frameLength.toNat < INDEX_SIZE + TERM_SIZE + PAYLOAD_LENGTH_SIZE + CHECKSUM_SIZE then
        .ok (.stop, io)
      else match file.pread frameLength.toNat (pos + FRAME_LENGTH_SIZE) io with
        | (none, io) => .ok (.ioError, io)
        | (some body, io) =>
          if body.length < frameLength.toNat then .ok (.stop, io)
          else do return (← checkBody frameLength body entries, io)

/-- The state in which the recovery scan ends. -/
structure ScanEnd where
  /-- Whether no read failed. -/
  ok : Bool
  /-- End of the last accepted frame. -/
  pos : ℕ
  /-- The log with one offset for each accepted frame. -/
  log : WriteAheadLog

/-- The recovery scan from `pos` on. -/
def scanLoop (file : File) (totalSize pos : ℕ) (log : WriteAheadLog) (io : Schedule) :
    Except Fault (ScanEnd × Schedule) :=
  if pos + FRAME_LENGTH_SIZE ≤ totalSize then
    match scanFrame file totalSize pos log.offsetIndex.length io with
    | .error fault => .error fault
    | .ok (.ioError, io) => .ok (⟨false, pos, log⟩, io)
    | .ok (.stop, io) => .ok (⟨true, pos, log⟩, io)
    | .ok (.entry frameLength index term, io) =>
      scanLoop file totalSize (pos + FRAME_LENGTH_SIZE + frameLength.toNat)
        { log with
          offsetIndex := log.offsetIndex ++ [pos]
          lastIndex := index
          lastTerm := term } io
  else .ok (⟨true, pos, log⟩, io)
termination_by totalSize - pos
decreasing_by simp only [FRAME_LENGTH_SIZE] at *; omega

namespace LogState

/-- `open`: rebuild the in-memory state from the file and cut the file behind the last
valid frame. A missing file is created empty before the scan. -/
def openLog (s : LogState) (io : Schedule) : Except Fault (Status × LogState) :=
  let closed := { s with log := { s.log with isOpen := false } }
  let (opened, io) := io.next
  if !opened.succeeds then .ok (.IO_ERROR, closed)
  else
    let log : WriteAheadLog := ⟨true, [], INVALID_LOG_INDEX, INVALID_TERM, 0⟩
    let (sized, io) := io.next
    if !sized.succeeds then .ok (.IO_ERROR, { s with log := { log with isOpen := false } })
    else
      let totalSize := s.file.bytes.length
      match scanLoop s.file totalSize 0 log io with
      | .error fault => .error fault
      | .ok (⟨false, _, log⟩, _) => .ok (.IO_ERROR, { s with log := { log with isOpen := false } })
      | .ok (⟨true, pos, log⟩, io) =>
        if pos ≠ totalSize then
          match s.file.ftruncate pos io with
          | (true, file, _) => .ok (.OK, ⟨{ log with writeOffset := pos }, file⟩)
          | (false, file, _) => .ok (.IO_ERROR, ⟨{ log with isOpen := false }, file⟩)
        else .ok (.OK, { s with log := { log with writeOffset := pos } })

/-- The frame buffer `append` builds, field by field. -/
def frameBuffer (newIndex : LogIndex) (term : Term) (payload : List UInt8) :
    Except Fault (List UInt8) := do
  let payloadLength := UInt32.ofNat payload.length
  let frameLen := bodySize payloadLength
  let buf := List.replicate (FRAME_LENGTH_SIZE + frameLen.toNat) 0
  let off := 0
  let buf ← copyIn buf off (bytesOfUInt32 frameLen)
  let off := off + FRAME_LENGTH_SIZE
  let buf ← copyIn buf off (bytesOfUInt64 newIndex)
  let off := off + INDEX_SIZE
  let buf ← copyIn buf off (bytesOfUInt64 term)
  let off := off + TERM_SIZE
  let buf ← copyIn buf off (bytesOfUInt32 payloadLength)
  let off := off + PAYLOAD_LENGTH_SIZE
  let buf ← copyIn buf off (payload.take payloadLength.toNat)
  let off := off + payloadLength.toNat
  let checksum := crc32 (← copyOut buf 0 off)
  copyIn buf off (bytesOfUInt32 checksum)

/-- `append`: write one frame at the write offset, make it durable, then commit it to the
in-memory state. `outIndex` is the caller's variable for the assigned index. -/
def append (s : LogState) (term : Term) (payload : List UInt8) (outIndex : LogIndex)
    (io : Schedule) : Except Fault (Status × LogIndex × LogState) :=
  if !s.log.isOpen then .ok (.IO_ERROR, outIndex, s)
  else
    let newIndex := s.log.lastIndex + 1
    match frameBuffer newIndex term payload with
    | .error fault => .error fault
    | .ok buf =>
      match s.file.pwriteAll buf s.log.writeOffset io with
      | (false, file, _) => .ok (.IO_ERROR, outIndex, { s with file })
      | (true, file, io) =>
        if !(fsync io).1 then .ok (.IO_ERROR, outIndex, { s with file })
        else
          .ok (.OK, newIndex, {
            log := { s.log with
              offsetIndex := s.log.offsetIndex ++ [s.log.writeOffset]
              writeOffset := s.log.writeOffset + buf.length
              lastIndex := newIndex
              lastTerm := term }
            file })

/-- The fields `readFrameAt` takes from a frame's body, trusting its payload length. -/
def parseBody (body : List UInt8) : Except Fault LogEntry := do
  let payloadLength := uint32OfBytes (← copyOut body (INDEX_SIZE + TERM_SIZE) PAYLOAD_LENGTH_SIZE)
  let index := uint64OfBytes (← copyOut body 0 INDEX_SIZE)
  let term := uint64OfBytes (← copyOut body INDEX_SIZE TERM_SIZE)
  let payload ← copyOut body (INDEX_SIZE + TERM_SIZE + PAYLOAD_LENGTH_SIZE) payloadLength.toNat
  return ⟨index, term, payload⟩

/-- Read and parse the frame at a file offset; `out` is overwritten on success. Reading
through a closed descriptor fails. -/
def readFrameAt (s : LogState) (fileOffset : ℕ) (out : LogEntry) (io : Schedule) :
    Except Fault (Status × LogEntry × Schedule) :=
  if !s.log.isOpen then .ok (.IO_ERROR, out, io)
  else match s.file.pread FRAME_LENGTH_SIZE fileOffset io with
  | (none, io) => .ok (.IO_ERROR, out, io)
  | (some lengthBytes, io) =>
    if lengthBytes.length < FRAME_LENGTH_SIZE then .ok (.IO_ERROR, out, io)
    else
      let frameLength := uint32OfBytes lengthBytes
      match s.file.pread frameLength.toNat (fileOffset + FRAME_LENGTH_SIZE) io with
      | (none, io) => .ok (.IO_ERROR, out, io)
      | (some body, io) =>
        if body.length < frameLength.toNat then .ok (.IO_ERROR, out, io)
        else do return (.OK, ← parseBody body, io)

/-- `entryAt`: the entry at a 1-based index. -/
def entryAt (s : LogState) (index : LogIndex) (out : LogEntry) (io : Schedule) :
    Except Fault (Status × LogEntry) :=
  if index = INVALID_LOG_INDEX ∨ s.log.lastIndex < index then .ok (.NOT_FOUND, out)
  else do
    let fileOffset ← elementAt s.log.offsetIndex (index.toNat - 1)
    let (status, out, _) ← s.readFrameAt fileOffset out io
    return (status, out)

/-- The loop of `range` over the remaining indices; `out` holds what was read so far. -/
def rangeLoop (s : LogState) : List ℕ → List LogEntry → Schedule →
    Except Fault (Status × List LogEntry)
  | [], out, _ => .ok (.OK, out)
  | i :: rest, out, io => do
    let fileOffset ← elementAt s.log.offsetIndex (i - 1)
    match ← s.readFrameAt fileOffset ⟨INVALID_LOG_INDEX, INVALID_TERM, []⟩ io with
    | (.OK, entry, io) => s.rangeLoop rest (out ++ [entry]) io
    | (status, _, _) => return (status, [])

/-- `range`: every entry from `fromIndex` to `toIndex`, both included. -/
def range (s : LogState) (fromIndex toIndex : LogIndex) (io : Schedule) :
    Except Fault (Status × List LogEntry) :=
  if fromIndex = INVALID_LOG_INDEX ∨ toIndex < fromIndex ∨ s.log.lastIndex < toIndex then
    .ok (.NOT_FOUND, [])
  else
    s.rangeLoop (List.range' fromIndex.toNat (toIndex.toNat + 1 - fromIndex.toNat)) [] io

/-- The end of `truncateFrom`: cut the file, then the in-memory state. -/
def truncateTo (s : LogState) (newLastIndex : LogIndex) (newLastTerm : Term) (cutOffset : ℕ)
    (io : Schedule) : Except Fault (Status × LogState) :=
  match s.file.ftruncate cutOffset io with
  | (false, file, _) => .ok (.IO_ERROR, { s with file })
  | (true, file, _) =>
    .ok (.OK, {
      log := { s.log with
        offsetIndex := s.log.offsetIndex.take newLastIndex.toNat
        lastIndex := newLastIndex
        lastTerm := newLastTerm
        writeOffset := cutOffset }
      file })

/-- `truncateFrom`: discard every entry from `index` onward. The term of the new last
entry is read before the file is cut. -/
def truncateFrom (s : LogState) (index : LogIndex) (io : Schedule) :
    Except Fault (Status × LogState) :=
  if !s.log.isOpen then .ok (.IO_ERROR, s)
  else if index = INVALID_LOG_INDEX then s.truncateTo INVALID_LOG_INDEX INVALID_TERM 0 io
  else if s.log.lastIndex < index then .ok (.OK, s)
  else do
    let newLastIndex := index - 1
    let cutOffset ← elementAt s.log.offsetIndex (index.toNat - 1)
    if newLastIndex = INVALID_LOG_INDEX then s.truncateTo newLastIndex INVALID_TERM cutOffset io
    else
      let tailOffset ← elementAt s.log.offsetIndex (newLastIndex.toNat - 1)
      match ← s.readFrameAt tailOffset ⟨INVALID_LOG_INDEX, INVALID_TERM, []⟩ io with
      | (.OK, tailEntry, io) => s.truncateTo newLastIndex tailEntry.term cutOffset io
      | (status, _, _) => return (status, s)

end LogState

end MiniDB.Storage
