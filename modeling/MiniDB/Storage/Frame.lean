import MiniDB.Library.Framing
import MiniDB.Storage.WriteAheadLog

/-!
# Frame layout

The header of the log describes a frame as length, index, term, payload length, payload
and checksum. Here that layout is written down once, independently of the two places of
the source that handle it, and shown to be a numbered framing. The encoder of `append`,
the scan iteration of `open` and `readFrameAt` are then characterized by it.
-/

namespace MiniDB.Storage

open MiniDB.Common ByteSequence Memory Posix

/-- What a caller appends: a term and a payload. -/
abbrev Entry := Term × List UInt8

/-- Index and frame length of an entry fit their fields. -/
def EntryFits (index : ℕ) (entry : Entry) : Prop :=
  index < 2 ^ 64 ∧ 24 + entry.2.length < 2 ^ 32

instance (index : ℕ) (entry : Entry) : Decidable (EntryFits index entry) :=
  inferInstanceAs (Decidable (_ ∧ _))

/-- The bytes of a frame covered by its checksum. -/
def frameFields (index : ℕ) (entry : Entry) : List UInt8 :=
  littleEndian 4 (24 + entry.2.length) ++ littleEndian 8 index ++
    littleEndian 8 entry.1.toNat ++ littleEndian 4 entry.2.length ++ entry.2

/-- The frame of an entry. -/
def frame (index : ℕ) (entry : Entry) : List UInt8 :=
  frameFields index entry ++ bytesOfUInt32 (crc32 (frameFields index entry))

@[simp] theorem bytesOfUInt32_length (value : UInt32) : (bytesOfUInt32 value).length = 4 :=
  littleEndian_length 4 _

@[simp] theorem bytesOfUInt64_length (value : UInt64) : (bytesOfUInt64 value).length = 8 :=
  littleEndian_length 8 _

/-- A 32-bit field survives being written and read. -/
@[simp] theorem uint32OfBytes_bytesOfUInt32 (value : UInt32) :
    uint32OfBytes (bytesOfUInt32 value) = value := by
  rw [uint32OfBytes, bytesOfUInt32,
    ofLittleEndian_littleEndian_of_lt (by have := value.toNat_lt; omega)]
  simp

/-- A 64-bit field survives being written and read. -/
@[simp] theorem uint64OfBytes_bytesOfUInt64 (value : UInt64) :
    uint64OfBytes (bytesOfUInt64 value) = value := by
  rw [uint64OfBytes, bytesOfUInt64,
    ofLittleEndian_littleEndian_of_lt (by have := value.toNat_lt; omega)]
  simp

/-- Four bytes are the encoding of the 32-bit field read from them. -/
theorem bytesOfUInt32_uint32OfBytes {bytes : List UInt8} (h : bytes.length = 4) :
    bytesOfUInt32 (uint32OfBytes bytes) = bytes := by
  have hlt := ofLittleEndian_lt bytes
  rw [h] at hlt
  have hvalue : (uint32OfBytes bytes).toNat = ofLittleEndian bytes := by
    rw [uint32OfBytes, UInt32.toNat_ofNat', Nat.mod_eq_of_lt (by omega)]
  have hbytes := littleEndian_ofLittleEndian bytes
  rwa [h, ← hvalue] at hbytes

/-- Eight bytes are the encoding of the 64-bit field read from them. -/
theorem bytesOfUInt64_uint64OfBytes {bytes : List UInt8} (h : bytes.length = 8) :
    bytesOfUInt64 (uint64OfBytes bytes) = bytes := by
  have hlt := ofLittleEndian_lt bytes
  rw [h] at hlt
  have hvalue : (uint64OfBytes bytes).toNat = ofLittleEndian bytes := by
    rw [uint64OfBytes, UInt64.toNat_ofNat', Nat.mod_eq_of_lt (by omega)]
  have hbytes := littleEndian_ofLittleEndian bytes
  rwa [h, ← hvalue] at hbytes

/-- A frame is twenty-eight bytes longer than its payload. -/
@[simp] theorem frame_length (index : ℕ) (entry : Entry) :
    (frame index entry).length = 28 + entry.2.length := by
  simp only [frame, frameFields, List.length_append, littleEndian_length, bytesOfUInt32_length]
  omega

/-- The entry a frame at the head of a sequence would hold, by the positions of its
fields. -/
def entryOfBytes (bytes : List UInt8) : Entry :=
  (uint64OfBytes ((bytes.drop 12).take 8),
    (bytes.drop 24).take (ofLittleEndian (bytes.take 4) - 24))

/-- The fields of a frame are found at their positions. -/
theorem entryOfBytes_frame {index : ℕ} {entry : Entry} (h : EntryFits index entry)
    (rest : List UInt8) : entryOfBytes (frame index entry ++ rest) = entry := by
  obtain ⟨term, payload⟩ := entry
  have hfields : frame index (term, payload) ++ rest =
      littleEndian 4 (24 + payload.length) ++ (littleEndian 8 index ++ (bytesOfUInt64 term ++
        (littleEndian 4 payload.length ++ (payload ++
          (bytesOfUInt32 (crc32 (frameFields index (term, payload))) ++ rest))))) := by
    simp only [frame, frameFields, bytesOfUInt64, List.append_assoc]
  have hlength : ofLittleEndian (littleEndian 4 (24 + payload.length)) = 24 + payload.length :=
    ofLittleEndian_littleEndian_of_lt h.2
  rw [hfields, entryOfBytes]
  simp [List.drop_append, List.drop_of_length_le, hlength]

/-- The log's frames form a numbered framing. A sequence is decoded by reading the fields
at their positions and comparing it with the frame they would have produced. -/
def logFraming : Framing Entry UInt8 where
  Fits := EntryFits
  encode := frame
  decode index bytes :=
    if EntryFits index (entryOfBytes bytes) ∧ frame index (entryOfBytes bytes) <+: bytes then
      some (entryOfBytes bytes)
    else none
  encode_ne_nil index entry := by
    apply List.ne_nil_of_length_pos
    rw [frame_length]
    omega
  decode_eq_some := by
    intro index entry bytes
    constructor
    · intro h
      split at h
      · cases Option.some.inj h
        assumption
      · cases h
    · rintro ⟨hfits, rest, rfl⟩
      rw [entryOfBytes_frame hfits]
      exact if_pos ⟨hfits, List.prefix_append _ _⟩

/-- The log decodes exactly the frames of entries that fit. -/
theorem decode_eq_some_iff {index : ℕ} {bytes : List UInt8} {entry : Entry} :
    logFraming.decode index bytes = some entry ↔
      EntryFits index entry ∧ frame index entry <+: bytes :=
  logFraming.decode_eq_some

/-- No frame begins a sequence shorter than a frame. -/
theorem decode_of_length_lt {index : ℕ} {bytes : List UInt8} (h : bytes.length < 28) :
    logFraming.decode index bytes = none := by
  cases hdecode : logFraming.decode index bytes with
  | none => rfl
  | some entry =>
    have hle := (decode_eq_some_iff.mp hdecode).2.length_le
    rw [frame_length] at hle
    omega

/-- In 32-bit arithmetic the body size of a payload that fits is its true size. -/
theorem bodySize_toNat {length : ℕ} (h : 24 + length < 2 ^ 32) :
    (bodySize (UInt32.ofNat length)).toNat = 24 + length := by
  simp only [bodySize, INDEX_SIZE, TERM_SIZE, PAYLOAD_LENGTH_SIZE, CHECKSUM_SIZE,
    UInt32.toNat_add, UInt32.toNat_ofNat']
  omega

/-- A length field of at least twenty-four that agrees with a payload length in 32-bit
arithmetic agrees with it in the natural numbers: the sum did not wrap. -/
theorem toNat_of_eq_bodySize {frameLength payloadLength : UInt32}
    (h : frameLength = bodySize payloadLength) (hmin : 24 ≤ frameLength.toNat) :
    frameLength.toNat = 24 + payloadLength.toNat := by
  have hpayload := payloadLength.toNat_lt
  subst h
  simp only [bodySize, INDEX_SIZE, TERM_SIZE, PAYLOAD_LENGTH_SIZE, CHECKSUM_SIZE,
    UInt32.toNat_add, UInt32.toNat_ofNat'] at hmin ⊢
  omega

/-- Writing the next field into a buffer whose remainder is still blank. -/
private theorem copyIn_blank {before field : List UInt8} {offset room : ℕ}
    (hoffset : offset = before.length) (hroom : field.length ≤ room) :
    copyIn (before ++ List.replicate room 0) offset field =
      .ok ((before ++ field) ++ List.replicate (room - field.length) 0) := by
  subst hoffset
  rw [copyIn_append field (by simpa using hroom), List.drop_replicate]

/-- The buffer `append` builds for a payload that fits is the entry's frame. -/
theorem frameBuffer_eq (index : LogIndex) (term : Term) {payload : List UInt8}
    (h : 24 + payload.length < 2 ^ 32) :
    LogState.frameBuffer index term payload = .ok (frame index.toNat (term, payload)) := by
  have hlength : (UInt32.ofNat payload.length).toNat = payload.length := by
    rw [UInt32.toNat_ofNat', Nat.mod_eq_of_lt (by omega)]
  have hbody := bodySize_toNat h
  have hpayload : bytesOfUInt32 (UInt32.ofNat payload.length) = littleEndian 4 payload.length := by
    rw [bytesOfUInt32, hlength]
  have hframe : bytesOfUInt32 (bodySize (UInt32.ofNat payload.length)) =
      littleEndian 4 (24 + payload.length) := by
    rw [bytesOfUInt32, hbody]
  have hfirst : copyIn (List.replicate (4 + (24 + payload.length)) 0) 0
      (littleEndian 4 (24 + payload.length)) =
      .ok (littleEndian 4 (24 + payload.length) ++ List.replicate (24 + payload.length) 0) := by
    have hroom : (littleEndian 4 (24 + payload.length)).length ≤ 4 + (24 + payload.length) := by
      rw [littleEndian_length]
      omega
    simpa using copyIn_blank (show 0 = ([] : List UInt8).length from rfl) hroom
  simp only [LogState.frameBuffer, hbody, hlength, hframe, hpayload, FRAME_LENGTH_SIZE,
    INDEX_SIZE, TERM_SIZE, PAYLOAD_LENGTH_SIZE, bind, Except.bind, List.take_length, hfirst]
  rw [copyIn_blank (by simp) (by simp; omega)]
  dsimp only
  rw [copyIn_blank (by simp) (by simp; omega)]
  dsimp only
  rw [copyIn_blank (by simp) (by simp; omega)]
  dsimp only
  rw [copyIn_blank (by simp) (by simp; omega)]
  dsimp only
  have hfields : littleEndian 4 (24 + payload.length) ++ bytesOfUInt64 index ++
      bytesOfUInt64 term ++ littleEndian 4 payload.length ++ payload =
      frameFields index.toNat (term, payload) := by
    simp only [frameFields, bytesOfUInt64]
  have hoffset : 0 + 4 + 8 + 8 + 4 + payload.length =
      (frameFields index.toNat (term, payload)).length := by
    simp only [frameFields, List.length_append, littleEndian_length]
  rw [hfields, copyOut_of_le (by rw [List.length_append]; omega), List.drop_zero, hoffset,
    List.take_left]
  dsimp only
  rw [copyIn_blank rfl (by simp; omega)]
  simp [frame]
  omega

/-- The scan's checks on a body given by its fields. -/
private theorem checkBody_fields {frameLength : UInt32}
    {index term length payload checksum : List UInt8} (entries : ℕ)
    (hindex : index.length = 8) (hterm : term.length = 8) (hlength : length.length = 4)
    (hchecksum : checksum.length = 4) (hframe : frameLength.toNat = 24 + payload.length) :
    checkBody frameLength (index ++ term ++ length ++ payload ++ checksum) entries =
      .ok (if frameLength = bodySize (uint32OfBytes length) ∧
          crc32 (bytesOfUInt32 frameLength ++ (index ++ term ++ length ++ payload)) =
            uint32OfBytes checksum ∧
          (uint64OfBytes index).toNat = entries + 1 then
        .entry frameLength (uint64OfBytes index) (uint64OfBytes term)
      else .stop) := by
  have hlengthField : copyOut (index ++ term ++ length ++ payload ++ checksum) 16 4 =
      .ok length := by
    have h := copyOut_append (index ++ term) length (payload ++ checksum)
    simpa only [List.length_append, hindex, hterm, hlength, List.append_assoc] using h
  have hchecksumField : copyOut (index ++ term ++ length ++ payload ++ checksum)
      (24 + payload.length - 4) 4 = .ok checksum := by
    have h := copyOut_append (index ++ term ++ length ++ payload) checksum []
    have hpos : (index ++ term ++ length ++ payload).length = 24 + payload.length - 4 := by
      simp only [List.length_append]
      omega
    rwa [hpos, hchecksum, List.append_nil] at h
  have hfields : copyOut (index ++ term ++ length ++ payload ++ checksum) 0
      (24 + payload.length - 4) = .ok (index ++ term ++ length ++ payload) := by
    have h := copyOut_append [] (index ++ term ++ length ++ payload) checksum
    have hpos : (index ++ term ++ length ++ payload).length = 24 + payload.length - 4 := by
      simp only [List.length_append]
      omega
    rwa [hpos, List.nil_append, List.length_nil] at h
  have hindexField : copyOut (index ++ term ++ length ++ payload ++ checksum) 0 8 =
      .ok index := by
    have h := copyOut_append [] index (term ++ length ++ payload ++ checksum)
    simpa only [List.nil_append, List.length_nil, hindex, List.append_assoc] using h
  have htermField : copyOut (index ++ term ++ length ++ payload ++ checksum) 8 8 = .ok term := by
    have h := copyOut_append index term (length ++ payload ++ checksum)
    simpa only [hindex, hterm, List.append_assoc] using h
  simp only [checkBody, INDEX_SIZE, TERM_SIZE, PAYLOAD_LENGTH_SIZE, CHECKSUM_SIZE, hframe,
    hlengthField, hchecksumField, hfields, hindexField, htermField, bind, Except.bind]
  by_cases hsize : frameLength = bodySize (uint32OfBytes length)
  · by_cases hcrc : crc32 (bytesOfUInt32 frameLength ++ (index ++ term ++ length ++ payload)) =
      uint32OfBytes checksum
    · by_cases hnext : (uint64OfBytes index).toNat = entries + 1
      · rw [if_pos ⟨hsize, by omega⟩, if_pos hcrc, if_pos hnext, if_pos ⟨hsize, hcrc, hnext⟩]
      · rw [if_pos ⟨hsize, by omega⟩, if_pos hcrc, if_neg hnext, if_neg (fun h => hnext h.2.2)]
    · rw [if_pos ⟨hsize, by omega⟩, if_neg hcrc, if_neg (fun h => hcrc h.2.1)]
  · rw [if_neg (fun h => hsize h.1), if_neg (fun h => hsize h.1)]

private theorem exists_fields {body : List UInt8} (h : 24 ≤ body.length) :
    ∃ index term length payload checksum : List UInt8,
      body = index ++ term ++ length ++ payload ++ checksum ∧
      index.length = 8 ∧ term.length = 8 ∧ length.length = 4 ∧ checksum.length = 4 ∧
      body.length = 24 + payload.length := by
  refine ⟨body.take 8, (body.drop 8).take 8, (body.drop 16).take 4,
    (body.drop 20).take (body.length - 24), body.drop (body.length - 4), ?_, ?_⟩
  · have hlast : body.drop (body.length - 4) = (body.drop 20).drop (body.length - 24) := by
      rw [List.drop_drop]
      congr 1
      omega
    have hthird : body.drop 20 = (body.drop 16).drop 4 := by rw [List.drop_drop]
    have hsecond : body.drop 16 = (body.drop 8).drop 8 := by rw [List.drop_drop]
    rw [hlast, List.append_assoc, List.take_append_drop, hthird, List.append_assoc,
      List.take_append_drop, hsecond, List.append_assoc, List.take_append_drop,
      List.take_append_drop]
  · simp only [List.length_take, List.length_drop]
    omega

/-- A body that passes the scan's checks completes a frame of the next index. -/
private theorem decode_of_checks {frameLength : UInt32}
    {index term length payload checksum : List UInt8} {entries : ℕ} (rest : List UInt8)
    (hindex : index.length = 8) (hterm : term.length = 8) (hlength : length.length = 4)
    (hchecksum : checksum.length = 4) (hframe : frameLength.toNat = 24 + payload.length)
    (hsize : frameLength = bodySize (uint32OfBytes length))
    (hcrc : crc32 (bytesOfUInt32 frameLength ++ (index ++ term ++ length ++ payload)) =
      uint32OfBytes checksum)
    (hnext : (uint64OfBytes index).toNat = entries + 1) :
    logFraming.decode (entries + 1)
      (bytesOfUInt32 frameLength ++ (index ++ term ++ length ++ payload ++ checksum) ++ rest) =
        some (uint64OfBytes term, payload) := by
  have hpayload : (uint32OfBytes length).toNat = payload.length := by
    have h := toNat_of_eq_bodySize hsize (by omega)
    omega
  have hfields : frameFields (entries + 1) (uint64OfBytes term, payload) =
      bytesOfUInt32 frameLength ++ (index ++ term ++ length ++ payload) := by
    have hindexBytes := bytesOfUInt64_uint64OfBytes hindex
    have htermBytes := bytesOfUInt64_uint64OfBytes hterm
    have hlengthBytes := bytesOfUInt32_uint32OfBytes hlength
    simp only [bytesOfUInt64, bytesOfUInt32, hnext, hpayload] at hindexBytes htermBytes hlengthBytes
    simp only [frameFields, hindexBytes, htermBytes, hlengthBytes, bytesOfUInt32, hframe,
      List.append_assoc]
  have hencoded : frame (entries + 1) (uint64OfBytes term, payload) =
      bytesOfUInt32 frameLength ++ (index ++ term ++ length ++ payload ++ checksum) := by
    rw [frame, hfields, hcrc, bytesOfUInt32_uint32OfBytes hchecksum, List.append_assoc]
  rw [decode_eq_some_iff, hencoded]
  have hindexBound := (uint64OfBytes index).toNat_lt
  have hframeBound := frameLength.toNat_lt
  refine ⟨⟨by omega, ?_⟩, List.prefix_append _ _⟩
  dsimp only
  omega

/-- The result of a scan iteration, given what the bytes decode to. -/
def scanResult (index : ℕ) : Option Entry → ScanResult
  | none => .stop
  | some entry => .entry (UInt32.ofNat (24 + entry.2.length)) (UInt64.ofNat index) entry.1

/-- The first field of a frame is its length. -/
theorem frameLength_of_decode {index : ℕ} {bytes : List UInt8} {entry : Entry}
    (h : logFraming.decode index bytes = some entry) :
    bytes.take 4 = littleEndian 4 (24 + entry.2.length) := by
  obtain ⟨_, rest, rfl⟩ := decode_eq_some_iff.mp h
  simp only [frame, frameFields, List.append_assoc]
  rw [List.take_append_of_le_length (by simp), List.take_of_length_le (by simp)]

/-- The payload length of a frame is its fourth field. -/
theorem payloadLength_of_prefix {index : ℕ} {entry : Entry} {bytes : List UInt8}
    (h : frame index entry <+: bytes) :
    (bytes.drop 20).take 4 = littleEndian 4 entry.2.length := by
  obtain ⟨rest, rfl⟩ := h
  have hfields : frame index entry ++ rest =
      (littleEndian 4 (24 + entry.2.length) ++ littleEndian 8 index ++
        littleEndian 8 entry.1.toNat) ++ (littleEndian 4 entry.2.length ++
          (entry.2 ++ bytesOfUInt32 (crc32 (frameFields index entry)) ++ rest)) := by
    simp only [frame, frameFields, List.append_assoc]
  rw [hfields, List.drop_left' (by simp), List.take_left' (by simp)]

/-- A frame of the next index behind its length field passes the scan's checks. -/
private theorem checks_of_decode {frameLength : UInt32}
    {index term length payload checksum rest : List UInt8} {entries : ℕ} {entry : Entry}
    (hindex : index.length = 8) (hterm : term.length = 8) (hlength : length.length = 4)
    (hchecksum : checksum.length = 4) (hframe : frameLength.toNat = 24 + payload.length)
    (hdecode : logFraming.decode (entries + 1)
      (bytesOfUInt32 frameLength ++ (index ++ term ++ length ++ payload ++ checksum) ++ rest) =
        some entry) :
    frameLength = bodySize (uint32OfBytes length) ∧
      crc32 (bytesOfUInt32 frameLength ++ (index ++ term ++ length ++ payload)) =
        uint32OfBytes checksum ∧
      (uint64OfBytes index).toNat = entries + 1 := by
  have hhead := frameLength_of_decode hdecode
  obtain ⟨⟨hindexBound, hfits⟩, tail, htail⟩ := decode_eq_some_iff.mp hdecode
  rw [List.append_assoc, List.take_left' (bytesOfUInt32_length _)] at hhead
  have hsize : entry.2.length = payload.length := by
    have h := congrArg ofLittleEndian hhead
    have hlt := frameLength.toNat_lt
    rw [bytesOfUInt32, ofLittleEndian_littleEndian_of_lt (by omega),
      ofLittleEndian_littleEndian_of_lt (by omega)] at h
    omega
  simp only [frame, frameFields, List.append_assoc] at htail
  rw [← hhead] at htail
  obtain ⟨hindexField, htail⟩ := List.append_inj (List.append_cancel_left htail) (by simp [hindex])
  obtain ⟨htermField, htail⟩ := List.append_inj htail (by simp [hterm])
  obtain ⟨hlengthField, htail⟩ := List.append_inj htail (by simp [hlength])
  obtain ⟨hpayloadField, htail⟩ := List.append_inj htail hsize
  obtain ⟨hchecksumField, _⟩ := List.append_inj htail (by simp [hchecksum])
  have hlengthValue : bytesOfUInt32 (UInt32.ofNat payload.length) = length := by
    rw [← hlengthField, bytesOfUInt32, UInt32.toNat_ofNat', Nat.mod_eq_of_lt (by omega), hsize]
  have hindexValue : bytesOfUInt64 (UInt64.ofNat (entries + 1)) = index := by
    rw [← hindexField, bytesOfUInt64, UInt64.toNat_ofNat', Nat.mod_eq_of_lt hindexBound]
  refine ⟨?_, ?_, ?_⟩
  · apply UInt32.toNat_inj.mp
    rw [← hlengthValue, uint32OfBytes_bytesOfUInt32, bodySize_toNat (by omega), hframe]
  · rw [← hchecksumField, uint32OfBytes_bytesOfUInt32, hhead, ← hindexField, ← htermField,
      ← hlengthField, ← hpayloadField]
    simp only [List.append_assoc]
  · rw [← hindexValue, uint64OfBytes_bytesOfUInt64, UInt64.toNat_ofNat',
      Nat.mod_eq_of_lt hindexBound]

/-- The scan's checks accept a body exactly when, behind its length field, it completes
a frame of the next index. No access leaves the body. -/
theorem checkBody_eq {frameLength : UInt32} {body : List UInt8} (entries : ℕ)
    (rest : List UInt8) (hbody : body.length = frameLength.toNat) (hmin : 24 ≤ body.length) :
    checkBody frameLength body entries = .ok (scanResult (entries + 1)
      (logFraming.decode (entries + 1) (bytesOfUInt32 frameLength ++ body ++ rest))) := by
  obtain ⟨index, term, length, payload, checksum, rfl, hindex, hterm, hlength, hchecksum,
    hsize⟩ := exists_fields hmin
  have hframe := hbody.symm.trans hsize
  rw [checkBody_fields entries hindex hterm hlength hchecksum hframe]
  split
  · rename_i hchecks
    obtain ⟨hbodySize, hcrc, hnext⟩ := hchecks
    rw [decode_of_checks rest hindex hterm hlength hchecksum hframe hbodySize hcrc hnext,
      scanResult, ← hframe, ← hnext, UInt32.ofNat_toNat, UInt64.ofNat_toNat]
  · rename_i hchecks
    cases hdecode : logFraming.decode (entries + 1) (bytesOfUInt32 frameLength ++
        (index ++ term ++ length ++ payload ++ checksum) ++ rest) with
    | none => rfl
    | some entry =>
      exact absurd (checks_of_decode hindex hterm hlength hchecksum hframe hdecode) hchecks

/-- The length field read at the position of a frame. -/
theorem frameLength_frame {index : ℕ} {entry : Entry} (hfits : EntryFits index entry)
    (rest : List UInt8) :
    (uint32OfBytes ((frame index entry ++ rest).take 4)).toNat = 24 + entry.2.length := by
  obtain ⟨_, hlt⟩ := hfits
  have hdecode := decode_eq_some_iff.mpr
    ⟨⟨‹index < 2 ^ 64›, hlt⟩, List.prefix_append (frame index entry) rest⟩
  rw [frameLength_of_decode hdecode, uint32OfBytes, ofLittleEndian_littleEndian_of_lt (by omega),
    UInt32.toNat_ofNat', Nat.mod_eq_of_lt (by omega)]

/-- Whether both reads of an entry's frame are complete, and the outcomes left after
them. -/
def readsFrame (entry : Entry) (io : Schedule) : Bool × Schedule :=
  let (complete, io) := readsAll FRAME_LENGTH_SIZE io
  if complete then readsAll (24 + entry.2.length) io else (false, io)

@[simp] theorem readsFrame_nil (entry : Entry) : readsFrame entry [] = (true, []) := by
  simp [readsFrame]

/-- The reads of a frame use up the outcomes of a schedule in order. -/
theorem readsFrame_suffix (entry : Entry) (io : Schedule) : (readsFrame entry io).2 <:+ io := by
  unfold readsFrame
  dsimp only
  split
  · exact (readsAll_suffix _ _).trans (readsAll_suffix FRAME_LENGTH_SIZE io)
  · exact readsAll_suffix FRAME_LENGTH_SIZE io

/-- Where a frame of the next index begins, an iteration of the scan accepts it if both of
its reads are complete. -/
theorem scanFrame_of_decode {file : File} {pos entries : ℕ} {entry : Entry}
    (hdecode : logFraming.decode (entries + 1) (file.bytes.drop pos) = some entry)
    (io : Schedule) :
    ((readsFrame entry io).1 = true ∧ scanFrame file file.bytes.length pos entries io =
      .ok (scanResult (entries + 1) (some entry), (readsFrame entry io).2)) ∨
    ((readsFrame entry io).1 = false ∧ ∃ result,
      scanFrame file file.bytes.length pos entries io = .ok (result, (readsFrame entry io).2) ∧
      (result = .ioError ∧ ¬io.Unfailing ∨ result = .stop)) := by
  obtain ⟨hfits, rest, hframe⟩ := decode_eq_some_iff.mp hdecode
  have hinside : pos + FRAME_LENGTH_SIZE + (24 + entry.2.length) ≤ file.bytes.length := by
    have hlength := congrArg List.length hframe
    rw [List.length_drop, List.length_append, frame_length] at hlength
    simp only [FRAME_LENGTH_SIZE]
    omega
  have hvalue := frameLength_frame hfits rest
  rw [hframe] at hvalue
  rcases @File.pread_cases file FRAME_LENGTH_SIZE pos (by omega) io with
    ⟨hcomplete, hhead⟩ | ⟨hhalted, result, hhead, hcase⟩
  · have hlength : ((file.bytes.drop pos).take FRAME_LENGTH_SIZE).length =
        FRAME_LENGTH_SIZE := by
      rw [List.length_take, List.length_drop]
      omega
    have hbytes := bytesOfUInt32_uint32OfBytes hlength
    have hreads : readsFrame entry io =
        readsAll (24 + entry.2.length) (readsAll FRAME_LENGTH_SIZE io).2 := by
      simp only [readsFrame, hcomplete, if_true]
    change (uint32OfBytes ((file.bytes.drop pos).take FRAME_LENGTH_SIZE)).toNat = _ at hvalue
    simp only [scanFrame, hhead, hlength, lt_irrefl, if_false, hreads]
    generalize uint32OfBytes ((file.bytes.drop pos).take FRAME_LENGTH_SIZE) = frameLength at *
    rw [hvalue, if_neg (Nat.not_lt.mpr hinside), if_neg (by
      simp only [INDEX_SIZE, TERM_SIZE, PAYLOAD_LENGTH_SIZE, CHECKSUM_SIZE]
      omega)]
    rcases file.pread_cases hinside (readsAll FRAME_LENGTH_SIZE io).2 with
      ⟨hwhole, hbody⟩ | ⟨hhalted, result, hbody, hcase⟩
    · have hbytesAt : bytesOfUInt32 frameLength ++
          (file.bytes.drop (pos + FRAME_LENGTH_SIZE)).take (24 + entry.2.length) ++
          (file.bytes.drop (pos + FRAME_LENGTH_SIZE)).drop (24 + entry.2.length) =
            file.bytes.drop pos := by
        rw [hbytes, List.append_assoc, List.take_append_drop, ← List.drop_drop,
          List.take_append_drop]
      have hsize : ((file.bytes.drop (pos + FRAME_LENGTH_SIZE)).take
          (24 + entry.2.length)).length = frameLength.toNat := by
        rw [hvalue, List.length_take, List.length_drop]
        omega
      rw [hbody]
      dsimp only
      rw [if_neg (by omega), checkBody_eq entries _ hsize (by omega), hbytesAt, hdecode]
      exact Or.inl ⟨hwhole, rfl⟩
    · rw [hbody]
      rcases hcase with ⟨rfl, hfails⟩ | ⟨body, rfl, hshort⟩
      · exact Or.inr ⟨hhalted, .ioError, rfl,
          Or.inl ⟨rfl, fun hio => hfails (hio.suffix (readsAll_suffix _ io))⟩⟩
      · dsimp only
        rw [if_pos hshort]
        exact Or.inr ⟨hhalted, .stop, rfl, Or.inr rfl⟩
  · have hreads : readsFrame entry io = (false, (readsAll FRAME_LENGTH_SIZE io).2) := by
      simp only [readsFrame, hhalted, Bool.false_eq_true, if_false]
    simp only [scanFrame, hhead, hreads]
    rcases hcase with ⟨rfl, hfails⟩ | ⟨lengthBytes, rfl, hshort⟩
    · exact Or.inr ⟨trivial, .ioError, rfl, Or.inl ⟨rfl, hfails⟩⟩
    · dsimp only
      rw [if_pos hshort]
      exact Or.inr ⟨trivial, .stop, rfl, Or.inr rfl⟩

/-- Where no frame of the next index begins, an iteration of the scan stops, unless a read
fails. -/
theorem scanFrame_of_none {file : File} {pos entries : ℕ}
    (hpos : pos + FRAME_LENGTH_SIZE ≤ file.bytes.length)
    (hdecode : logFraming.decode (entries + 1) (file.bytes.drop pos) = none) (io : Schedule) :
    ∃ result io', scanFrame file file.bytes.length pos entries io = .ok (result, io') ∧
      io' <:+ io ∧ (result = .ioError ∧ ¬io.Unfailing ∨ result = .stop) := by
  have hrest := readsAll_suffix FRAME_LENGTH_SIZE io
  rcases file.pread_cases hpos io with ⟨_, hhead⟩ | ⟨_, result, hhead, hcase⟩
  · have hlength : ((file.bytes.drop pos).take FRAME_LENGTH_SIZE).length = FRAME_LENGTH_SIZE := by
      rw [List.length_take, List.length_drop]
      omega
    have hbytes := bytesOfUInt32_uint32OfBytes hlength
    simp only [scanFrame, hhead, hlength, lt_irrefl, if_false]
    generalize uint32OfBytes ((file.bytes.drop pos).take FRAME_LENGTH_SIZE) = frameLength
      at hbytes ⊢
    split
    · exact ⟨.stop, _, rfl, hrest, Or.inr rfl⟩
    · rename_i hinside
      split
      · exact ⟨.stop, _, rfl, hrest, Or.inr rfl⟩
      · rename_i hmin
        have hrest' := (readsAll_suffix frameLength.toNat (readsAll FRAME_LENGTH_SIZE io).2).trans
          hrest
        rcases file.pread_cases (Nat.not_lt.mp hinside) (readsAll FRAME_LENGTH_SIZE io).2 with
          ⟨_, hbody⟩ | ⟨_, result, hbody, hcase⟩
        · have hwhole : bytesOfUInt32 frameLength ++
              (file.bytes.drop (pos + FRAME_LENGTH_SIZE)).take frameLength.toNat ++
              (file.bytes.drop (pos + FRAME_LENGTH_SIZE)).drop frameLength.toNat =
                file.bytes.drop pos := by
            rw [hbytes, List.append_assoc, List.take_append_drop, ← List.drop_drop,
              List.take_append_drop]
          have hsize : ((file.bytes.drop (pos + FRAME_LENGTH_SIZE)).take
              frameLength.toNat).length = frameLength.toNat := by
            rw [List.length_take, List.length_drop]
            omega
          have hminimum : 24 ≤ ((file.bytes.drop (pos + FRAME_LENGTH_SIZE)).take
              frameLength.toNat).length := by
            rw [hsize]
            exact Nat.not_lt.mp hmin
          rw [hbody]
          dsimp only
          rw [if_neg (by omega), checkBody_eq entries _ hsize hminimum, hwhole, hdecode]
          exact ⟨.stop, _, rfl, hrest', Or.inr rfl⟩
        · rw [hbody]
          rcases hcase with ⟨rfl, hfails⟩ | ⟨body, rfl, hshort⟩
          · exact ⟨.ioError, _, rfl, hrest', Or.inl ⟨rfl, fun hio => hfails (hio.suffix hrest)⟩⟩
          · dsimp only
            rw [if_pos hshort]
            exact ⟨.stop, _, rfl, hrest', Or.inr rfl⟩
  · simp only [scanFrame, hhead]
    rcases hcase with ⟨rfl, hfails⟩ | ⟨lengthBytes, rfl, hshort⟩
    · exact ⟨.ioError, _, rfl, hrest, Or.inl ⟨rfl, hfails⟩⟩
    · dsimp only
      rw [if_pos hshort]
      exact ⟨.stop, _, rfl, hrest, Or.inr rfl⟩

/-- The bytes of a frame behind its length field. -/
private theorem frame_drop (index : ℕ) (entry : Entry) (rest : List UInt8) :
    ((frame index entry ++ rest).drop 4).take (24 + entry.2.length) =
      littleEndian 8 index ++ littleEndian 8 entry.1.toNat ++ littleEndian 4 entry.2.length ++
        entry.2 ++ bytesOfUInt32 (crc32 (frameFields index entry)) := by
  have hsplit : frame index entry ++ rest = littleEndian 4 (24 + entry.2.length) ++
      ((littleEndian 8 index ++ littleEndian 8 entry.1.toNat ++ littleEndian 4 entry.2.length ++
        entry.2 ++ bytesOfUInt32 (crc32 (frameFields index entry))) ++ rest) := by
    rw [frame, frameFields]
    simp only [List.append_assoc]
  rw [hsplit, List.drop_left' (littleEndian_length _ _), List.take_left']
  simp only [List.length_append, littleEndian_length, bytesOfUInt32_length]
  omega

/-- Parsing the body of a frame returns the frame's entry, within the body. -/
theorem parseBody_frame {index : ℕ} {entry : Entry} (hfits : EntryFits index entry)
    (checksum : List UInt8) :
    LogState.parseBody (littleEndian 8 index ++ littleEndian 8 entry.1.toNat ++
      littleEndian 4 entry.2.length ++ entry.2 ++ checksum) =
        .ok ⟨UInt64.ofNat index, entry.1, entry.2⟩ := by
  obtain ⟨term, payload⟩ := entry
  obtain ⟨hindex, hpayload⟩ := hfits
  dsimp only at hpayload ⊢
  have hlengthField := copyOut_append (littleEndian 8 index ++ littleEndian 8 term.toNat)
    (littleEndian 4 payload.length) (payload ++ checksum)
  have hindexField := copyOut_append [] (littleEndian 8 index)
    (littleEndian 8 term.toNat ++ littleEndian 4 payload.length ++ payload ++ checksum)
  have htermField := copyOut_append (littleEndian 8 index) (littleEndian 8 term.toNat)
    (littleEndian 4 payload.length ++ payload ++ checksum)
  have hpayloadField := copyOut_append
    (littleEndian 8 index ++ littleEndian 8 term.toNat ++ littleEndian 4 payload.length)
    payload checksum
  simp only [List.length_append, littleEndian_length, List.append_assoc, List.nil_append,
    List.length_nil, Nat.reduceAdd] at hlengthField hindexField htermField hpayloadField ⊢
  have hlengthValue : (uint32OfBytes (littleEndian 4 payload.length)).toNat = payload.length := by
    rw [uint32OfBytes, ofLittleEndian_littleEndian_of_lt (by omega), UInt32.toNat_ofNat',
      Nat.mod_eq_of_lt (by omega)]
  have hindexValue : uint64OfBytes (littleEndian 8 index) = UInt64.ofNat index := by
    rw [uint64OfBytes, ofLittleEndian_littleEndian_of_lt (by omega)]
  have htermValue : uint64OfBytes (littleEndian 8 term.toNat) = term :=
    uint64OfBytes_bytesOfUInt64 term
  simp only [LogState.parseBody, INDEX_SIZE, TERM_SIZE, PAYLOAD_LENGTH_SIZE, Nat.reduceAdd,
    hlengthField, hindexField, htermField, bind, Except.bind, hlengthValue, hpayloadField,
    hindexValue, htermValue]
  rfl

/-- Reading at the position of a frame returns its entry when both reads are complete,
and an I/O error otherwise. No access leaves the bytes read. -/
theorem readFrameAt_spec {s : LogState} {index offset : ℕ} {entry : Entry} {rest : List UInt8}
    (hopen : s.log.isOpen = true) (hfits : EntryFits index entry)
    (hbytes : s.file.bytes.drop offset = frame index entry ++ rest) (out : LogEntry)
    (io : Schedule) :
    ((readsFrame entry io).1 = true ∧ s.readFrameAt offset out io =
      .ok (.OK, ⟨UInt64.ofNat index, entry.1, entry.2⟩, (readsFrame entry io).2)) ∨
    ((readsFrame entry io).1 = false ∧ s.readFrameAt offset out io =
      .ok (.IO_ERROR, out, (readsFrame entry io).2)) := by
  have hinside : offset + FRAME_LENGTH_SIZE + (24 + entry.2.length) ≤ s.file.bytes.length := by
    have hlength := congrArg List.length hbytes
    rw [List.length_drop, List.length_append, frame_length] at hlength
    simp only [FRAME_LENGTH_SIZE]
    omega
  simp only [LogState.readFrameAt, hopen, Bool.not_true, Bool.false_eq_true, if_false]
  rcases @File.pread_cases s.file FRAME_LENGTH_SIZE offset (by omega) io with
    ⟨hcomplete, hhead⟩ | ⟨hhalted, result, hhead, hcase⟩
  · have hlength : ((s.file.bytes.drop offset).take FRAME_LENGTH_SIZE).length =
        FRAME_LENGTH_SIZE := by
      rw [List.length_take, List.length_drop]
      omega
    have hvalue := frameLength_frame hfits rest
    rw [← hbytes] at hvalue
    change (uint32OfBytes ((s.file.bytes.drop offset).take FRAME_LENGTH_SIZE)).toNat = _ at hvalue
    have hreads : readsFrame entry io =
        readsAll (24 + entry.2.length) (readsAll FRAME_LENGTH_SIZE io).2 := by
      simp only [readsFrame, hcomplete, if_true]
    simp only [hhead, hlength, lt_irrefl, if_false, hvalue, hreads]
    rcases s.file.pread_cases hinside (readsAll FRAME_LENGTH_SIZE io).2 with
      ⟨hcomplete, hread⟩ | ⟨hhalted, result, hread, hcase⟩
    · have hbody : ((s.file.bytes.drop (offset + FRAME_LENGTH_SIZE)).take
          (24 + entry.2.length)).length = 24 + entry.2.length := by
        rw [List.length_take, List.length_drop]
        omega
      rw [hread]
      dsimp only
      rw [if_neg (by omega), ← List.drop_drop, hbytes, FRAME_LENGTH_SIZE, frame_drop,
        parseBody_frame hfits]
      exact Or.inl ⟨hcomplete, rfl⟩
    · rw [hread]
      rcases hcase with ⟨rfl, _⟩ | ⟨body, rfl, hshort⟩
      · exact Or.inr ⟨hhalted, rfl⟩
      · dsimp only
        rw [if_pos hshort]
        exact Or.inr ⟨hhalted, rfl⟩
  · have hreads : readsFrame entry io = (false, (readsAll FRAME_LENGTH_SIZE io).2) := by
      simp only [readsFrame, hhalted, Bool.false_eq_true, if_false]
    simp only [hhead, hreads]
    rcases hcase with ⟨rfl, _⟩ | ⟨lengthBytes, rfl, hshort⟩
    · exact Or.inr ⟨trivial, rfl⟩
    · dsimp only
      rw [if_pos hshort]
      exact Or.inr ⟨trivial, rfl⟩

end MiniDB.Storage
