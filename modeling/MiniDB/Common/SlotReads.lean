import MiniDB.Common.FileIO

/-!
# What a read of a slot returns

A read fills the part of its buffer that the file does not reach with zero bytes, and checks the
length prefix against the size of the slot but not against what was read. A file that ends inside
a payload is therefore read as if zero bytes followed.
-/

namespace MiniDB.Common.FileIO

open Memory Posix ByteSequence

/-- A payload in place of an output parameter unless it was not found. -/
def outcomeInto (outPayload : List UInt8) (outcome : Status × List UInt8) :
    Status × List UInt8 :=
  (outcome.1, if outcome.1 = .OK then outcome.2 else outPayload)

/-- A parse with an output parameter is the parse without. -/
theorem parseSlotInto_eq (slotSize : UInt32) (bytes outPayload : List UInt8) :
    parseSlotInto slotSize bytes outPayload =
      (parseSlot slotSize bytes).map (outcomeInto outPayload) := by
  unfold parseSlot parseSlotInto
  cases copyIn (List.replicate slotSize.toNat 0) 0 bytes with
  | error fault => rfl
  | ok buf =>
    change (if _ then _ else _) = Except.map _ (if _ then _ else _)
    split
    · rfl
    · cases copyOut buf 0 LENGTH_SIZE with
      | error fault => rfl
      | ok lengthBytes =>
        change (if _ then _ else _) = Except.map _ (if _ then _ else _)
        split
        · rfl
        · split
          · rfl
          · cases copyOut buf LENGTH_SIZE (ofLittleEndian lengthBytes) with
            | error fault => rfl
            | ok payload => rfl

/-- A read with an output parameter is the read without. -/
theorem readSlotInto_eq (files : Files) (path : String) (slotIndex : UInt64) (slotSize : UInt32)
    (outPayload : List UInt8) (io : Schedule) :
    readSlotInto files path slotIndex slotSize outPayload io =
      (readSlot files path slotIndex slotSize io).map (outcomeInto outPayload) := by
  unfold readSlot readSlotInto
  rcases openCall io with ⟨opened, rest⟩
  cases files.get? path with
  | none => rfl
  | some file =>
    cases opened with
    | false => rfl
    | true =>
      cases slotOffset slotIndex slotSize with
      | error fault => rfl
      | ok offset =>
        cases offset with
        | negSucc _ => rfl
        | ofNat offset =>
          dsimp only [bind, Except.bind]
          cases file.preadAll slotSize.toNat offset rest with
          | none => rfl
          | some bytes => exact parseSlotInto_eq slotSize bytes outPayload

/-- A file contains a payload behind its length, and both fit a slot. -/
structure HoldsSlot (slotSize : UInt32) (bytes : List UInt8) (offset : ℕ)
    (payload : List UInt8) : Prop where
  /-- The bytes at the offset. -/
  bytes : (bytes.drop offset).take (LENGTH_SIZE + payload.length) =
    littleEndian LENGTH_SIZE payload.length ++ payload
  /-- The slot is large enough. -/
  fits : LENGTH_SIZE + payload.length ≤ slotSize.toNat

/-- A file ends inside the payload that a length prefix announces. -/
def EndsInside (slotSize : UInt32) (bytes : List UInt8) (offset : ℕ) : Prop :=
  let len := ofLittleEndian ((bytes.drop offset).take LENGTH_SIZE)
  offset + LENGTH_SIZE ≤ bytes.length ∧ len + LENGTH_SIZE ≤ slotSize.toNat ∧
    bytes.length < offset + LENGTH_SIZE + len

/-- A read that succeeds returns what the file contains, and any other read reports a failure and
leaves the output parameter alone. -/
def ReadsFaithfully (files : Files) (path : String) (slotIndex : UInt64) (slotSize : UInt32)
    (outPayload : List UInt8) (io : Schedule) : Prop :=
  ∃ s payload, readSlotInto files path slotIndex slotSize outPayload io = .ok (s, payload) ∧
    (s = .OK → HoldsSlot slotSize (bytesIn files path) (slotIndex.toNat * slotSize.toNat) payload) ∧
    (s ≠ .OK → payload = outPayload)

section Contents

variable {slotSize : UInt32} {bytes payload : List UInt8} {offset : ℕ}

/-- The length prefix that a read sees. -/
private theorem prefix_eq (hsize : LENGTH_SIZE ≤ slotSize.toNat)
    (hreached : offset + LENGTH_SIZE ≤ bytes.length) :
    (window 0 bytes offset slotSize.toNat).take LENGTH_SIZE =
      (bytes.drop offset).take LENGTH_SIZE :=
  window_take 0 hsize hreached

/-- What a slot is read as if it is read as a payload. -/
theorem slotAt_eq_ok_iff (hsize : LENGTH_SIZE ≤ slotSize.toNat) :
    slotAt slotSize bytes offset = (.OK, payload) ↔
      offset + LENGTH_SIZE ≤ bytes.length ∧
      ofLittleEndian ((bytes.drop offset).take LENGTH_SIZE) ≠ 0 ∧
      ofLittleEndian ((bytes.drop offset).take LENGTH_SIZE) + LENGTH_SIZE ≤ slotSize.toNat ∧
      payload = ((window 0 bytes offset slotSize.toNat).drop LENGTH_SIZE).take
        (ofLittleEndian ((bytes.drop offset).take LENGTH_SIZE)) := by
  unfold slotAt parseBuffer
  by_cases hshort : bytes.length < offset + LENGTH_SIZE
  · rw [if_pos hshort]
    simp [Nat.not_le.mpr hshort]
  · have hreached := Nat.not_lt.mp hshort
    rw [if_neg hshort, prefix_eq hsize hreached]
    dsimp only
    split
    · rename_i hzero
      simp [hzero]
    · rename_i hzero
      split
      · rename_i hlarge
        simp [Nat.not_le.mpr hlarge]
      · rename_i hfits
        simp [hreached, hzero, Nat.not_lt.mp hfits, eq_comm]

/-- A payload that was read is in the file exactly if the file does not end inside it. -/
theorem holdsSlot_iff (hsize : LENGTH_SIZE ≤ slotSize.toNat)
    (h : slotAt slotSize bytes offset = (.OK, payload)) :
    HoldsSlot slotSize bytes offset payload ↔ ¬EndsInside slotSize bytes offset := by
  obtain ⟨hreached, _, hfits, hpayload⟩ := (slotAt_eq_ok_iff hsize).mp h
  have hlength : payload.length = ofLittleEndian ((bytes.drop offset).take LENGTH_SIZE) := by
    rw [hpayload, List.length_take, List.length_drop, window_length]
    omega
  have hprefix : littleEndian LENGTH_SIZE payload.length =
      (bytes.drop offset).take LENGTH_SIZE := by
    have hbytes : ((bytes.drop offset).take LENGTH_SIZE).length = LENGTH_SIZE := by
      rw [List.length_take, List.length_drop]
      omega
    have hback := littleEndian_ofLittleEndian ((bytes.drop offset).take LENGTH_SIZE)
    rwa [hbytes, ← hlength] at hback
  constructor
  · rintro ⟨hbytes, _⟩ ⟨_, _, hends⟩
    have hcount := congrArg List.length hbytes
    rw [List.length_take, List.length_drop, List.length_append, littleEndian_length] at hcount
    omega
  · intro hends
    have hinside : offset + (LENGTH_SIZE + payload.length) ≤ bytes.length := by
      rw [hlength]
      by_contra hshort
      exact hends ⟨hreached, hfits, by omega⟩
    have hwithin : LENGTH_SIZE + payload.length ≤ slotSize.toNat := by omega
    refine ⟨?_, by omega⟩
    rw [← window_take 0 hwithin hinside, List.take_add,
      prefix_eq hsize hreached, hprefix, hlength]
    exact congrArg _ hpayload.symm

end Contents

section Reads

variable {files : Files} {path : String} {slotIndex : UInt64} {slotSize : UInt32}

/-- The offset of a slot is the product of its index and its size, unless it is negative. -/
theorem slotOffset_eq_ofNat (hsize : 0 < slotSize.toNat) {offset : ℕ}
    (h : slotOffset slotIndex slotSize = .ok (Int.ofNat offset)) :
    offset = slotIndex.toNat * slotSize.toNat := by
  unfold slotOffset at h
  dsimp only at h
  split at h
  · have hproduct := Except.ok.inj h
    have hindex := slotIndex.toNat_lt
    by_cases hsmall : slotIndex.toNat < 2 ^ 63
    · have hcast : Int.bmod slotIndex.toNat (2 ^ 64) = slotIndex.toNat := by
        rw [Int.bmod_def]
        omega
      rw [hcast, ← Int.natCast_mul] at hproduct
      exact (Int.ofNat.inj hproduct).symm
    · have hnegative : Int.bmod slotIndex.toNat (2 ^ 64) < 0 := by
        rw [Int.bmod_def]
        omega
      have hless := Int.mul_neg_of_neg_of_pos hnegative (Int.natCast_pos.mpr hsize)
      rw [hproduct] at hless
      exact absurd hless (Int.not_lt.mpr (Int.natCast_nonneg offset))
  · cases h

/-- A read that finds nothing is faithful. -/
theorem readsFaithfully_of_ne {s : Status} (hs : s ≠ .OK) {io : Schedule}
    (hread : readSlot files path slotIndex slotSize io = .ok (s, [])) (outPayload : List UInt8) :
    ReadsFaithfully files path slotIndex slotSize outPayload io := by
  refine ⟨s, outPayload, ?_, fun hok => absurd hok hs, fun _ => rfl⟩
  rw [readSlotInto_eq, hread]
  exact congrArg (fun payload => Except.ok (s, payload)) (if_neg hs)

/-- A read of a slot is faithful exactly if the file does not end inside the payload. -/
theorem readsFaithfully_iff_of_slotAt (hsize : LENGTH_SIZE ≤ slotSize.toNat) {io : Schedule}
    (hread : readSlot files path slotIndex slotSize io =
      .ok (slotAt slotSize (bytesIn files path) (slotIndex.toNat * slotSize.toNat)))
    (outPayload : List UInt8) :
    ReadsFaithfully files path slotIndex slotSize outPayload io ↔
      ¬EndsInside slotSize (bytesIn files path) (slotIndex.toNat * slotSize.toNat) := by
  have hinto := readSlotInto_eq files path slotIndex slotSize outPayload io
  rw [hread] at hinto
  rcases hslot : slotAt slotSize (bytesIn files path) (slotIndex.toNat * slotSize.toNat) with
    ⟨s, payload⟩
  rw [hslot] at hinto
  by_cases hs : s = .OK
  · subst hs
    rw [← holdsSlot_iff hsize hslot]
    constructor
    · rintro ⟨_, _, hresult, hholds, _⟩
      rw [hinto] at hresult
      cases hresult
      exact hholds rfl
    · intro hholds
      exact ⟨.OK, payload, hinto, fun _ => hholds, fun hne => absurd rfl hne⟩
  · constructor
    · rintro _ ⟨hreached, hfits, hends⟩
      have hpayload := (slotAt_eq_ok_iff hsize).mpr ⟨hreached, by omega, hfits, rfl⟩
      rw [hslot] at hpayload
      exact hs (congrArg Prod.fst hpayload)
    · intro _
      refine ⟨s, outPayload, hinto.trans ?_, fun hok => absurd hok hs, fun _ => rfl⟩
      exact congrArg (fun kept => Except.ok (s, kept)) (if_neg hs)

/-- Reads of a slot return only what its file contains, whatever the system calls do, if and only if
the file does not exist, or the offset of the slot can be computed and the file does not end inside
the payload there. -/
theorem readsFaithfully_iff (hsize : LENGTH_SIZE ≤ slotSize.toNat) :
    (∀ outPayload io, ReadsFaithfully files path slotIndex slotSize outPayload io) ↔
      files.get? path = none ∨ ∃ offset, slotOffset slotIndex slotSize = .ok offset ∧
        (0 ≤ offset →
          ¬EndsInside slotSize (bytesIn files path) (slotIndex.toNat * slotSize.toNat)) := by
  have hpositive := LENGTH_SIZE_pos
  cases hfile : files.get? path with
  | none =>
    refine ⟨fun _ => Or.inl rfl, fun _ outPayload io => ?_⟩
    apply readsFaithfully_of_ne (s := .NOT_FOUND) nofun
    rw [readSlot_eq]
    rw [hfile]
  | some file =>
    rw [or_iff_right nofun]
    constructor
    · intro hall
      cases hoffset : slotOffset slotIndex slotSize with
      | error fault =>
        obtain ⟨s, payload, hread, _⟩ := hall [] []
        unfold readSlotInto at hread
        rw [hfile, hoffset] at hread
        cases hread
      | ok offset =>
        refine ⟨offset, rfl, fun hnonneg => ?_⟩
        obtain ⟨start, rfl⟩ := Int.eq_ofNat_of_zero_le hnonneg
        obtain rfl := slotOffset_eq_ofNat (by omega) hoffset
        have hread := @readSlot_of_unfailing files path _ _ _ hsize hoffset _ Schedule.unfailing_nil
        exact (readsFaithfully_iff_of_slotAt hsize hread []).mp (hall [] [])
    · rintro ⟨offset, hoffset, hends⟩ outPayload io
      cases offset with
      | negSucc _ =>
        rcases hopen : openCall io with ⟨opened, rest⟩
        cases opened with
        | false =>
          apply readsFaithfully_of_ne (s := .NOT_FOUND) nofun
          rw [readSlot_eq, hfile, hopen]
        | true =>
          apply readsFaithfully_of_ne (s := .IO_ERROR) nofun
          rw [readSlot_eq, hfile, hopen, hoffset]
          rfl
      | ofNat offset =>
        obtain rfl := slotOffset_eq_ofNat (by omega) hoffset
        rcases readSlot_cases hsize hoffset io with hread | hread | hread
        · exact readsFaithfully_of_ne (s := .NOT_FOUND) nofun hread outPayload
        · exact readsFaithfully_of_ne (s := .IO_ERROR) nofun hread outPayload
        · exact (readsFaithfully_iff_of_slotAt hsize hread outPayload).mpr
            (hends (Int.natCast_nonneg _))

end Reads

/-- A file that ends with its payload is read faithfully. -/
theorem readsFaithfully_whole :
    ReadsFaithfully (FiniteMap.empty.put "people.pages" ⟨[1, 0, 0, 0, 65], by decide⟩)
      "people.pages" 0 16 [7] [.full, .short 2] := by
  refine (readsFaithfully_iff (by decide)).mpr (Or.inr ⟨0, by decide, fun _ => ?_⟩) _ _
  rintro ⟨_, _, hends⟩
  exact absurd hends (by decide)

/-- A file that ends behind the length prefix is read as if zero bytes followed. -/
theorem not_readsFaithfully_cut :
    ¬ReadsFaithfully (FiniteMap.empty.put "people.pages" ⟨[5, 0, 0, 0], by decide⟩)
      "people.pages" 0 16 [] [] := by
  rintro ⟨s, payload, hread, hholds, _⟩
  have hinvented : readSlotInto (FiniteMap.empty.put "people.pages" ⟨[5, 0, 0, 0], by decide⟩)
      "people.pages" 0 16 [] [] = .ok (.OK, [0, 0, 0, 0, 0]) := by decide +kernel
  rw [hread] at hinvented
  cases hinvented
  exact absurd (hholds rfl).bytes (by decide)

end MiniDB.Common.FileIO
