import MiniDB.Library.ShiftRegister
import MiniDB.Storage.Frame

/-!
# The checksum as a shift register

`crc32` looks eight shifts of a register up in a table. Fed with the bytes of a sequence
and then with its own checksum, the register always ends the same way, so two sequences
sealed with their checksums differ by something the register cannot see. A change of at
most four consecutive bytes is always seen.
-/

namespace MiniDB.Storage

open MiniDB.Common ByteSequence Memory Posix ShiftRegister

/-- The polynomial of the checksum, lowest power highest. -/
def crcPoly : BitVec 32 := 0xEDB88320#32

/-- A byte as it is fed into the register. -/
def crcSymbol (byte : UInt8) : BitVec 32 := byte.toBitVec.setWidth 32

/-- Its value is the byte's. -/
@[simp] theorem crcSymbol_toNat (byte : UInt8) : (crcSymbol byte).toNat = byte.toNat := by
  have hbyte := byte.toNat_lt
  rw [crcSymbol, BitVec.toNat_setWidth]
  exact Nat.mod_eq_of_lt (by omega)

/-- A byte fills eight bits of the register. -/
theorem crcSymbol_lt (byte : UInt8) : (crcSymbol byte).toNat < 2 ^ 8 := by
  rw [crcSymbol_toNat]
  exact byte.toNat_lt

/-- Different bytes are fed differently. -/
theorem crcSymbol_injective : Function.Injective crcSymbol := by
  intro left right h
  have hvalue := congrArg BitVec.toNat h
  rw [crcSymbol_toNat, crcSymbol_toNat] at hvalue
  exact UInt8.toNat_inj.mp hvalue

/-- One step of the table computation shifts the register. -/
theorem crcShift_toBitVec (c : UInt32) : (crcShift c).toBitVec = shift crcPoly c.toBitVec := by
  have hlow : (c &&& 1 = 1) ↔ c.toBitVec.getLsbD 0 = true := by
    rw [← UInt32.toNat_inj, UInt32.toNat_and, BitVec.getLsbD, Nat.testBit_zero, decide_eq_true_iff]
    change c.toNat &&& 1 = 1 ↔ _
    rw [Nat.and_one_is_mod]
    rfl
  unfold crcShift shift feedback
  by_cases h : c &&& 1 = 1
  · rw [if_pos h, if_pos (hlow.mp h)]
    rfl
  · rw [if_neg h, if_neg (fun hbit => h (hlow.mpr hbit)), BitVec.zero_xor]
    rfl

/-- So do any number of them. -/
theorem iterate_crcShift_toBitVec (n : ℕ) (c : UInt32) :
    (crcShift^[n] c).toBitVec = (shift crcPoly)^[n] c.toBitVec := by
  induction n generalizing c with
  | zero => rfl
  | succ n ih => rw [Function.iterate_succ_apply, ih, crcShift_toBitVec,
      Function.iterate_succ_apply]

/-- One byte through the table is eight shifts of the register with the byte added. -/
theorem crcUpdate_toBitVec (crc : UInt32) (byte : UInt8) :
    (crcUpdate crc byte).toBitVec = (shift crcPoly)^[8] (crc.toBitVec ^^^ crcSymbol byte) := by
  rw [iterate_shift_eq_low]
  have hindex : (crcTable.get (crcIndex crc byte)).toBitVec =
      (shift crcPoly)^[8] (BitVec.ofNat 32 ((crc.toBitVec ^^^ crcSymbol byte).toNat % 2 ^ 8)) := by
    have hposition : (crcIndex crc byte).val =
        (crc.toBitVec ^^^ crcSymbol byte).toNat % 2 ^ 8 := by
      change ((crc ^^^ byte.toUInt32) &&& 0xFF).toNat = _
      rw [UInt32.toNat_and]
      exact Nat.and_two_pow_sub_one_eq_mod _ 8
    have hentry : crcTable.get (crcIndex crc byte) =
        crcShift^[8] (UInt32.ofNat (crcIndex crc byte)) := Vector.getElem_ofFn _
    rw [hentry, iterate_crcShift_toBitVec, ← hposition]
    rfl
  have hrest : (crc >>> 8).toBitVec = (crc.toBitVec ^^^ crcSymbol byte) >>> 8 := by
    have hbyte : crcSymbol byte >>> 8 = 0#32 := by
      apply BitVec.eq_of_toNat_eq
      rw [BitVec.toNat_ushiftRight, Nat.shiftRight_eq_div_pow,
        Nat.div_eq_of_lt (crcSymbol_lt byte)]
      rfl
    rw [BitVec.ushiftRight_xor_distrib, hbyte, BitVec.xor_zero]
    rfl
  rw [← hindex, ← hrest]
  rfl

/-- The register over a byte sequence is the register fed with its bytes. -/
theorem foldl_crcUpdate_toBitVec (data : List UInt8) (crc : UInt32) :
    (data.foldl crcUpdate crc).toBitVec = feed crcPoly 8 crc.toBitVec (data.map crcSymbol) := by
  induction data generalizing crc with
  | nil => rfl
  | cons byte data ih => rw [List.foldl_cons, ih, crcUpdate_toBitVec, List.map_cons, feed_cons]

/-- Bytes side by side in the register are the integer they encode. -/
theorem word_toNat {bytes : List UInt8} (h : bytes.length ≤ 4) :
    (word 8 (bytes.map crcSymbol)).toNat = ofLittleEndian bytes := by
  induction bytes with
  | nil => rfl
  | cons byte bytes ih =>
    have hsymbols : ∀ symbol ∈ (byte :: bytes).map crcSymbol, symbol.toNat < 2 ^ 8 := by
      intro symbol hsymbol
      obtain ⟨other, _, rfl⟩ := List.mem_map.mp hsymbol
      exact crcSymbol_lt other
    rw [List.length_cons] at h
    have hroom : 8 * ((byte :: bytes).map crcSymbol).length ≤ 32 := by
      rw [List.length_map, List.length_cons]
      omega
    rw [List.map_cons, toNat_word_cons hsymbols hroom, ih (by omega), crcSymbol_toNat,
      ofLittleEndian]
    omega

/-- A sequence with its checksum behind it. -/
def sealedBytes (data : List UInt8) : List UInt8 := data ++ bytesOfUInt32 (crc32 data)

/-- Over a sealed sequence the register always ends in the same state. -/
theorem feed_sealedBytes (data : List UInt8) :
    feed crcPoly 8 (0xFFFFFFFF#32) ((sealedBytes data).map crcSymbol) =
      (shift crcPoly)^[32] 0xFFFFFFFF#32 := by
  have hdata : feed crcPoly 8 0xFFFFFFFF#32 (data.map crcSymbol) =
      (crc32 data).toBitVec ^^^ 0xFFFFFFFF#32 := by
    have hmask : (0xFFFFFFFF : UInt32).toBitVec = 0xFFFFFFFF#32 := rfl
    rw [crc32, UInt32.toBitVec_xor, foldl_crcUpdate_toBitVec, hmask, BitVec.xor_assoc,
      BitVec.xor_self, BitVec.xor_zero]
  have hchecksum : word 8 ((bytesOfUInt32 (crc32 data)).map crcSymbol) = (crc32 data).toBitVec := by
    apply BitVec.eq_of_toNat_eq
    rw [word_toNat (by rw [bytesOfUInt32_length]), bytesOfUInt32,
      ofLittleEndian_littleEndian_of_lt (crc32 data).toNat_lt]
    rfl
  have hsymbols : ∀ symbol ∈ (bytesOfUInt32 (crc32 data)).map crcSymbol,
      symbol.toNat < 2 ^ 8 := by
    intro symbol hsymbol
    obtain ⟨byte, _, rfl⟩ := List.mem_map.mp hsymbol
    exact crcSymbol_lt byte
  have hroom : ((bytesOfUInt32 (crc32 data)).map crcSymbol).length = 4 := by
    rw [List.length_map, bytesOfUInt32_length]
  rw [sealedBytes, List.map_append, feed_append, hdata, feed_eq_word crcPoly hsymbols (by omega),
    hchecksum, hroom]
  congr 1
  rw [BitVec.xor_comm, ← BitVec.xor_assoc, BitVec.xor_self, BitVec.zero_xor]

/-- Two sealed sequences of one length that differ in at most four consecutive bytes are
equal. -/
theorem sealedBytes_burst {data other before burst changed behind : List UInt8}
    (hdata : sealedBytes data = before ++ burst ++ behind)
    (hother : sealedBytes other = before ++ changed ++ behind)
    (hlength : changed.length = burst.length) (hburst : burst.length ≤ 4) : changed = burst := by
  let difference := List.zipWith (· ^^^ ·) (changed.map crcSymbol) (burst.map crcSymbol)
  have hsize : difference.length = burst.length := by
    simp [difference, hlength]
  have hzeros (bytes : List UInt8) :
      List.zipWith (· ^^^ ·) (bytes.map crcSymbol) (bytes.map crcSymbol) =
        List.replicate bytes.length 0#32 := by
    rw [List.zipWith_self, List.map_map]
    simp only [Function.comp_def, BitVec.xor_self, List.map_const']
  have hfeed : feed crcPoly 8 0#32 (List.replicate before.length 0#32 ++ difference ++
      List.replicate behind.length 0#32) = 0#32 := by
    have hsame : ((sealedBytes other).map crcSymbol).length =
        ((sealedBytes data).map crcSymbol).length := by
      simp [hdata, hother, hlength]
    have h := feed_xor crcPoly 8 0xFFFFFFFF#32 0xFFFFFFFF#32 hsame
    rw [feed_sealedBytes, feed_sealedBytes, BitVec.xor_self, BitVec.xor_self, hdata, hother] at h
    rw [← hzeros before, ← hzeros behind, ← List.zipWith_append (by simp),
      ← List.zipWith_append (by simp [hlength])]
    simpa using h.symm
  have hsymbols : ∀ symbol ∈ difference, symbol.toNat < 2 ^ 8 := by
    intro symbol hsymbol
    obtain ⟨i, hi, rfl⟩ := List.getElem_of_mem hsymbol
    rw [List.getElem_zipWith, List.getElem_map, List.getElem_map, BitVec.toNat_xor]
    exact Nat.xor_lt_two_pow (crcSymbol_lt _) (crcSymbol_lt _)
  have hnothing := eq_zero_of_feed_burst crcPoly (by decide) hsymbols (by omega) _ _ hfeed
  apply List.ext_getElem hlength
  intro i hchanged hburst
  have hi : i < difference.length := by omega
  have hzero := hnothing _ (List.getElem_mem hi)
  rw [List.getElem_zipWith, List.getElem_map, List.getElem_map, BitVec.xor_eq_zero_iff] at hzero
  exact crcSymbol_injective hzero

end MiniDB.Storage
