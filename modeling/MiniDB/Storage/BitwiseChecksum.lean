import MiniDB.Storage.Checksum

/-!
# The checksum a bit at a time

The checksum of IEEE 802.3 is defined on single bits: each bit of the message, the lowest
of a byte first, is added to the bit that falls out of the register, and their sum says
whether the polynomial is taken up. The table of `crc32` holds eight such steps in each of
its entries.
-/

namespace MiniDB.Storage

open ShiftRegister

/-- The bits of a byte, the lowest first. -/
def bitsOfByte (byte : UInt8) : List Bool := (List.range 8).map byte.toBitVec.getLsbD

/-- The register after the bits of a byte sequence, one after another. -/
def bitwiseRegister (register : BitVec 32) (data : List UInt8) : BitVec 32 :=
  (data.flatMap bitsOfByte).foldl (serialShift 0xEDB88320#32) register

/-- The checksum of IEEE 802.3, a bit at a time. -/
def bitwiseCrc32 (data : List UInt8) : BitVec 32 :=
  bitwiseRegister 0xFFFFFFFF#32 data ^^^ 0xFFFFFFFF#32

/-- The bits of a byte are the lowest eight of what is fed into the register. -/
theorem bitsOfByte_eq (byte : UInt8) :
    bitsOfByte byte = (List.range 8).map (crcSymbol byte).getLsbD := by
  apply List.map_congr_left
  intro i hi
  have hlow := List.mem_range.mp hi
  rw [crcSymbol, BitVec.getLsbD_setWidth, decide_eq_true (by omega : i < 32), Bool.true_and]

/-- The register goes through a byte as through its bits. -/
theorem bitwiseRegister_cons (register : BitVec 32) (byte : UInt8) (data : List UInt8) :
    bitwiseRegister register (byte :: data) =
      bitwiseRegister ((bitsOfByte byte).foldl (serialShift crcPoly) register) data := by
  rw [bitwiseRegister, List.flatMap_cons, List.foldl_append]
  rfl

/-- A byte looked up in the table moves the register as its bits do. -/
theorem crcUpdate_bitwise (crc : UInt32) (byte : UInt8) :
    (crcUpdate crc byte).toBitVec =
      (bitsOfByte byte).foldl (serialShift crcPoly) crc.toBitVec := by
  rw [bitsOfByte_eq, foldl_serialShift crcPoly crc.toBitVec (crcSymbol_lt byte),
    crcUpdate_toBitVec]

/-- The register of the table-driven loop is the one fed bit by bit, from any start. -/
theorem foldl_crcUpdate_bitwise (data : List UInt8) (crc : UInt32) :
    (data.foldl crcUpdate crc).toBitVec = bitwiseRegister crc.toBitVec data := by
  induction data generalizing crc with
  | nil => rfl
  | cons byte data ih =>
    rw [List.foldl_cons, ih, crcUpdate_bitwise, bitwiseRegister_cons]

/-- Bits of a sequence behind those of another continue from where these left the
register. -/
theorem bitwiseRegister_append (register : BitVec 32) (front behind : List UInt8) :
    bitwiseRegister register (front ++ behind) =
      bitwiseRegister (bitwiseRegister register front) behind := by
  rw [bitwiseRegister, List.flatMap_append, List.foldl_append]
  rfl

/-- The checksum by the table is the checksum bit by bit, and its register may be carried
on from any place of the sequence. -/
theorem crc32_eq_bitwise (data : List UInt8) :
    (crc32 data).toBitVec = bitwiseCrc32 data ∧
    ∀ front behind : List UInt8,
      (front ++ behind).foldl crcUpdate 0xFFFFFFFF =
        behind.foldl crcUpdate (front.foldl crcUpdate 0xFFFFFFFF) ∧
      crc32 (front ++ behind) =
        behind.foldl crcUpdate (crc32 front ^^^ 0xFFFFFFFF) ^^^ 0xFFFFFFFF ∧
      bitwiseRegister 0xFFFFFFFF#32 (front ++ behind) =
        bitwiseRegister (front.foldl crcUpdate 0xFFFFFFFF).toBitVec behind := by
  constructor
  · rw [crc32, UInt32.toBitVec_xor, foldl_crcUpdate_bitwise]
    rfl
  · intro front behind
    have hregister : crc32 front ^^^ 0xFFFFFFFF = front.foldl crcUpdate 0xFFFFFFFF := by
      rw [crc32, UInt32.xor_assoc, UInt32.xor_self, UInt32.xor_zero]
    refine ⟨List.foldl_append, ?_, ?_⟩
    · rw [hregister, crc32, List.foldl_append]
    · rw [foldl_crcUpdate_bitwise, bitwiseRegister_append]
      rfl

/-- The digits `1` to `9` have the checksum the standard gives for them. -/
example :
    bitwiseCrc32 [0x31, 0x32, 0x33, 0x34, 0x35, 0x36, 0x37, 0x38, 0x39] = 0xCBF43926#32 := by
  decide +kernel

end MiniDB.Storage
