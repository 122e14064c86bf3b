import Mathlib.Tactic.Ring
import Mathlib.Data.List.Basic

/-!
# Byte sequences

Two facts about flat byte storage are shared by every on-disk format: fixed-width
integers are written least significant byte first, and a positional write replaces
a segment of a sequence without moving what stands around it. Both are developed
here for arbitrary widths, offsets and element types.
-/

namespace ByteSequence

/-- The `width` least significant bytes of a natural number, lowest first. -/
def littleEndian : ℕ → ℕ → List UInt8
  | 0, _ => []
  | width + 1, value => UInt8.ofNat value :: littleEndian width (value / 256)

/-- The natural number whose bytes are given lowest first. -/
def ofLittleEndian : List UInt8 → ℕ
  | [] => 0
  | byte :: bytes => byte.toNat + 256 * ofLittleEndian bytes

/-- Zero bytes encode zero. -/
@[simp] theorem ofLittleEndian_replicate_zero (width : ℕ) :
    ofLittleEndian (List.replicate width 0) = 0 := by
  induction width with
  | zero => rfl
  | succ width ih =>
    rw [List.replicate_succ, ofLittleEndian, ih]
    rfl

/-- An encoded integer occupies exactly its width. -/
@[simp] theorem littleEndian_length (width value : ℕ) :
    (littleEndian width value).length = width := by
  induction width generalizing value with
  | zero => rfl
  | succ width ih => simp [littleEndian, ih]

/-- Decoding an encoded integer reduces it to its width. -/
theorem ofLittleEndian_littleEndian (width value : ℕ) :
    ofLittleEndian (littleEndian width value) = value % 256 ^ width := by
  induction width generalizing value with
  | zero => simp [littleEndian, ofLittleEndian, Nat.mod_one]
  | succ width ih =>
    have hbyte : (UInt8.ofNat value).toNat = value % 256 := by simp
    rw [littleEndian, ofLittleEndian, ih, hbyte, pow_succ, Nat.mul_comm (256 ^ width) 256,
      Nat.mod_mul]

/-- An integer that fits its width survives the encoding. -/
theorem ofLittleEndian_littleEndian_of_lt {width value : ℕ} (h : value < 256 ^ width) :
    ofLittleEndian (littleEndian width value) = value := by
  rw [ofLittleEndian_littleEndian, Nat.mod_eq_of_lt h]

/-- Decoding never exceeds the width it reads. -/
theorem ofLittleEndian_lt (bytes : List UInt8) : ofLittleEndian bytes < 256 ^ bytes.length := by
  induction bytes with
  | nil => simp [ofLittleEndian]
  | cons byte bytes ih =>
    have hbyte := byte.toNat_lt
    rw [ofLittleEndian, List.length_cons, pow_succ]
    omega

/-- Every byte sequence is the encoding of the integer it decodes to. -/
theorem littleEndian_ofLittleEndian (bytes : List UInt8) :
    littleEndian bytes.length (ofLittleEndian bytes) = bytes := by
  induction bytes with
  | nil => rfl
  | cons byte bytes ih =>
    have hbyte := byte.toNat_lt
    have hdiv : (byte.toNat + 256 * ofLittleEndian bytes) / 256 = ofLittleEndian bytes := by omega
    have hlow : UInt8.ofNat (byte.toNat + 256 * ofLittleEndian bytes) = byte := by
      apply UInt8.toNat_inj.mp
      rw [UInt8.toNat_ofNat']
      omega
    rw [List.length_cons, ofLittleEndian, littleEndian, hdiv, hlow, ih]

section Overwrite

variable {α : Type*}

/-- Positional write: `data` replaces the segment starting at `offset`, and a gap
between the old end and `offset` is filled with `blank`. -/
def overwrite (blank : α) (content : List α) (offset : ℕ) (data : List α) : List α :=
  content.take offset ++ List.replicate (offset - content.length) blank ++ data ++
    content.drop (offset + data.length)

/-- A write inside the sequence or at its end leaves no gap to fill. -/
theorem overwrite_of_le (blank : α) {content : List α} {offset : ℕ} (data : List α)
    (h : offset ≤ content.length) :
    overwrite blank content offset data =
      content.take offset ++ data ++ content.drop (offset + data.length) := by
  simp [overwrite, Nat.sub_eq_zero_of_le h]

/-- A write ends at the later of the old end and its own end. -/
@[simp] theorem overwrite_length (blank : α) (content : List α) (offset : ℕ) (data : List α) :
    (overwrite blank content offset data).length = max content.length (offset + data.length) := by
  simp only [overwrite, List.length_append, List.length_take, List.length_replicate,
    List.length_drop]
  omega

/-- Writing at a known position: what stands before is kept, what stands behind loses as
much as is written. -/
theorem overwrite_append (blank : α) (before after data : List α) :
    overwrite blank (before ++ after) before.length data =
      before ++ data ++ after.drop data.length := by
  rw [overwrite_of_le blank data (by simp), List.take_left, ← List.drop_drop, List.drop_left]

/-- A write inside a segment leaves what stands around the segment. -/
theorem overwrite_inside (blank : α) {before segment after data : List α} {offset : ℕ}
    (h : offset + data.length ≤ segment.length) :
    overwrite blank (before ++ segment ++ after) (before.length + offset) data =
      before ++ overwrite blank segment offset data ++ after := by
  rw [overwrite_of_le blank data (by simp; omega), overwrite_of_le blank data (by omega),
    List.append_assoc before segment after, List.take_append, List.drop_append,
    List.take_append_of_le_length (by omega), List.drop_append_of_le_length (by omega),
    List.take_of_length_le (by omega), List.drop_of_length_le (by omega),
    Nat.add_sub_cancel_left, Nat.add_assoc, Nat.add_sub_cancel_left]
  simp only [List.append_assoc, List.nil_append]

/-- The elements after a write, position by position. -/
theorem getD_overwrite (blank : α) (content : List α) (offset : ℕ) (data : List α)
    (position : ℕ) :
    (overwrite blank content offset data)[position]?.getD blank =
      if position < offset ∨ offset + data.length ≤ position then content[position]?.getD blank
      else data[position - offset]?.getD blank := by
  unfold overwrite
  simp only [List.append_assoc, List.getElem?_append, List.length_take, List.length_replicate,
    List.getElem?_take, List.getElem?_drop, List.getElem?_replicate]
  grind

/-- Two writes of adjacent segments are one write of their concatenation. -/
theorem overwrite_overwrite (blank : α) (content : List α) (offset : ℕ) (first second : List α) :
    overwrite blank (overwrite blank content offset first) (offset + first.length) second =
      overwrite blank content offset (first ++ second) := by
  have hlen : offset + first.length ≤ (overwrite blank content offset first).length := by simp
  rw [overwrite_of_le blank second hlen]
  unfold overwrite
  have htake : (content.take offset ++ List.replicate (offset - content.length) blank ++
      first).length = offset + first.length := by
    simp only [List.length_append, List.length_take, List.length_replicate]
    omega
  rw [← htake, List.take_left, ← List.drop_drop, List.drop_left, List.drop_drop, htake,
    List.length_append]
  simp [Nat.add_assoc]

/-- An empty write inside the sequence changes nothing. -/
@[simp] theorem overwrite_nil (blank : α) {content : List α} {offset : ℕ}
    (h : offset ≤ content.length) : overwrite blank content offset [] = content := by
  simp [overwrite_of_le blank [] h]

/-- The elements from `offset` on, continued by blanks to a given length. -/
def window (blank : α) (content : List α) (offset length : ℕ) : List α :=
  (content.drop offset).take length ++ List.replicate (length - (content.length - offset)) blank

@[simp] theorem window_length (blank : α) (content : List α) (offset length : ℕ) :
    (window blank content offset length).length = length := by
  simp only [window, List.length_append, List.length_take, List.length_drop, List.length_replicate]
  omega

/-- The part of a window inside the sequence shows the sequence. -/
theorem window_take (blank : α) {content : List α} {offset length count : ℕ}
    (hcount : count ≤ length) (hinside : offset + count ≤ content.length) :
    (window blank content offset length).take count = (content.drop offset).take count := by
  unfold window
  rw [List.take_append_of_le_length, List.take_take, Nat.min_eq_left hcount]
  rw [List.length_take, List.length_drop]
  omega

/-- The elements of a window. -/
theorem getElem?_window (blank : α) (content : List α) (offset length position : ℕ) :
    (window blank content offset length)[position]? =
      if position < length then some (content[offset + position]?.getD blank) else none := by
  split
  · rename_i h
    unfold window
    rw [List.getElem?_append, List.length_take, List.length_drop]
    split
    · rw [List.getElem?_take_of_lt h, List.getElem?_drop, List.getElem?_eq_getElem (by omega)]
      rfl
    · rw [List.getElem?_replicate, if_pos (by omega), List.getElem?_eq_none (by omega)]
      rfl
  · rename_i h
    rw [List.getElem?_eq_none (by rw [window_length]; omega)]

/-- A window on blanks is blank. -/
theorem window_of_blank {blank : α} {content : List α} {offset : ℕ}
    (h : ∀ element ∈ content.drop offset, element = blank) (length : ℕ) :
    window blank content offset length = List.replicate length blank := by
  refine List.eq_replicate_iff.mpr ⟨window_length blank content offset length, ?_⟩
  intro element hmem
  rcases List.mem_append.mp hmem with hcontent | hblank
  · exact h element (List.mem_of_mem_take hcontent)
  · exact List.eq_of_mem_replicate hblank

/-- A write outside a window does not change it. -/
theorem window_overwrite_of_disjoint (blank : α) (content : List α) {offset start length : ℕ}
    {data : List α} (h : start + length ≤ offset ∨ offset + data.length ≤ start) :
    window blank (overwrite blank content offset data) start length =
      window blank content start length := by
  apply List.ext_getElem?
  intro position
  rw [getElem?_window, getElem?_window]
  split
  · rw [getD_overwrite, if_pos (by omega)]
  · rfl

/-- The window that was written shows what was written. -/
theorem window_overwrite_self (blank : α) (content : List α) (offset : ℕ) (data : List α) :
    window blank (overwrite blank content offset data) offset data.length = data := by
  apply List.ext_getElem?
  intro position
  rw [getElem?_window]
  split
  · rename_i h
    rw [getD_overwrite, if_neg (by omega), Nat.add_sub_cancel_left, List.getElem?_eq_getElem h]
    rfl
  · rw [List.getElem?_eq_none (by omega)]

end Overwrite

end ByteSequence
