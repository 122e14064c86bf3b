import MiniDB.Storage.LogContents

/-!
# Appending and truncating

Each update of an open log either takes effect on the represented list or leaves the list
alone. Which of the two happens is a function of the call and its schedule. The bytes
behind the write offset are tracked through both outcomes, because the recovery scan
reads them again.
-/

namespace MiniDB.Storage

open MiniDB.Common ByteSequence Memory Posix

/-- How much of an entry's frame `append` writes behind the given entries, and the
outcomes left for its `fsync`. -/
def appendTransfer (entries : List Entry) (entry : Entry) (io : Schedule) : ℕ × Schedule :=
  transferred (28 + entry.2.length) (logBytes entries).length io

/-- Whether the whole frame is written and the following `fsync` succeeds. -/
def appendSucceeds (entries : List Entry) (entry : Entry) (io : Schedule) : Bool :=
  (appendTransfer entries entry io).1 = 28 + entry.2.length &&
    (fsync (appendTransfer entries entry io).2).1

/-- Whether a truncation that keeps `count` entries reads the entry that becomes the last
one and then cuts the file. -/
def truncateSucceeds (entries : List Entry) (count : ℕ) (io : Schedule) : Bool :=
  match (entries.take count).getLast? with
  | none => io.next.1.succeeds
  | some entry =>
    let (complete, io) := readsFrame entry io
    complete && io.next.1.succeeds

namespace Represents

variable {s : LogState} {entries : List Entry}

/-- A log whose file gained bytes behind the entries' frames and nothing else still
represents its entries. -/
theorem of_bytes (h : Represents s entries) {file : File} {rest : List UInt8}
    (hbytes : file.bytes = logBytes entries ++ rest) :
    Represents { s with file } entries ∧ residue { s with file } = rest := by
  refine ⟨⟨h.allFit, ⟨rest, hbytes.symm⟩, h.log_eq⟩, ?_⟩
  rw [residue, hbytes, h.writeOffset, List.drop_left]

/-- The next index does not wrap. -/
theorem lastIndex_succ (h : Represents s entries) :
    s.log.lastIndex + 1 = UInt64.ofNat (entries.length + 1) ∧
      (s.log.lastIndex + 1).toNat = entries.length + 1 := by
  have hlength := h.length_lt
  have hindex : s.log.lastIndex + 1 = UInt64.ofNat (entries.length + 1) := by
    apply UInt64.toNat_inj.mp
    have hlast := h.lastIndex
    have hone : (1 : UInt64).toNat = 1 := rfl
    rw [UInt64.toNat_add, hlast, hone, UInt64.toNat_ofNat']
  refine ⟨hindex, ?_⟩
  rw [hindex, UInt64.toNat_ofNat', Nat.mod_eq_of_lt (by omega)]

/-- The log with one more frame represents one more entry. -/
theorem append_singleton (h : Represents s entries) {entry : Entry} {file : File}
    {rest : List UInt8} (hfits : EntryFits (entries.length + 1) entry)
    (hbytes : file.bytes = logBytes entries ++ frame (entries.length + 1) entry ++ rest) :
    Represents ⟨logOf (entries ++ [entry]), file⟩ (entries ++ [entry]) ∧
      residue ⟨logOf (entries ++ [entry]), file⟩ = rest := by
  have hframes : file.bytes = logBytes (entries ++ [entry]) ++ rest := by
    rw [hbytes, logBytes_append_singleton]
  refine ⟨⟨?_, ⟨rest, hframes.symm⟩, rfl⟩, ?_⟩
  · rw [Framing.allFit_append]
    refine ⟨h.allFit, ?_, trivial⟩
    rw [Nat.add_comm]
    exact hfits
  · rw [residue, hframes, logOf, List.drop_left]

/-- `append` either assigns the next index and extends the log, or reports an I/O error
and leaves the log as it was. The part of the frame that was written replaces the bytes
behind the write offset. -/
theorem append (h : Represents s entries) (term : Term) {payload : List UInt8}
    (hpayload : 24 + payload.length < 2 ^ 32) (outIndex : LogIndex) (io : Schedule) :
    (appendSucceeds entries (term, payload) io = true ∧ ∃ s',
      s.append term payload outIndex io =
        .ok (.OK, UInt64.ofNat (entries.length + 1), s') ∧
      Represents s' (entries ++ [(term, payload)]) ∧
      residue s' = (residue s).drop (28 + payload.length)) ∨
    (appendSucceeds entries (term, payload) io = false ∧ ∃ s',
      s.append term payload outIndex io = .ok (.IO_ERROR, outIndex, s') ∧
      Represents s' entries ∧ s'.log = s.log ∧
      residue s' =
        (frame (entries.length + 1) (term, payload)).take
            (appendTransfer entries (term, payload) io).1 ++
          (residue s).drop (appendTransfer entries (term, payload) io).1) := by
  obtain ⟨hindex, hvalue⟩ := h.lastIndex_succ
  have hoffset := h.writeOffset
  have hfits : EntryFits (entries.length + 1) (term, payload) := h.fits_next hpayload
  have hbuffer := frameBuffer_eq (s.log.lastIndex + 1) term hpayload
  rw [hvalue] at hbuffer
  have hinside : (logBytes entries).length ≤ s.file.bytes.length := h.content.length_le
  obtain ⟨file, hwrite, hbytes⟩ := @File.pwriteAll_spec s.file
    (frame (entries.length + 1) (term, payload)) _ hinside io
  have hle := transferred_le (28 + payload.length) (logBytes entries).length io
  rw [frame_length] at hwrite hbytes
  dsimp only at hwrite hbytes
  have htransfer : transferred (28 + payload.length) (logBytes entries).length io =
      appendTransfer entries (term, payload) io := rfl
  rw [htransfer] at hwrite hbytes hle
  have htaken : ((frame (entries.length + 1) (term, payload)).take
      (appendTransfer entries (term, payload) io).1).length =
        (appendTransfer entries (term, payload) io).1 := by
    rw [List.length_take, frame_length, min_eq_left hle]
  rw [h.bytes_eq, overwrite_append, htaken] at hbytes
  simp only [LogState.append, h.isOpen, Bool.not_true, Bool.false_eq_true, if_false, hbuffer,
    hoffset, hwrite]
  by_cases hwhole : (appendTransfer entries (term, payload) io).1 = 28 + payload.length
  · rw [hwhole] at hbytes
    rw [decide_eq_true hwhole]
    dsimp only
    rcases hsync : (fsync (appendTransfer entries (term, payload) io).2).1 with _ | _
    · have hfailed : appendSucceeds entries (term, payload) io = false := by
        rw [appendSucceeds, hsync, Bool.and_false]
      rw [List.append_assoc] at hbytes
      obtain ⟨hrep, hresidue⟩ := h.of_bytes hbytes
      refine Or.inr ⟨hfailed, { s with file }, rfl, hrep, rfl, ?_⟩
      rw [hresidue, hwhole]
    · have hsucceeded : appendSucceeds entries (term, payload) io = true := by
        rw [appendSucceeds, hsync, Bool.and_true]
        exact decide_eq_true hwhole
      rw [List.take_of_length_le (by rw [frame_length])] at hbytes
      obtain ⟨hrep, hresidue⟩ := h.append_singleton hfits hbytes
      refine Or.inl ⟨hsucceeded, _, ?_, hrep, hresidue⟩
      rw [logOf_append_singleton, h.log_eq, ← h.log_eq, hindex]
      simp only [Bool.not_true, Bool.false_eq_true, if_false]
      rw [h.log_eq]
      rfl
  · have hfailed : appendSucceeds entries (term, payload) io = false := by
      rw [appendSucceeds, decide_eq_false hwhole, Bool.false_and]
    rw [decide_eq_false hwhole]
    rw [List.append_assoc] at hbytes
    obtain ⟨hrep, hresidue⟩ := h.of_bytes hbytes
    exact Or.inr ⟨hfailed, { s with file }, rfl, hrep, rfl, hresidue⟩

/-- Cutting the log behind its first `count` entries, or failing to. -/
theorem truncateTo (h : Represents s entries) {count : ℕ} (hcount : count ≤ entries.length)
    (io : Schedule) :
    (io.next.1.succeeds = true ∧ ∃ s',
      s.truncateTo (UInt64.ofNat count) (lastTermOf (entries.take count))
        (logFraming.frameEnd 1 entries count) io = .ok (.OK, s') ∧
      Represents s' (entries.take count) ∧ residue s' = []) ∨
    (io.next.1.succeeds = false ∧
      s.truncateTo (UInt64.ofNat count) (lastTermOf (entries.take count))
        (logFraming.frameEnd 1 entries count) io = .ok (.IO_ERROR, s)) := by
  have hprefix : logBytes (entries.take count) <+: s.file.bytes := by
    have hsplit := logFraming.encodeAll_append 1 (entries.take count) (entries.drop count)
    rw [List.take_append_drop] at hsplit
    have hcontent := h.content
    rw [logBytes, hsplit] at hcontent
    exact (List.prefix_append _ _).trans hcontent
  have hend : logFraming.frameEnd 1 entries count = (logBytes (entries.take count)).length := rfl
  have hcountValue : (UInt64.ofNat count).toNat = count := by
    have hlength := h.length_lt
    rw [UInt64.toNat_ofNat', Nat.mod_eq_of_lt (by omega)]
  obtain ⟨cut, hbytes, hcut⟩ := File.ftruncate_of_prefix hprefix io
  rw [hend]
  unfold LogState.truncateTo
  rw [hcut, hcountValue]
  cases hok : io.next.1.succeeds with
  | false => exact Or.inr ⟨rfl, rfl⟩
  | true =>
    refine Or.inl ⟨rfl, _, rfl, ⟨h.allFit.take (F := logFraming) count, ?_, ?_⟩, ?_⟩
    · exact ⟨[], (List.append_nil _).trans hbytes.symm⟩
    · rw [logOf_take hcount, h.log_eq, hend]
    · unfold residue
      rw [hbytes, List.drop_length]

/-- The entry in front of a position is the last of the entries up to it. -/
private theorem getLast?_take_succ {entries : List Entry} {count : ℕ}
    (hcount : count < entries.length) :
    (entries.take (count + 1)).getLast? = some entries[count] := by
  rw [List.take_succ_eq_append_getElem hcount, List.getLast?_append]
  rfl

/-- Truncating from the index 0 or 1 cuts off all entries, without reading any. -/
private theorem truncateFrom_first (h : Represents s entries) {index : LogIndex}
    (hfirst : index.toNat ≤ 1) (hle : index.toNat ≤ entries.length) (io : Schedule) :
    s.truncateFrom index io =
      s.truncateTo (UInt64.ofNat 0) (lastTermOf (entries.take 0))
        (logFraming.frameEnd 1 entries 0) io := by
  by_cases hzero : index = INVALID_LOG_INDEX
  · simp only [LogState.truncateFrom, h.isOpen, Bool.not_true, Bool.false_eq_true, if_false,
      if_pos hzero]
    rfl
  · have hone : index = 1 := by
      have hne : index.toNat ≠ 0 := fun heq => hzero (UInt64.toNat_inj.mp heq)
      apply UInt64.toNat_inj.mp
      rw [UInt64.toNat_one]
      omega
    subst hone
    have hpresent : 0 < entries.length := hle
    have hless : ¬s.log.lastIndex < 1 := by
      rw [UInt64.lt_iff_toNat_lt, h.lastIndex]
      exact Nat.not_lt.mpr hle
    have hnone : (1 : LogIndex) - 1 = INVALID_LOG_INDEX := rfl
    simp only [LogState.truncateFrom, h.isOpen, Bool.not_true, Bool.false_eq_true, if_false,
      if_neg hzero, if_neg hless, UInt64.toNat_one, Nat.sub_self, h.elementAt_offsetIndex hpresent,
      bind, Except.bind, if_pos hnone]
    rfl

/-- Truncating from a later index reads the entry that becomes the last one. -/
private theorem truncateFrom_later (h : Represents s entries) {index : LogIndex} {previous : ℕ}
    (hindex : index.toNat = previous + 2) (hlt : previous + 1 < entries.length)
    (hpreceding : previous < entries.length) (io : Schedule) :
    s.truncateFrom index io =
      if (readsFrame entries[previous] io).1 then
        s.truncateTo (UInt64.ofNat (previous + 1)) (lastTermOf (entries.take (previous + 1)))
          (logFraming.frameEnd 1 entries (previous + 1)) (readsFrame entries[previous] io).2
      else .ok (.IO_ERROR, s) := by
  have hlength := h.length_lt
  have hzero : index ≠ INVALID_LOG_INDEX := by
    rintro rfl
    simp [INVALID_LOG_INDEX] at hindex
  have hless : ¬s.log.lastIndex < index := by
    rw [UInt64.lt_iff_toNat_lt, h.lastIndex]
    omega
  have hvalue : (UInt64.ofNat (previous + 1)).toNat = previous + 1 := by
    rw [UInt64.toNat_ofNat', Nat.mod_eq_of_lt (by omega)]
  have hprevious : index - 1 = UInt64.ofNat (previous + 1) := by
    apply UInt64.toNat_inj.mp
    have hone : (1 : UInt64) ≤ index := by
      rw [UInt64.le_iff_toNat_le, hindex]
      exact Nat.le_add_left 1 (previous + 1)
    rw [UInt64.toNat_sub_of_le _ _ hone, hindex, hvalue]
    rfl
  have hnonzero : UInt64.ofNat (previous + 1) ≠ INVALID_LOG_INDEX := by
    intro heq
    rw [heq] at hvalue
    simp [INVALID_LOG_INDEX] at hvalue
  have hterm : lastTermOf (entries.take (previous + 1)) = entries[previous].1 := by
    rw [lastTermOf, getLast?_take_succ hpreceding]
    rfl
  have hoffset : index.toNat - 1 = previous + 1 := by omega
  rcases h.readFrameAt hpreceding ⟨INVALID_LOG_INDEX, INVALID_TERM, []⟩ io with
    ⟨hcomplete, hread⟩ | ⟨hhalted, hread⟩
  · rw [if_pos hcomplete]
    simp only [LogState.truncateFrom, h.isOpen, Bool.not_true, Bool.false_eq_true, if_false,
      if_neg hzero, if_neg hless, hoffset, h.elementAt_offsetIndex hlt, hprevious, bind,
      Except.bind, if_neg hnonzero, hvalue, Nat.add_sub_cancel,
      h.elementAt_offsetIndex hpreceding, hread, hterm]
  · rw [if_neg (by rw [hhalted]; exact Bool.false_ne_true)]
    simp only [LogState.truncateFrom, h.isOpen, Bool.not_true, Bool.false_eq_true, if_false,
      if_neg hzero, if_neg hless, hoffset, h.elementAt_offsetIndex hlt, hprevious, bind,
      Except.bind, if_neg hnonzero, hvalue, Nat.add_sub_cancel,
      h.elementAt_offsetIndex hpreceding, hread]
    rfl

/-- `truncateFrom` does nothing beyond the last entry. Elsewhere it either keeps the
entries in front of the index, with nothing behind them in the file, or reports an I/O
error and changes nothing. -/
theorem truncateFrom (h : Represents s entries) (index : LogIndex) (io : Schedule) :
    (entries.length < index.toNat ∧ s.truncateFrom index io = .ok (.OK, s)) ∨
    (index.toNat ≤ entries.length ∧
      truncateSucceeds entries (index.toNat - 1) io = true ∧ ∃ s',
        s.truncateFrom index io = .ok (.OK, s') ∧
        Represents s' (entries.take (index.toNat - 1)) ∧ residue s' = []) ∨
    (index.toNat ≤ entries.length ∧
      truncateSucceeds entries (index.toNat - 1) io = false ∧
      s.truncateFrom index io = .ok (.IO_ERROR, s)) := by
  by_cases hbeyond : entries.length < index.toNat
  · refine Or.inl ⟨hbeyond, ?_⟩
    have hzero : index ≠ INVALID_LOG_INDEX := by
      rintro rfl
      exact absurd hbeyond (by simp [INVALID_LOG_INDEX])
    have hgreater : s.log.lastIndex < index := by
      rw [UInt64.lt_iff_toNat_lt, h.lastIndex]
      exact hbeyond
    simp only [LogState.truncateFrom, h.isOpen, Bool.not_true, Bool.false_eq_true, if_false,
      if_neg hzero, if_pos hgreater]
  · right
    have hle : index.toNat ≤ entries.length := Nat.not_lt.mp hbeyond
    by_cases hfirst : index.toNat ≤ 1
    · rw [h.truncateFrom_first hfirst hle, Nat.sub_eq_zero_of_le hfirst]
      rcases h.truncateTo (Nat.zero_le _) io with ⟨hok, s', hcut⟩ | ⟨hok, hcut⟩
      · exact Or.inl ⟨hle, hok, s', hcut⟩
      · exact Or.inr ⟨hle, hok, hcut⟩
    · obtain ⟨previous, hindex⟩ := Nat.exists_eq_add_of_le' (Nat.not_le.mp hfirst)
      have hlt : previous + 1 < entries.length := by omega
      have hpreceding : previous < entries.length := by omega
      have hcount : index.toNat - 1 = previous + 1 := by omega
      have hsucceeds : truncateSucceeds entries (previous + 1) io =
          ((readsFrame entries[previous] io).1 &&
            (readsFrame entries[previous] io).2.next.1.succeeds) := by
        rw [truncateSucceeds, getLast?_take_succ hpreceding]
      rw [h.truncateFrom_later hindex hlt hpreceding, hcount, hsucceeds]
      cases hread : (readsFrame entries[previous] io).1 with
      | false => exact Or.inr ⟨hle, rfl, if_neg Bool.false_ne_true⟩
      | true =>
        rw [if_pos rfl, Bool.true_and]
        rcases h.truncateTo hlt.le (readsFrame entries[previous] io).2 with
          ⟨hok, s', hcut⟩ | ⟨hok, hcut⟩
        · exact Or.inl ⟨hle, hok, s', hcut⟩
        · exact Or.inr ⟨hle, hok, hcut⟩

end Represents

end MiniDB.Storage
