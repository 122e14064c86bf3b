import MiniDB.Storage.Frame

/-!
# What an open log contains

An open log represents a list of entries: its file begins with their frames and its
in-memory state is determined by them. Bytes behind the write offset are not part of
the log. Reads through the interface are shown to return the represented entries, or an
I/O error, under every schedule.
-/

namespace MiniDB.Storage

open MiniDB.Common ByteSequence Memory Posix

/-- The frames of a log's entries, numbered from one. -/
def logBytes (entries : List Entry) : List UInt8 := logFraming.encodeAll 1 entries

/-- The term of the last entry, or the sentinel of an empty log. -/
def lastTermOf (entries : List Entry) : Term := (entries.getLast?.map Prod.fst).getD INVALID_TERM

/-- The in-memory state of an open log holding the given entries. -/
def logOf (entries : List Entry) : WriteAheadLog where
  isOpen := true
  offsetIndex := (List.range entries.length).map (logFraming.frameEnd 1 entries)
  lastIndex := UInt64.ofNat entries.length
  lastTerm := lastTermOf entries
  writeOffset := (logBytes entries).length

/-- An open log represents a list of entries. -/
structure Represents (s : LogState) (entries : List Entry) : Prop where
  /-- Every entry fits its frame. -/
  allFit : logFraming.AllFit 1 entries
  /-- The file begins with the entries' frames. -/
  content : logBytes entries <+: s.file.bytes
  /-- The in-memory state is the one of these entries. -/
  log_eq : s.log = logOf entries

/-- The entries as read operations return them, with consecutive indices. -/
def numbered : ℕ → List Entry → List LogEntry
  | _, [] => []
  | index, entry :: entries =>
    ⟨UInt64.ofNat index, entry.1, entry.2⟩ :: numbered (index + 1) entries

/-- The bytes behind the write offset. -/
def residue (s : LogState) : List UInt8 := s.file.bytes.drop s.log.writeOffset

/-- The bytes of a longer log. -/
theorem logBytes_append_singleton (entries : List Entry) (entry : Entry) :
    logBytes (entries ++ [entry]) = logBytes entries ++ frame (entries.length + 1) entry := by
  rw [logBytes, logFraming.encodeAll_append, Framing.encodeAll, Framing.encodeAll,
    List.append_nil, Nat.add_comm 1]
  rfl

/-- Appending an entry extends the offsets by the old end of the log. -/
theorem logOf_append_singleton (entries : List Entry) (entry : Entry) :
    logOf (entries ++ [entry]) =
      { logOf entries with
        offsetIndex := (logOf entries).offsetIndex ++ [(logBytes entries).length]
        writeOffset := (logBytes entries).length + (frame (entries.length + 1) entry).length
        lastIndex := UInt64.ofNat (entries.length + 1)
        lastTerm := entry.1 } := by
  have hoffsets : (List.range entries.length).map
      (logFraming.frameEnd 1 (entries ++ [entry])) =
        (List.range entries.length).map (logFraming.frameEnd 1 entries) := by
    apply List.map_congr_left
    intro count hcount
    exact logFraming.frameEnd_append _ (List.mem_range.mp hcount).le
  have hlast : logFraming.frameEnd 1 (entries ++ [entry]) entries.length =
      (logBytes entries).length := by
    rw [logFraming.frameEnd_append _ le_rfl, logFraming.frameEnd_length, logBytes]
  simp only [logOf, List.length_append, List.length_singleton, List.range_succ, List.map_append,
    List.map_singleton, hoffsets, hlast, logBytes_append_singleton, lastTermOf,
    List.getLast?_append, List.getLast?_singleton, Option.some_or, Option.map_some,
    Option.getD_some]

/-- Keeping leading entries keeps their offsets and cuts the log at the end of the last
kept frame. -/
theorem logOf_take {entries : List Entry} {count : ℕ} (h : count ≤ entries.length) :
    logOf (entries.take count) =
      { logOf entries with
        offsetIndex := (logOf entries).offsetIndex.take count
        writeOffset := logFraming.frameEnd 1 entries count
        lastIndex := UInt64.ofNat count
        lastTerm := lastTermOf (entries.take count) } := by
  have hlength : (entries.take count).length = count := by
    rw [List.length_take, min_eq_left h]
  have hoffsets : (List.range count).map (logFraming.frameEnd 1 (entries.take count)) =
      (List.range count).map (logFraming.frameEnd 1 entries) := by
    apply List.map_congr_left
    intro i hi
    have hi := List.mem_range.mp hi
    rw [Framing.frameEnd, Framing.frameEnd, List.take_take, min_eq_left hi.le]
  simp only [logOf, hlength, hoffsets, ← List.map_take, List.take_range, min_eq_left h]
  rfl

namespace Represents

variable {s : LogState} {entries : List Entry}

/-- The file is the frames of the entries followed by the residue. -/
theorem bytes_eq (h : Represents s entries) : s.file.bytes = logBytes entries ++ residue s := by
  rw [residue, h.log_eq]
  exact List.prefix_append_drop h.content

theorem isOpen (h : Represents s entries) : s.log.isOpen = true := by
  rw [h.log_eq, logOf]

/-- The write offset is the end of the frames. -/
theorem writeOffset (h : Represents s entries) :
    s.log.writeOffset = (logBytes entries).length := by
  rw [h.log_eq, logOf]

/-- A file of nothing but the frames has no residue. -/
theorem residue_eq_nil (h : Represents s entries) (hbytes : s.file.bytes = logBytes entries) :
    residue s = [] := by
  have hsplit := h.bytes_eq
  rw [hbytes] at hsplit
  exact List.self_eq_append_right.mp hsplit

/-- There are fewer entries than offsets. -/
theorem length_lt (h : Represents s entries) : entries.length < 2 ^ 63 := by
  have hbytes := h.content.length_le
  have hcount := logFraming.length_le_encodeAll_length 1 entries
  have hsize := s.file.size_lt
  simp only [offsetLimit] at hsize
  rw [logBytes] at hbytes
  omega

/-- An entry whose frame length fits its field fits behind the others. -/
theorem fits_next (h : Represents s entries) {entry : Entry}
    (hpayload : 24 + entry.2.length < 2 ^ 32) : EntryFits (entries.length + 1) entry := by
  have hlength := h.length_lt
  exact ⟨by omega, hpayload⟩

/-- The last index is the number of entries. -/
theorem lastIndex (h : Represents s entries) : s.log.lastIndex.toNat = entries.length := by
  have hlength := h.length_lt
  rw [h.log_eq, logOf, UInt64.toNat_ofNat', Nat.mod_eq_of_lt (by omega)]

/-- The last term is the last entry's term. -/
theorem lastTerm (h : Represents s entries) : s.log.lastTerm = lastTermOf entries := by
  rw [h.log_eq, logOf]

/-- The offset recorded for an entry. -/
theorem elementAt_offsetIndex (h : Represents s entries) {count : ℕ}
    (hcount : count < entries.length) :
    elementAt s.log.offsetIndex count = .ok (logFraming.frameEnd 1 entries count) := by
  have hlength : count < (logOf entries).offsetIndex.length := by simpa [logOf] using hcount
  rw [h.log_eq, elementAt_of_lt hlength]
  simp [logOf]

/-- At an entry's offset the file holds the entry's frame. -/
theorem drop_frameEnd (h : Represents s entries) {count : ℕ} (hcount : count < entries.length) :
    ∃ rest, s.file.bytes.drop (logFraming.frameEnd 1 entries count) =
      frame (count + 1) entries[count] ++ rest := by
  have hdrop := @Framing.encodeAll_drop_frameEnd _ _ logFraming 1 _ _ hcount
  have hle : logFraming.frameEnd 1 entries count ≤ (logBytes entries).length := by
    have hsplit := logFraming.encodeAll_append 1 (entries.take count) (entries.drop count)
    rw [List.take_append_drop] at hsplit
    rw [logBytes, hsplit, List.length_append, Framing.frameEnd]
    omega
  refine ⟨logFraming.encodeAll (1 + count + 1) (entries.drop (count + 1)) ++ residue s, ?_⟩
  rw [h.bytes_eq, List.drop_append_of_le_length hle, logBytes, hdrop, Nat.add_comm 1 count,
    List.append_assoc]
  rfl

/-- Each entry fits its frame. -/
theorem fits (h : Represents s entries) {count : ℕ} (hcount : count < entries.length) :
    EntryFits (count + 1) entries[count] := by
  have hfits := h.allFit.getElem (F := logFraming) hcount
  rwa [Nat.add_comm] at hfits

/-- Reading an entry's frame returns the entry when both reads are complete, and an I/O
error otherwise. -/
theorem readFrameAt (h : Represents s entries) {count : ℕ} (hcount : count < entries.length)
    (out : LogEntry) (io : Schedule) :
    ((readsFrame entries[count] io).1 = true ∧
      s.readFrameAt (logFraming.frameEnd 1 entries count) out io =
        .ok (.OK, ⟨UInt64.ofNat (count + 1), entries[count].1, entries[count].2⟩,
          (readsFrame entries[count] io).2)) ∨
    ((readsFrame entries[count] io).1 = false ∧
      s.readFrameAt (logFraming.frameEnd 1 entries count) out io =
        .ok (.IO_ERROR, out, (readsFrame entries[count] io).2)) := by
  obtain ⟨rest, hbytes⟩ := h.drop_frameEnd hcount
  exact readFrameAt_spec h.isOpen (h.fits hcount) hbytes out io

/-- `entryAt` finds nothing exactly outside the log's indices. -/
theorem entryAt_outside (h : Represents s entries) {index : LogIndex}
    (hindex : index.toNat = 0 ∨ entries.length < index.toNat) (out : LogEntry) (io : Schedule) :
    s.entryAt index out io = .ok (.NOT_FOUND, out) := by
  have hlast := h.lastIndex
  rw [LogState.entryAt, if_pos]
  rcases hindex with hzero | hbeyond
  · exact Or.inl (UInt64.toNat_inj.mp hzero)
  · exact Or.inr (UInt64.lt_iff_toNat_lt.mpr (by omega))

/-- `entryAt` inside the log returns the entry when both reads of its frame are complete,
and an I/O error otherwise. -/
theorem entryAt_cases (h : Represents s entries) {index : LogIndex} (hpos : 0 < index.toNat)
    (hle : index.toNat ≤ entries.length) (out : LogEntry) (io : Schedule) :
    ((readsFrame entries[index.toNat - 1] io).1 = true ∧ s.entryAt index out io =
      .ok (.OK, ⟨index, entries[index.toNat - 1].1, entries[index.toNat - 1].2⟩)) ∨
    ((readsFrame entries[index.toNat - 1] io).1 = false ∧
      s.entryAt index out io = .ok (.IO_ERROR, out)) := by
  have hlast := h.lastIndex
  have hinside : ¬(index = INVALID_LOG_INDEX ∨ s.log.lastIndex < index) := by
    rintro (hzero | hbeyond)
    · subst hzero
      exact absurd hpos (by decide)
    · have := UInt64.lt_iff_toNat_lt.mp hbeyond
      omega
  have hcount : index.toNat - 1 < entries.length := by omega
  have hindex : UInt64.ofNat (index.toNat - 1 + 1) = index := by
    rw [Nat.sub_add_cancel hpos, UInt64.ofNat_toNat]
  rw [LogState.entryAt, if_neg hinside, h.elementAt_offsetIndex hcount]
  rcases h.readFrameAt hcount out io with ⟨hcomplete, hread⟩ | ⟨hhalted, hread⟩
  · rw [hindex] at hread
    simp only [bind, Except.bind, hread]
    exact Or.inl ⟨hcomplete, rfl⟩
  · simp only [bind, Except.bind, hread]
    exact Or.inr ⟨hhalted, rfl⟩

/-- `entryAt` inside the log returns the entry, or an I/O error if some call is made to
fail. -/
theorem entryAt_inside (h : Represents s entries) {index : LogIndex} (hpos : 0 < index.toNat)
    (hle : index.toNat ≤ entries.length) (out : LogEntry) (io : Schedule) :
    s.entryAt index out io =
        .ok (.OK, ⟨index, entries[index.toNat - 1].1, entries[index.toNat - 1].2⟩) ∨
      (io ≠ [] ∧ s.entryAt index out io = .ok (.IO_ERROR, out)) := by
  rcases h.entryAt_cases hpos hle out io with ⟨_, hread⟩ | ⟨hhalted, hread⟩
  · exact Or.inl hread
  · refine Or.inr ⟨?_, hread⟩
    rintro rfl
    simp at hhalted

/-- The loop of `range` returns what it has read followed by the entries at the remaining
indices, or nothing and an I/O error if some call is made to fail. -/
theorem rangeLoop (h : Represents s entries) {start count : ℕ}
    (hle : start + count ≤ entries.length) (out : List LogEntry) (io : Schedule) :
    s.rangeLoop (List.range' (start + 1) count) out io =
        .ok (.OK, out ++ numbered (start + 1) ((entries.drop start).take count)) ∨
      (io ≠ [] ∧ s.rangeLoop (List.range' (start + 1) count) out io = .ok (.IO_ERROR, [])) := by
  induction count generalizing start out io with
  | zero => exact Or.inl (by simp [LogState.rangeLoop, numbered])
  | succ count ih =>
    have hstart : start < entries.length := by omega
    rw [List.range'_succ, LogState.rangeLoop, Nat.add_sub_cancel, h.elementAt_offsetIndex hstart]
    have hnil : (readsFrame entries[start] io).1 = false → io ≠ [] := by
      rintro hhalted rfl
      simp at hhalted
    rcases h.readFrameAt hstart ⟨INVALID_LOG_INDEX, INVALID_TERM, []⟩ io with
      ⟨_, hread⟩ | ⟨hhalted, hread⟩
    · simp only [bind, Except.bind, hread]
      have hnumbered : out ++ numbered (start + 1) ((entries.drop start).take (count + 1)) =
          (out ++ [⟨UInt64.ofNat (start + 1), entries[start].1, entries[start].2⟩]) ++
            numbered (start + 1 + 1) ((entries.drop (start + 1)).take count) := by
        rw [List.drop_eq_getElem_cons hstart, List.take_succ_cons, numbered, List.append_assoc]
        rfl
      rw [hnumbered]
      rcases @ih (start + 1) (by omega)
        (out ++ [⟨UInt64.ofNat (start + 1), entries[start].1, entries[start].2⟩])
        (readsFrame entries[start] io).2 with hok | ⟨hio, herror⟩
      · exact Or.inl hok
      · refine Or.inr ⟨?_, herror⟩
        rintro rfl
        exact hio (by rw [readsFrame_nil])
    · simp only [bind, Except.bind, hread]
      exact Or.inr ⟨hnil hhalted, rfl⟩

/-- `range` finds nothing exactly for an empty range or one that leaves the log. -/
theorem range_outside (h : Represents s entries) {fromIndex toIndex : LogIndex}
    (hrange : fromIndex.toNat = 0 ∨ toIndex.toNat < fromIndex.toNat ∨
      entries.length < toIndex.toNat) (io : Schedule) :
    s.range fromIndex toIndex io = .ok (.NOT_FOUND, []) := by
  have hlast := h.lastIndex
  rw [LogState.range, if_pos]
  rcases hrange with hzero | hempty | hbeyond
  · exact Or.inl (UInt64.toNat_inj.mp hzero)
  · exact Or.inr (Or.inl (UInt64.lt_iff_toNat_lt.mpr hempty))
  · exact Or.inr (Or.inr (UInt64.lt_iff_toNat_lt.mpr (by omega)))

/-- `range` inside the log returns the entries with their indices, or an I/O error if
some call is made to fail. -/
theorem range_inside (h : Represents s entries) {fromIndex toIndex : LogIndex}
    (hpos : 1 ≤ fromIndex.toNat) (horder : fromIndex.toNat ≤ toIndex.toNat)
    (hle : toIndex.toNat ≤ entries.length) (io : Schedule) :
    s.range fromIndex toIndex io = .ok (.OK, numbered fromIndex.toNat
        ((entries.drop (fromIndex.toNat - 1)).take (toIndex.toNat + 1 - fromIndex.toNat))) ∨
      (io ≠ [] ∧ s.range fromIndex toIndex io = .ok (.IO_ERROR, [])) := by
  have hlast := h.lastIndex
  have hinside : ¬(fromIndex = INVALID_LOG_INDEX ∨ toIndex < fromIndex ∨
      s.log.lastIndex < toIndex) := by
    rintro (hzero | hempty | hbeyond)
    · subst hzero
      exact absurd hpos (by decide)
    · have := UInt64.lt_iff_toNat_lt.mp hempty
      omega
    · have := UInt64.lt_iff_toNat_lt.mp hbeyond
      omega
  have hloop := @rangeLoop _ _ h (fromIndex.toNat - 1) (toIndex.toNat + 1 - fromIndex.toNat)
    (by omega) [] io
  rw [Nat.sub_add_cancel hpos] at hloop
  rw [LogState.range, if_neg hinside]
  exact hloop

end Represents

/-- What the read interface shows of an open log when its reads are complete: as many
entries as listed, the last of their terms, and each of them at its index. -/
structure Exposes (s : LogState) (entries : List Entry) : Prop where
  /-- `lastIndex()` counts the entries. -/
  lastIndex : s.log.lastIndex.toNat = entries.length
  /-- `lastTerm()` is the last entry's term. -/
  lastTerm : s.log.lastTerm = lastTermOf entries
  /-- `entryAt` returns each entry. -/
  entryAt : ∀ (index : LogIndex) (out : LogEntry) (_ : 0 < index.toNat)
    (_ : index.toNat ≤ entries.length), s.entryAt index out [] =
      .ok (.OK, ⟨index, entries[index.toNat - 1].1, entries[index.toNat - 1].2⟩)
  /-- `range` over all indices returns all entries. -/
  range : entries ≠ [] → s.range 1 s.log.lastIndex [] = .ok (.OK, numbered 1 entries)

/-- A represented list is what the read interface shows. -/
theorem Represents.exposes {s : LogState} {entries : List Entry} (h : Represents s entries) :
    Exposes s entries where
  lastIndex := h.lastIndex
  lastTerm := h.lastTerm
  entryAt := by
    intro index out hpos hle
    rcases h.entryAt_inside hpos hle out [] with hread | ⟨hio, _⟩
    · exact hread
    · exact absurd rfl hio
  range := by
    intro hne
    have hpos : 0 < entries.length := List.length_pos_of_ne_nil hne
    have hlast := h.lastIndex
    have hone : (1 : LogIndex).toNat = 1 := rfl
    rcases @Represents.range_inside _ _ h 1 s.log.lastIndex (by rw [hone])
      (by rw [hone]; omega) (by omega) [] with hread | ⟨hio, _⟩
    · rw [hread, hone, hlast]
      simp
    · exact absurd rfl hio

/-- The read interface determines the list it shows. -/
theorem Exposes.unique {s : LogState} {left right : List Entry} (hleft : Exposes s left)
    (hright : Exposes s right) (hbound : left.length < 2 ^ 64) : left = right := by
  have hlength : left.length = right.length := hleft.lastIndex.symm.trans hright.lastIndex
  apply List.ext_getElem hlength
  intro position hl hr
  have hindex : (UInt64.ofNat (position + 1)).toNat = position + 1 := by
    rw [UInt64.toNat_ofNat', Nat.mod_eq_of_lt (by omega)]
  have hread := hleft.entryAt (UInt64.ofNat (position + 1)) ⟨0, 0, []⟩ (by omega) (by omega)
  have hread' := hright.entryAt (UInt64.ofNat (position + 1)) ⟨0, 0, []⟩ (by omega) (by omega)
  rw [hread] at hread'
  simp only [hindex, Nat.add_sub_cancel] at hread'
  injection hread' with hpair
  injection hpair with _ hentry
  injection hentry with _ hterm hpayload
  exact Prod.ext hterm hpayload

end MiniDB.Storage
