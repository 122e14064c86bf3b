import MiniDB.Storage.LogUpdates

/-!
# Recovery

The scan of `open` is the scan of the log's framing: it stops exactly where no frame of
the next index begins, unless a scheduled read makes it stop before. What it accepted
is what the opened log represents, and nothing is left behind it in the file.
-/

namespace MiniDB.Storage

open MiniDB.Common ByteSequence Memory Posix

/-- The log object while the scan is running: offsets, index and term of the accepted
frames, and no write offset yet. -/
def scanned (entries : List Entry) : WriteAheadLog := { logOf entries with writeOffset := 0 }

/-- One accepted frame extends the scanned log. -/
theorem scanned_append_singleton (entries : List Entry) (entry : Entry) :
    scanned (entries ++ [entry]) =
      { scanned entries with
        offsetIndex := (scanned entries).offsetIndex ++ [(logBytes entries).length]
        lastIndex := UInt64.ofNat (entries.length + 1)
        lastTerm := entry.1 } := by
  rw [scanned, logOf_append_singleton]
  rfl

/-- Whether both reads of each of some entries' frames, in order, are complete. -/
def readsFrames : List Entry → Schedule → Bool
  | [], _ => true
  | entry :: entries, io => (readsFrame entry io).1 && readsFrames entries (readsFrame entry io).2

@[simp] theorem readsFrames_nil (entries : List Entry) : readsFrames entries [] = true := by
  induction entries with
  | nil => rfl
  | cons entry entries ih => rw [readsFrames, readsFrame_nil, ih, Bool.and_self]

/-- The scan extends the accepted frames by frames that follow them in the file, up to the
first whose reads are not complete. -/
theorem scanLoop_spec {file : File} {entries : List Entry} {rest : List UInt8}
    (hbytes : file.bytes = logBytes entries ++ rest) (io : Schedule) :
    ∃ ok accepted io',
      scanLoop file file.bytes.length (logBytes entries).length (scanned entries) io =
        .ok (⟨ok, (logBytes (entries ++ accepted)).length, scanned (entries ++ accepted)⟩, io') ∧
      io' <:+ io ∧ (io.Unfailing → ok = true) ∧
      accepted <+: logFraming.scan (entries.length + 1) rest ∧
      (accepted = logFraming.scan (entries.length + 1) rest ↔
        readsFrames (logFraming.scan (entries.length + 1) rest) io = true) := by
  induction hsize : rest.length using Nat.strong_induction_on generalizing entries rest io with
  | _ size ih =>
    have hdrop : file.bytes.drop (logBytes entries).length = rest := by
      rw [hbytes, List.drop_left]
    have hentries : (scanned entries).offsetIndex.length = entries.length := by
      simp [scanned, logOf]
    rw [scanLoop]
    by_cases hroom : (logBytes entries).length + FRAME_LENGTH_SIZE ≤ file.bytes.length
    · rw [if_pos hroom, hentries]
      cases hdecode : logFraming.decode (entries.length + 1) rest with
      | none =>
        rw [logFraming.scan_of_none hdecode]
        rw [← hdrop] at hdecode
        obtain ⟨result, io', hscan, hrest, ⟨rfl, hfails⟩ | rfl⟩ :=
          scanFrame_of_none hroom hdecode io
        · rw [hscan]
          exact ⟨false, [], io', by rw [List.append_nil], hrest, fun hio => absurd hio hfails,
            List.prefix_refl _, by simp [readsFrames]⟩
        · rw [hscan]
          exact ⟨true, [], io', by rw [List.append_nil], hrest, fun _ => rfl,
            List.prefix_refl _, by simp [readsFrames]⟩
      | some entry =>
        have hentry := decode_eq_some_iff.mp hdecode
        rw [logFraming.scan_of_some hdecode]
        rw [← hdrop] at hdecode
        rcases scanFrame_of_decode hdecode io with
          ⟨hcomplete, hscan⟩ | ⟨hhalted, result, hscan, hresult⟩
        · obtain ⟨hfits, tail, rfl⟩ := hentry
          have hnext : file.bytes = logBytes (entries ++ [entry]) ++ tail := by
            rw [hbytes, logBytes_append_singleton, List.append_assoc]
          have hshorter : tail.length < size := by
            rw [← hsize, List.length_append, frame_length]
            omega
          have hpos : (logBytes entries).length + FRAME_LENGTH_SIZE +
              (UInt32.ofNat (24 + entry.2.length)).toNat =
                (logBytes (entries ++ [entry])).length := by
            rw [UInt32.toNat_ofNat', Nat.mod_eq_of_lt hfits.2, logBytes_append_singleton,
              List.length_append, frame_length, FRAME_LENGTH_SIZE]
            omega
          have hbehind : (frame (entries.length + 1) entry ++ tail).drop
              (logFraming.encode (entries.length + 1) entry).length = tail := List.drop_left
          obtain ⟨ok, accepted, io', hloop, hrest, hok, hpre, hiff⟩ :=
            ih tail.length hshorter hnext (readsFrame entry io).2 rfl
          have hlater := readsFrame_suffix entry io
          rw [List.length_append, List.length_singleton] at hpre hiff
          rw [scanned_append_singleton, List.append_assoc] at hloop
          rw [hscan, hbehind]
          refine ⟨ok, entry :: accepted, io', ?_, hrest.trans hlater,
            fun hio => hok (hio.suffix hlater), ?_, ?_⟩
          · simp only [scanResult]
            rw [hpos]
            exact hloop
          · exact (List.prefix_cons_inj entry).mpr hpre
          · rw [List.cons.injEq, readsFrames, hcomplete, Bool.true_and]
            exact (and_iff_right rfl).trans hiff
        · have hstops : readsFrames (entry :: logFraming.scan (entries.length + 1 + 1)
              (rest.drop (logFraming.encode (entries.length + 1) entry).length)) io = false := by
            rw [readsFrames, hhalted, Bool.false_and]
          rw [hscan, hstops]
          rcases hresult with ⟨rfl, hfails⟩ | rfl
          · exact ⟨false, [], _, by rw [List.append_nil], readsFrame_suffix entry io,
              fun hio => absurd hio hfails, List.nil_prefix, by simp⟩
          · exact ⟨true, [], _, by rw [List.append_nil], readsFrame_suffix entry io,
              fun _ => rfl, List.nil_prefix, by simp⟩
    · have hdecode : logFraming.decode (entries.length + 1) rest = none := by
        apply decode_of_length_lt
        rw [hbytes, List.length_append, FRAME_LENGTH_SIZE] at hroom
        omega
      rw [if_neg hroom, logFraming.scan_of_none hdecode]
      exact ⟨true, [], io, by rw [List.append_nil], List.suffix_refl io, fun _ => rfl,
        List.prefix_refl _, by simp [readsFrames]⟩

namespace LogState

/-- A successful `open` represents a run of frames that begins the file, up to the first
whose reads are not complete, and cuts the file behind it. Only a call that fails makes it
fail. -/
theorem openLog_spec (s : LogState) (io : Schedule) :
    (∃ s' entries, s.openLog io = .ok (.OK, s') ∧ Represents s' entries ∧
      s'.file.bytes = logBytes entries ∧ entries <+: logFraming.scan 1 s.file.bytes ∧
      (entries = logFraming.scan 1 s.file.bytes ↔
        readsFrames (logFraming.scan 1 s.file.bytes) (io.drop 2) = true)) ∨
    (¬io.Unfailing ∧ ∃ s', s.openLog io = .ok (.IO_ERROR, s')) := by
  have hdrop : io.next.2.next.2 = io.drop 2 := by
    rcases io with _ | ⟨_, _ | ⟨_, io⟩⟩ <;> rfl
  have hlater := Schedule.next_suffix io.next.2
  unfold openLog
  cases hopened : io.next.1.succeeds with
  | false =>
    refine Or.inr ⟨fun hio => ?_, _, by simp only [hopened, Bool.not_false, if_true]; rfl⟩
    rw [Outcome.succeeds_of_ne hio.next_ne_fail] at hopened
    cases hopened
  | true =>
    cases hsized : io.next.2.next.1.succeeds with
    | false =>
      refine Or.inr ⟨fun hio => ?_, _, by
        simp only [hopened, hsized, Bool.not_true, Bool.false_eq_true, if_false, Bool.not_false,
          if_true]
        rfl⟩
      rw [Outcome.succeeds_of_ne (hio.suffix io.next_suffix).next_ne_fail] at hsized
      cases hsized
    | true =>
      simp only [hopened, hsized, Bool.not_true, Bool.false_eq_true, if_false]
      obtain ⟨ok, accepted, io₃, hloop, hrest, hok, hpre, hiff⟩ :=
        @scanLoop_spec s.file [] s.file.bytes rfl io.next.2.next.2
      have hstart : scanned [] = ⟨true, [], INVALID_LOG_INDEX, INVALID_TERM, 0⟩ := rfl
      have hsuffix := (hrest.trans hlater).trans io.next_suffix
      rw [List.nil_append, hstart] at hloop
      rw [hdrop] at hiff
      change scanLoop s.file s.file.bytes.length 0 _ io.next.2.next.2 = _ at hloop
      obtain ⟨hall, hbegins⟩ := logFraming.scan_sound 1 s.file.bytes
      have hfits := hall.of_prefix (F := logFraming) hpre
      have hcontent : logBytes accepted <+: s.file.bytes :=
        (logFraming.encodeAll_prefix 1 hpre).trans hbegins
      rw [hloop]
      cases ok with
      | false =>
        exact Or.inr ⟨fun hio => Bool.noConfusion
          (hok ((hio.suffix io.next_suffix).suffix hlater)), _, rfl⟩
      | true =>
        by_cases hwhole : (logBytes accepted).length = s.file.bytes.length
        · have hbytes : logBytes accepted = s.file.bytes := hcontent.eq_of_length hwhole
          simp only [hwhole, ne_eq, not_true, if_false]
          refine Or.inl ⟨_, accepted, rfl, ⟨hfits, hcontent, ?_⟩, hbytes.symm, hpre, hiff⟩
          rw [← hwhole]
          rfl
        · obtain ⟨cut, hbytes, hcut⟩ := File.ftruncate_of_prefix hcontent io₃
          dsimp only
          rw [if_pos hwhole, hcut]
          cases htruncated : io₃.next.1.succeeds with
          | false =>
            refine Or.inr ⟨fun hio => ?_, _, rfl⟩
            rw [Outcome.succeeds_of_ne (hio.suffix hsuffix).next_ne_fail] at htruncated
            cases htruncated
          | true =>
            refine Or.inl ⟨_, accepted, rfl, ⟨hfits, ?_, rfl⟩, hbytes, hpre, hiff⟩
            exact ⟨[], (List.append_nil _).trans hbytes.symm⟩

/-- With complete calls `open` recovers the longest run of frames that begins the file. -/
theorem openLog_nil (s : LogState) :
    ∃ s', s.openLog [] = .ok (.OK, s') ∧
      Represents s' (logFraming.scan 1 s.file.bytes) ∧
      s'.file.bytes = logBytes (logFraming.scan 1 s.file.bytes) := by
  obtain ⟨s', entries, hopen, hrep, hbytes, _, hiff⟩ :=
    (s.openLog_spec []).resolve_right fun hfails => hfails.1 Schedule.unfailing_nil
  rw [hiff.mpr (readsFrames_nil _)] at hrep hbytes
  exact ⟨s', hopen, hrep, hbytes⟩

end LogState

/-- A log state with nothing behind its entries is determined by them. -/
theorem Represents.eq_of_bytes_eq {s s' : LogState} {entries : List Entry}
    (h : Represents s entries) (h' : Represents s' entries)
    (hbytes : s.file.bytes = s'.file.bytes) : s = s' := by
  rcases s with ⟨log, file⟩
  rcases s' with ⟨log', file'⟩
  have hlog : log = log' := h.log_eq.trans h'.log_eq.symm
  have hfile : file = file' := File.ext hbytes
  rw [hlog, hfile]

/-- The state of an empty log over an empty file represents the empty log. -/
theorem represents_empty : Represents ⟨logOf [], File.empty⟩ [] :=
  ⟨trivial, List.nil_prefix, rfl⟩

/-- A log opened on an empty file is empty. -/
theorem LogState.openLog_empty :
    (closed File.empty).openLog [] = .ok (.OK, ⟨logOf [], File.empty⟩) := by
  obtain ⟨s', hopen, hrep, hbytes⟩ := (closed File.empty).openLog_nil
  have hscan : logFraming.scan 1 (closed File.empty).file.bytes = [] :=
    logFraming.scan_of_none (logFraming.decode_nil 1)
  rw [hscan] at hrep hbytes
  rw [hopen, hrep.eq_of_bytes_eq represents_empty hbytes]

/-- A second `open` of a log with nothing behind its entries changes neither the file nor
the state. -/
theorem Represents.openLog_again {s : LogState} {entries : List Entry} (h : Represents s entries)
    (hbytes : s.file.bytes = logBytes entries) : s.openLog [] = .ok (.OK, s) := by
  obtain ⟨s', hopen, hrep, hbytes'⟩ := s.openLog_nil
  have hscan : logFraming.scan 1 s.file.bytes = entries := by
    rw [hbytes]
    exact logFraming.scan_encodeAll_self h.allFit
  rw [hscan] at hrep hbytes'
  rw [hopen, hrep.eq_of_bytes_eq h (hbytes'.trans hbytes.symm)]

/-- On every file `open` accepts exactly the longest run of frames with indices from one
that begins it and cuts the file behind that run. The opened log reads back the accepted
entries, and opening it again changes nothing. Only a log without entries answers
`range` over all its indices with "not found". -/
theorem openLog_longest_valid_run (s₀ : LogState) :
    ∃ s entries rest, s₀.openLog [] = .ok (.OK, s) ∧
      s₀.file.bytes = s.file.bytes ++ rest ∧ s.file.bytes = logBytes entries ∧
      logFraming.AllFit 1 entries ∧
      (∀ entry, EntryFits (entries.length + 1) entry →
        ¬frame (entries.length + 1) entry <+: rest) ∧
      s.log.lastIndex.toNat = entries.length ∧ s.log.lastTerm = lastTermOf entries ∧
      s.range 1 s.log.lastIndex [] =
        .ok (if entries = [] then (.NOT_FOUND, []) else (.OK, numbered 1 entries)) ∧
      (∀ (index : LogIndex) (out : LogEntry) (_ : 1 ≤ index.toNat)
        (_ : index.toNat ≤ entries.length), s.entryAt index out [] =
          .ok (.OK, ⟨index, entries[index.toNat - 1].1, entries[index.toNat - 1].2⟩)) ∧
      s.openLog [] = .ok (.OK, s) := by
  obtain ⟨s, hopen, hrep, hbytes⟩ := s₀.openLog_nil
  have hexposes := hrep.exposes
  have hagain := hrep.openLog_again hbytes
  have hsplit := logFraming.scan_append_drop 1 s₀.file.bytes
  have hmaximal := logFraming.scan_maximal 1 s₀.file.bytes
  generalize logFraming.scan 1 s₀.file.bytes = entries at *
  refine ⟨s, entries, s₀.file.bytes.drop (logBytes entries).length, hopen, ?_, hbytes,
    hrep.allFit, ?_, hrep.lastIndex, hrep.lastTerm, ?_, hexposes.entryAt, hagain⟩
  · rw [hbytes]
    exact hsplit.symm
  · intro entry hfits hpre
    rw [Nat.add_comm] at hmaximal
    have hdecode := decode_eq_some_iff.mpr ⟨hfits, hpre⟩
    rw [logBytes, hmaximal] at hdecode
    cases hdecode
  · split
    · rename_i hempty
      have hlast := hrep.lastIndex
      rw [hempty] at hrep hlast
      have hone : (1 : LogIndex).toNat = 1 := rfl
      exact hrep.range_outside (Or.inr (Or.inl (by rw [hlast, hone]; decide))) []
    · rename_i hne
      exact hexposes.range hne

/-- An empty file: `open` recovers no entries, and `range` from the first to the last
index is not found. -/
theorem range_of_empty_not_found :
    ¬∃ s out, (LogState.closed File.empty).openLog [] = .ok (.OK, s) ∧
      s.range 1 s.log.lastIndex [] = .ok (.OK, out) := by
  rintro ⟨s, out, hopen, hrange⟩
  rw [LogState.openLog_empty] at hopen
  cases hopen
  exact absurd hrange (by simp [LogState.range, logOf, INVALID_LOG_INDEX])

end MiniDB.Storage
