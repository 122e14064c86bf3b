import MiniDB.Storage.Recovery

/-!
# Short reads

`append` goes on after a short write, but the recovery scan and `readFrameAt` make one read
for each part of a frame and take a short result for a torn frame. Recovery is the one of
complete reads exactly when both reads of every frame it should accept are complete.
-/

namespace MiniDB.Storage

open MiniDB.Common ByteSequence Memory Posix

/-- Opening a log under short reads is opening it under complete reads if and only if both
reads of every frame to be recovered are complete. -/
theorem openLog_eq_nil_iff (s : LogState) {io : Schedule} (hio : io.Unfailing) :
    s.openLog io = s.openLog [] ↔
      readsFrames (logFraming.scan 1 s.file.bytes) (io.drop 2) = true := by
  obtain ⟨s₁, accepted, hopen, hrep, hbytes, _, hiff⟩ :=
    (s.openLog_spec io).resolve_right fun hfails => hfails.1 hio
  obtain ⟨s₂, hcomplete, hrep', hbytes'⟩ := s.openLog_nil
  rw [← hiff, hopen, hcomplete]
  constructor
  · intro h
    cases h
    have hbound : accepted.length < 2 ^ 64 := by
      have hlength := hrep.length_lt
      omega
    exact hrep.exposes.unique hrep'.exposes hbound
  · rintro rfl
    rw [hrep.eq_of_bytes_eq hrep' (hbytes.trans hbytes'.symm)]

/-- Reading an entry under short reads is reading it under complete reads if and only if both
reads of its frame are complete. -/
theorem Represents.entryAt_eq_nil_iff {s : LogState} {entries : List Entry}
    (h : Represents s entries) (index : LogIndex) (out : LogEntry) (io : Schedule) :
    s.entryAt index out io = s.entryAt index out [] ↔
      ∀ entry, index ≠ INVALID_LOG_INDEX → entries[index.toNat - 1]? = some entry →
        (readsFrame entry io).1 = true := by
  by_cases hinside : 0 < index.toNat ∧ index.toNat ≤ entries.length
  · have hcount : index.toNat - 1 < entries.length := by omega
    have hne : index ≠ INVALID_LOG_INDEX := by
      rintro rfl
      exact absurd hinside.1 (by decide)
    have hcomplete : s.entryAt index out [] =
        .ok (.OK, ⟨index, entries[index.toNat - 1].1, entries[index.toNat - 1].2⟩) :=
      h.exposes.entryAt index out hinside.1 hinside.2
    rw [hcomplete, List.getElem?_eq_getElem hcount]
    rcases h.entryAt_cases hinside.1 hinside.2 out io with ⟨hreads, hread⟩ | ⟨hhalted, hread⟩
    · refine ⟨fun _ entry _ hentry => ?_, fun _ => hread⟩
      cases hentry
      exact hreads
    · constructor
      · intro heq
        rw [hread] at heq
        cases heq
      · intro hall
        rw [hall _ hne rfl] at hhalted
        cases hhalted
  · have houtside : index.toNat = 0 ∨ entries.length < index.toNat := by omega
    rw [h.entryAt_outside houtside, h.entryAt_outside houtside]
    refine ⟨fun _ entry hne hentry => ?_, fun _ => rfl⟩
    obtain ⟨hcount, _⟩ := List.getElem?_eq_some_iff.mp hentry
    have hzero : index.toNat ≠ 0 := fun hzero => hne (UInt64.toNat_inj.mp hzero)
    omega

/-- Opening a log and reading an entry of it, with reads that may be short but do not fail,
do what they do with complete reads if and only if both reads of every frame to be
recovered, and of the frame to be read, are complete. -/
theorem shortReads_iff (s : LogState) {io : Schedule} (hio : io.Unfailing) (index : LogIndex)
    (out : LogEntry) (io' : Schedule) :
    (s.openLog io = s.openLog [] ∧ ∀ s', s.openLog [] = .ok (.OK, s') →
      s'.entryAt index out io' = s'.entryAt index out []) ↔
      readsFrames (logFraming.scan 1 s.file.bytes) (io.drop 2) = true ∧
      ∀ entry, index ≠ INVALID_LOG_INDEX →
        (logFraming.scan 1 s.file.bytes)[index.toNat - 1]? = some entry →
        (readsFrame entry io').1 = true := by
  obtain ⟨s', hopen, hrep, _⟩ := s.openLog_nil
  rw [openLog_eq_nil_iff s hio, hopen, ← hrep.entryAt_eq_nil_iff index out io']
  constructor
  · rintro ⟨hreads, hentry⟩
    exact ⟨hreads, hentry s' rfl⟩
  · rintro ⟨hreads, hentry⟩
    refine ⟨hreads, fun s₁ hopen₁ => ?_⟩
    cases hopen₁
    exact hentry

/-- A file with one frame. -/
def oneFrameFile : File := ⟨frame 1 (7, [1]), by
  rw [frame_length]
  decide⟩

/-- Its frame is all that is recovered from it. -/
theorem scan_oneFrameFile : logFraming.scan 1 oneFrameFile.bytes = [(7, [1])] := by
  have hfits : EntryFits 1 (7, [1]) := by decide
  exact logFraming.scan_encode hfits

/-- A read of the length field that happens to be complete, and complete reads otherwise. -/
theorem shortReads_oneFrame :
    (LogState.closed oneFrameFile).openLog [.full, .full, .short 3] =
        (LogState.closed oneFrameFile).openLog [] ∧
      ∀ s', (LogState.closed oneFrameFile).openLog [] = .ok (.OK, s') →
        s'.entryAt 1 ⟨0, 0, []⟩ [.short 3] = s'.entryAt 1 ⟨0, 0, []⟩ [] := by
  have hio : Schedule.Unfailing [.full, .full, .short 3] := by
    unfold Schedule.Unfailing
    decide
  refine (shortReads_iff (LogState.closed oneFrameFile) hio 1 ⟨0, 0, []⟩ [.short 3]).mpr ⟨?_, ?_⟩
  · change readsFrames (logFraming.scan 1 oneFrameFile.bytes) _ = true
    rw [scan_oneFrameFile]
    decide
  · intro entry _ hentry
    change (logFraming.scan 1 oneFrameFile.bytes)[0]? = some entry at hentry
    rw [scan_oneFrameFile] at hentry
    cases hentry
    decide

/-- The read of the length field returns one byte: `open` succeeds and differs. -/
theorem openLog_short_oneFrame :
    ¬(LogState.closed oneFrameFile).openLog [.full, .full, .short 0] =
      (LogState.closed oneFrameFile).openLog [] := by
  have hio : Schedule.Unfailing [.full, .full, .short 0] := by
    unfold Schedule.Unfailing
    decide
  rw [openLog_eq_nil_iff _ hio]
  change ¬readsFrames (logFraming.scan 1 oneFrameFile.bytes) _ = true
  rw [scan_oneFrameFile]
  decide

end MiniDB.Storage
