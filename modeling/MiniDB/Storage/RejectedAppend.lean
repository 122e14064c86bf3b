import MiniDB.Storage.LogRefinement

/-!
# Rejected appends and reopening

A rejected append leaves the in-memory log alone but not the file: what it wrote stays
behind the write offset. The recovery scan of the next `open` starts from the frames of
the accepted entries and reads on into these bytes, so it recovers exactly the accepted
entries if and only if they do not begin with a valid frame of the next index.
-/

namespace MiniDB.Storage

open MiniDB.Common ByteSequence Memory Posix Refinement

/-- Reopening the file of a closed log scans on behind the represented entries. -/
theorem Represents.reopen {s : LogState} {entries : List Entry} (h : Represents s entries) :
    ∃ s', (LogState.closed s.file).openLog [] = .ok (.OK, s') ∧
      Represents s' (entries ++ logFraming.scan (1 + entries.length) (residue s)) := by
  obtain ⟨s', hopen, hrep, _⟩ := (LogState.closed s.file).openLog_nil
  have hbytes : (LogState.closed s.file).file.bytes = logBytes entries ++ residue s := h.bytes_eq
  rw [hbytes, logBytes, logFraming.scan_encodeAll h.allFit] at hrep
  exact ⟨s', hopen, hrep⟩

/-- With nothing behind the represented entries, reopening recovers exactly them. -/
theorem Represents.reopen_of_residue_nil {s : LogState} {entries : List Entry}
    (h : Represents s entries) (hresidue : residue s = []) :
    (LogState.closed s.file).openLog [] = .ok (.OK, s) := by
  have hbytes : s.file.bytes = logBytes entries := by
    rw [h.bytes_eq, hresidue, List.append_nil]
  have hagain := h.openLog_again hbytes
  obtain ⟨s₁, hopen₁, hrep₁, hbytes₁⟩ := (LogState.closed s.file).openLog_nil
  obtain ⟨s₂, hopen₂, hrep₂, hbytes₂⟩ := s.openLog_nil
  rw [hagain] at hopen₂
  cases hopen₂
  rw [hopen₁, hrep₁.eq_of_bytes_eq hrep₂ (hbytes₁.trans hbytes₂.symm)]

end MiniDB.Storage
