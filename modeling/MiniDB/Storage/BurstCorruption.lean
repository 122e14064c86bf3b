import MiniDB.Storage.Checksum
import MiniDB.Storage.CrashCut

/-!
# Burst corruption

At most four consecutive bytes of one frame are changed. They cannot reach both length
fields, so the frame keeps its length or its lengths disagree; and if it keeps its length
its checksum gives the change away. Recovery stops in front of that frame.
-/

namespace MiniDB.Storage

open MiniDB.Common ByteSequence Memory Posix Refinement

/-- A change of at most four consecutive bytes. -/
def Burst (bytes changed : List UInt8) : Prop :=
  ∃ before burst other behind, bytes = before ++ burst ++ behind ∧
    changed = before ++ other ++ behind ∧ other.length = burst.length ∧ burst.length ≤ 4 ∧
    other ≠ burst

/-- Writing at most four bytes inside a sequence changes nothing or is a burst. -/
theorem burst_of_overwrite {bytes new : List UInt8} {position : ℕ} (hnew : new.length ≤ 4)
    (hinside : position + new.length ≤ bytes.length) (h : overwrite 0 bytes position new ≠ bytes) :
    Burst bytes (overwrite 0 bytes position new) := by
  have hsplit : bytes = bytes.take position ++ (bytes.drop position).take new.length ++
      bytes.drop (position + new.length) := by
    rw [← List.drop_drop, List.append_assoc, List.take_append_drop, List.take_append_drop]
  have hwritten := overwrite_of_le (0 : UInt8) new (show position ≤ bytes.length by omega)
  have hlength : ((bytes.drop position).take new.length).length = new.length := by
    rw [List.length_take, List.length_drop]
    omega
  refine ⟨_, _, new, _, hsplit, hwritten, hlength.symm, by omega, ?_⟩
  intro hsame
  apply h
  calc overwrite 0 bytes position new
      = bytes.take position ++ new ++ bytes.drop (position + new.length) := hwritten
    _ = bytes.take position ++ (bytes.drop position).take new.length ++
        bytes.drop (position + new.length) := by rw [← hsame]
    _ = bytes := hsplit.symm

/-- A burst in a frame leaves its length field or its payload length field. -/
theorem Burst.keeps_length {bytes changed : List UInt8} (h : Burst bytes changed)
    (hsize : 24 ≤ bytes.length) :
    changed.length = bytes.length ∧
      (changed.take 4 = bytes.take 4 ∨ (changed.drop 20).take 4 = (bytes.drop 20).take 4) := by
  obtain ⟨before, burst, other, behind, rfl, rfl, hlength, hburst, _⟩ := h
  refine ⟨by simp [hlength], ?_⟩
  by_cases hbefore : 4 ≤ before.length
  · left
    rw [List.append_assoc, List.append_assoc, List.take_append_of_le_length hbefore,
      List.take_append_of_le_length hbefore]
  · right
    have hbehind (middle : List UInt8) (h : middle.length = burst.length) :
        (before ++ middle ++ behind).drop 20 =
          behind.drop (20 - (before.length + burst.length)) := by
      rw [List.drop_append, List.drop_of_length_le (by simp; omega), List.nil_append,
        List.length_append, h]
    rw [hbehind other hlength, hbehind burst rfl]

/-- No frame of the same number begins where a burst has hit a frame. -/
theorem decode_of_burst {index : ℕ} {entry : Entry} {changed : List UInt8}
    (hfits : EntryFits index entry) (h : Burst (frame index entry) changed) (rest : List UInt8) :
    logFraming.decode index (changed ++ rest) = none := by
  cases hdecode : logFraming.decode index (changed ++ rest) with
  | none => rfl
  | some found =>
    exfalso
    obtain ⟨hfound, hpre⟩ := decode_eq_some_iff.mp hdecode
    have hsize : 24 ≤ (frame index entry).length := by
      rw [frame_length]
      omega
    obtain ⟨hlength, hkeeps⟩ := h.keeps_length hsize
    have hsame : found.2.length = entry.2.length := by
      have hfoundFits := hfound.2
      have hentryFits := hfits.2
      rcases hkeeps with hhead | hpayload
      · have hfirst := frameLength_of_decode hdecode
        have hframe := frameLength_of_decode (decode_eq_some_iff.mpr
          ⟨hfits, List.prefix_refl (frame index entry)⟩)
        rw [List.take_append_of_le_length (by omega), hhead, hframe] at hfirst
        have hvalue := congrArg ofLittleEndian hfirst
        rw [ofLittleEndian_littleEndian_of_lt (by omega),
          ofLittleEndian_littleEndian_of_lt (by omega)] at hvalue
        omega
      · have hfifth := payloadLength_of_prefix hpre
        have hframe := payloadLength_of_prefix (List.prefix_refl (frame index entry))
        rw [List.drop_append_of_le_length (by omega),
          List.take_append_of_le_length (by rw [List.length_drop]; omega), hpayload,
          hframe] at hfifth
        have hvalue := congrArg ofLittleEndian hfifth
        rw [ofLittleEndian_littleEndian_of_lt (by omega),
          ofLittleEndian_littleEndian_of_lt (by omega)] at hvalue
        exact hvalue.symm
    have hchanged : frame index found = changed := by
      have hsizes : (frame index found).length = changed.length := by
        rw [hlength, frame_length, frame_length, hsame]
      exact (List.prefix_of_prefix_length_le hpre (List.prefix_append changed rest)
        (Nat.le_of_eq hsizes)).eq_of_length hsizes
    obtain ⟨before, burst, other, behind, hbytes, hother, hlengths, hburst, hne⟩ := h
    exact hne (sealedBytes_burst hbytes (hchanged.trans hother) hlengths hburst)

/-- A file changed by writing at most four bytes between two positions. -/
def DamagedBetween (low high : ℕ) (file damaged : File) : Prop :=
  ∃ position new, new.length ≤ 4 ∧ low ≤ position ∧ position + new.length ≤ high ∧
    damaged.bytes = overwrite 0 file.bytes position new ∧ damaged.bytes ≠ file.bytes

/-- Damage inside a segment is a burst there and leaves what stands around it. -/
theorem DamagedBetween.burst {file damaged : File} {before segment behind : List UInt8}
    (h : DamagedBetween before.length (before.length + segment.length) file damaged)
    (hbytes : file.bytes = before ++ segment ++ behind) :
    ∃ changed, Burst segment changed ∧ damaged.bytes = before ++ changed ++ behind := by
  obtain ⟨position, new, hnew, hlow, hhigh, hdamaged, hne⟩ := h
  obtain ⟨offset, rfl⟩ := Nat.exists_eq_add_of_le hlow
  have hinside : offset + new.length ≤ segment.length := by omega
  rw [hbytes, overwrite_inside 0 hinside] at hdamaged
  refine ⟨_, burst_of_overwrite hnew hinside ?_, hdamaged⟩
  intro hsame
  rw [hsame, ← hbytes] at hdamaged
  exact hne hdamaged

/-- The file of a log with nothing behind its entries, with a burst in one frame, opened
again: recovered are the entries in front of that frame, and the file ends with them. -/
theorem Represents.reopen_damaged {s : LogState} {entries : List Entry} (h : Represents s entries)
    (hresidue : residue s = []) {count : ℕ} (hcount : count < entries.length) {damaged : File}
    (hdamaged : DamagedBetween (logFraming.frameEnd 1 entries count)
      (logFraming.frameEnd 1 entries (count + 1)) s.file damaged) :
    ∃ s', (LogState.closed damaged).openLog [] = .ok (.OK, s') ∧
      Represents s' (entries.take count) ∧
      s'.file.bytes = s.file.bytes.take (logFraming.frameEnd 1 entries count) := by
  have hall := Framing.AllFit.take logFraming h.allFit count
  have hbytes : s.file.bytes = logBytes (entries.take count) ++
      frame (1 + count) entries[count] ++
        logFraming.encodeAll (1 + count + 1) (entries.drop (count + 1)) := by
    rw [h.bytes_eq, hresidue, List.append_nil]
    exact logFraming.encodeAll_eq_around hcount
  rw [logFraming.frameEnd_succ hcount] at hdamaged
  obtain ⟨changed, hburst, hfile⟩ := DamagedBetween.burst hdamaged hbytes
  have hstop := decode_of_burst (Framing.AllFit.getElem logFraming h.allFit hcount) hburst
    (logFraming.encodeAll (1 + count + 1) (entries.drop (count + 1)))
  have hscan : logFraming.scan 1 damaged.bytes = entries.take count := by
    rw [hfile, List.append_assoc]
    apply logFraming.scan_eq_of_maximal hall
    rwa [List.length_take, min_eq_left (by omega)]
  obtain ⟨s', hopen, hrep, hrecovered⟩ := (LogState.closed damaged).openLog_nil
  change Represents s' (logFraming.scan 1 damaged.bytes) at hrep
  change s'.file.bytes = logBytes (logFraming.scan 1 damaged.bytes) at hrecovered
  rw [hscan] at hrep hrecovered
  refine ⟨s', hopen, hrep, ?_⟩
  rw [hrecovered, hbytes, List.append_assoc]
  exact List.take_left.symm

/-- Entries appended without failure to an empty log, at most four consecutive bytes of
one frame changed, and the log opened again: it holds exactly the entries in front of that
frame, and the file ends with the last of them. -/
theorem burst_recovers {s₀ start s : LogState} {io₀ : Schedule}
    (hopen : s₀.openLog io₀ = .ok (.OK, start))
    (hempty : start.log.lastIndex = INVALID_LOG_INDEX)
    {appends : List (Entry × Schedule)} {responses : List LogResponse}
    (hfits : ∀ append ∈ appends, 24 + append.1.2.length < 2 ^ 32)
    (hrun : run LogState.call start (appends.map fun append => appendCall append.1 append.2) =
      .ok (responses, s))
    (hsucceeded : ∀ response ∈ responses, ∃ index, response = .appended .OK index)
    {count : ℕ} (hcount : count < appends.length) {damaged : File}
    (hdamaged : DamagedBetween (logFraming.frameEnd 1 (appends.map Prod.fst) count)
      (logFraming.frameEnd 1 (appends.map Prod.fst) (count + 1)) s.file damaged) :
    ∃ s', (LogState.closed damaged).openLog [] = .ok (.OK, s') ∧
      Exposes s' ((appends.map Prod.fst).take count) ∧
      s'.file.bytes =
        s.file.bytes.take (logFraming.frameEnd 1 (appends.map Prod.fst) count) := by
  obtain ⟨hstart, hnothing⟩ := represents_nil_of_openLog hopen hempty
  obtain ⟨hrep, hresidue⟩ := represents_of_appended hstart hnothing hfits hrun hsucceeded
  rw [List.nil_append] at hrep
  have hinside : count < (appends.map Prod.fst).length := by rwa [List.length_map]
  obtain ⟨s', hreopen, hrep', hbytes⟩ := hrep.reopen_damaged hresidue hinside hdamaged
  exact ⟨s', hreopen, hrep'.exposes, hbytes⟩

/-- Three entries are appended to a log opened on an empty file, and one byte in the frame of the
last one is changed. -/
theorem burst_recovers_two :
    ∃ responses s damaged s', run LogState.call ⟨logOf [], File.empty⟩
        ((threeEntries.map fun entry => (entry, [])).map fun append =>
          appendCall append.1 append.2) = .ok (responses, s) ∧
      damaged.bytes = overwrite 0 s.file.bytes 68 [1] ∧
      (LogState.closed damaged).openLog [] = .ok (.OK, s') ∧
      Exposes s' [(7, [1]), (7, [2])] ∧ s'.file.bytes = s.file.bytes.take 58 := by
  obtain ⟨responses, s, hrun, hsucceeded, hbytes⟩ := exists_threeEntries
  have hsize : (overwrite 0 s.file.bytes 68 [1]).length < offsetLimit := by
    rw [hbytes]
    decide +kernel
  have hchanged : overwrite 0 s.file.bytes 68 [1] ≠ s.file.bytes := by
    rw [hbytes]
    decide +kernel
  have hend : logFraming.frameEnd 1 threeEntries 2 = 58 := by decide +kernel
  obtain ⟨s', hopen, hexposes, hkept⟩ := @burst_recovers _ _ s _ LogState.openLog_empty rfl
    (threeEntries.map fun entry => (entry, [])) _ (by decide) hrun hsucceeded 2 (by decide)
    ⟨_, hsize⟩ ⟨68, [1], by decide, by decide +kernel, by decide +kernel, rfl, hchanged⟩
  refine ⟨responses, s, ⟨_, hsize⟩, s', hrun, rfl, hopen, hexposes, hkept.trans ?_⟩
  exact congrArg s.file.bytes.take hend

end MiniDB.Storage
