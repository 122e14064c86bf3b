import MiniDB.Storage.RejectedAppend

/-!
# Crash cuts

A crash may keep any number of leading bytes of the log file. Appends that succeed on an
empty file leave exactly the frames of their entries, so a cut keeps the entries whose
frames end in front of it. The log goes on from there: the next append follows them and
is found by the next `open`.
-/

namespace MiniDB.Storage

open MiniDB.Common ByteSequence Memory Posix Refinement

/-- The first bytes of a file. -/
def cutFile (file : File) (cut : ℕ) : File :=
  ⟨file.bytes.take cut, by
    have hsize := file.size_lt
    rw [List.length_take]
    omega⟩

/-- The call that appends an entry. -/
def appendCall (entry : Entry) (io : Schedule) : LogCall × Schedule :=
  (.append entry.1 entry.2 INVALID_LOG_INDEX, io)

/-- Appends that all report success add their entries in order and leave nothing behind
them. -/
theorem represents_of_appended {s s' : LogState} {entries : List Entry}
    {appends : List (Entry × Schedule)} {responses : List LogResponse}
    (hrep : Represents s entries) (hresidue : residue s = [])
    (hfits : ∀ append ∈ appends, 24 + append.1.2.length < 2 ^ 32)
    (hrun : run LogState.call s (appends.map fun append => appendCall append.1 append.2) =
      .ok (responses, s'))
    (hsucceeded : ∀ response ∈ responses, ∃ index, response = .appended .OK index) :
    Represents s' (entries ++ appends.map Prod.fst) ∧ residue s' = [] := by
  induction appends generalizing s entries responses with
  | nil =>
    cases hrun
    rw [List.map_nil, List.append_nil]
    exact ⟨hrep, hresidue⟩
  | cons append appends ih =>
    obtain ⟨⟨term, payload⟩, io⟩ := append
    obtain ⟨response, rest, middle, hfirst, hrest, rfl⟩ := run_cons_eq_ok hrun
    have hpayload : 24 + payload.length < 2 ^ 32 := hfits _ List.mem_cons_self
    have hfits' : ∀ append ∈ appends, 24 + append.1.2.length < 2 ^ 32 :=
      fun append hmem => hfits append (List.mem_cons_of_mem _ hmem)
    have hsucceeded' : ∀ response ∈ rest, ∃ index, response = .appended .OK index :=
      fun response hmem => hsucceeded response (List.mem_cons_of_mem _ hmem)
    obtain ⟨index, hresponse⟩ := hsucceeded response List.mem_cons_self
    rcases hrep.append term hpayload INVALID_LOG_INDEX io with
      ⟨_, next, happend, hrep', hresidue'⟩ | ⟨_, next, happend, _⟩
    · have hcall := hfirst.symm.trans (LogState.call_append happend)
      cases hcall
      rw [hresidue, List.drop_nil] at hresidue'
      have hlater := ih hrep' hresidue' hfits' hrest hsucceeded'
      rw [List.append_assoc] at hlater
      exact hlater
    · have hcall := hfirst.symm.trans (LogState.call_append happend)
      rw [hresponse] at hcall
      cases hcall

/-- The file of a log with nothing behind its entries, cut somewhere and reopened:
recovered are the entries whose frames end at or before the cut, and nothing is left
behind them. -/
theorem Represents.reopen_cut {s : LogState} {entries : List Entry} (h : Represents s entries)
    (hresidue : residue s = []) (cut : ℕ) :
    ∃ kept ≤ entries.length,
      (∀ count ≤ entries.length, logFraming.frameEnd 1 entries count ≤ cut ↔ count ≤ kept) ∧
      ∃ s', (LogState.closed (cutFile s.file cut)).openLog [] = .ok (.OK, s') ∧
        Represents s' (entries.take kept) ∧ residue s' = [] ∧
        s'.file.bytes = s.file.bytes.take (logFraming.frameEnd 1 entries kept) := by
  obtain ⟨kept, hkept, hscan, hends⟩ := logFraming.scan_take h.allFit cut
  obtain ⟨s', hopen, hrep, hbytes'⟩ := (LogState.closed (cutFile s.file cut)).openLog_nil
  have hbytes : s.file.bytes = logFraming.encodeAll 1 entries := by
    rw [h.bytes_eq, hresidue, List.append_nil, logBytes]
  have hcut : (LogState.closed (cutFile s.file cut)).file.bytes =
      (logFraming.encodeAll 1 entries).take cut := by
    rw [← hbytes]
    rfl
  rw [hcut, hscan] at hrep hbytes'
  refine ⟨kept, hkept, hends, s', hopen, hrep, hrep.residue_eq_nil hbytes', ?_⟩
  have hsplit := logFraming.encodeAll_append 1 (entries.take kept) (entries.drop kept)
  rw [List.take_append_drop] at hsplit
  rw [hbytes', hbytes, hsplit, logBytes, Framing.frameEnd, List.take_left]

/-- An opened log without entries stands over an empty file. -/
theorem represents_nil_of_openLog {s₀ start : LogState} {io₀ : Schedule}
    (hopen : s₀.openLog io₀ = .ok (.OK, start))
    (hempty : start.log.lastIndex = INVALID_LOG_INDEX) :
    Represents start [] ∧ residue start = [] := by
  rcases s₀.openLog_spec io₀ with ⟨s₁, entries, hopen₁, hrep, hbytes, _⟩ | ⟨_, s₁, hopen₁⟩
  · rw [hopen] at hopen₁
    cases hopen₁
    have hlength := hrep.lastIndex
    rw [hempty] at hlength
    have hentries : entries = [] := List.eq_nil_of_length_eq_zero hlength.symm
    subst hentries
    exact ⟨hrep, hrep.residue_eq_nil hbytes⟩
  · rw [hopen] at hopen₁
    cases hopen₁

/-- Entries appended without failure to an empty log, the file cut to any number of its
bytes, and the log opened again: it holds exactly the entries whose frames end at or
before the cut, and the file ends with the last of them. The next append gets the
following index, and after one more `open` the log is those entries and the new one. -/
theorem crash_cut_recovers {s₀ start s : LogState} {io₀ : Schedule}
    (hopen : s₀.openLog io₀ = .ok (.OK, start))
    (hempty : start.log.lastIndex = INVALID_LOG_INDEX)
    {appends : List (Entry × Schedule)} {responses : List LogResponse}
    (hfits : ∀ append ∈ appends, 24 + append.1.2.length < 2 ^ 32)
    (hrun : run LogState.call start (appends.map fun append => appendCall append.1 append.2) =
      .ok (responses, s))
    (hsucceeded : ∀ response ∈ responses, ∃ index, response = .appended .OK index) (cut : ℕ) :
    ∃ kept ≤ appends.length,
      (∀ count ≤ appends.length,
        logFraming.frameEnd 1 (appends.map Prod.fst) count ≤ cut ↔ count ≤ kept) ∧
      (cut = s.file.bytes.length → kept = appends.length) ∧
      ∃ s', (LogState.closed (cutFile s.file cut)).openLog [] = .ok (.OK, s') ∧
        Exposes s' ((appends.map Prod.fst).take kept) ∧
        s'.file.bytes =
          s.file.bytes.take (logFraming.frameEnd 1 (appends.map Prod.fst) kept) ∧
        ∀ (term : Term) (payload : List UInt8) (outIndex : LogIndex) (io : Schedule),
          24 + payload.length < 2 ^ 32 →
          (∃ index next reopened, s'.append term payload outIndex io = .ok (.OK, index, next) ∧
            index.toNat = kept + 1 ∧
            (LogState.closed next.file).openLog [] = .ok (.OK, reopened) ∧
            Exposes reopened ((appends.map Prod.fst).take kept ++ [(term, payload)])) ∨
          ((io ≠ [] ∨ offsetLimit ≤ s'.file.bytes.length + (28 + payload.length)) ∧
            ∃ next, s'.append term payload outIndex io = .ok (.IO_ERROR, outIndex, next)) := by
  obtain ⟨hstart, hnothing⟩ := represents_nil_of_openLog hopen hempty
  obtain ⟨hrep, hresidue⟩ := represents_of_appended hstart hnothing hfits hrun hsucceeded
  rw [List.nil_append] at hrep
  obtain ⟨kept, hkept, hends, s', hopen, hrep', hresidue', hbytes'⟩ :=
    hrep.reopen_cut hresidue cut
  have hlength : (appends.map Prod.fst).length = appends.length := List.length_map _
  rw [hlength] at hkept hends
  have hkeptLength : ((appends.map Prod.fst).take kept).length = kept := by
    rw [List.length_take, hlength, min_eq_left hkept]
  refine ⟨kept, hkept, hends, ?_, s', hopen, hrep'.exposes, hbytes', ?_⟩
  · intro hall
    have hend := (hends appends.length le_rfl).mp
    rw [← hlength, logFraming.frameEnd_length, hlength] at hend
    have hbytes : s.file.bytes.length = (logBytes (appends.map Prod.fst)).length := by
      rw [hrep.bytes_eq, hresidue, List.append_nil]
    have hle : appends.length ≤ kept := hend (by rw [← logBytes, ← hbytes, hall])
    omega
  · intro term payload outIndex io hpayload
    rcases hrep'.append term hpayload outIndex io with
      ⟨_, next, happend, hnext, hrest⟩ | ⟨hfailed, next, happend, _⟩
    · rw [hkeptLength] at happend
      rw [hresidue', List.drop_nil] at hrest
      have hlarge := hrep'.length_lt
      refine Or.inl ⟨_, next, next, happend, ?_, hnext.reopen_of_residue_nil hrest, hnext.exposes⟩
      rw [hkeptLength] at hlarge
      rw [UInt64.toNat_ofNat', Nat.mod_eq_of_lt (by omega)]
    · refine Or.inr ⟨?_, next, happend⟩
      by_cases hio : io = []
      · subst hio
        have hlimit := appendSucceeds_nil hfailed
        rw [hrep'.bytes_eq, hresidue', List.append_nil]
        exact Or.inr hlimit
      · exact Or.inl hio

/-- Appends whose system calls do not fail succeed as long as the file has room for their frames. -/
theorem Represents.exists_appends {s : LogState} {before entries : List Entry}
    (h : Represents s before) (hresidue : residue s = [])
    (hfits : ∀ entry ∈ entries, 24 + entry.2.length < 2 ^ 32)
    (hroom : (logBytes (before ++ entries)).length < offsetLimit) :
    ∃ responses s', run LogState.call s
        ((entries.map fun entry => (entry, [])).map fun append => appendCall append.1 append.2) =
        .ok (responses, s') ∧
      (∀ response ∈ responses, ∃ index, response = .appended .OK index) ∧
      s'.file.bytes = logBytes (before ++ entries) := by
  induction entries generalizing s before with
  | nil =>
    refine ⟨[], s, rfl, fun _ hmem => absurd hmem List.not_mem_nil, ?_⟩
    rw [h.bytes_eq, hresidue, List.append_nil, List.append_nil]
  | cons entry entries ih =>
    rw [List.forall_mem_cons] at hfits
    have hsplit : before ++ entry :: entries = before ++ [entry] ++ entries :=
      List.append_cons before entry entries
    rw [hsplit] at hroom
    rcases h.append entry.1 hfits.1 INVALID_LOG_INDEX [] with
      ⟨_, middle, happend, hrep, hrest⟩ | ⟨hfailed, _⟩
    · rw [hresidue, List.drop_nil] at hrest
      obtain ⟨responses, s', hrun, hsucceeded, hbytes⟩ := ih hrep hrest hfits.2 hroom
      refine ⟨.appended .OK (UInt64.ofNat (before.length + 1)) :: responses, s', ?_, ?_,
        hbytes.trans (congrArg logBytes hsplit.symm)⟩
      · rw [List.map_cons, List.map_cons, appendCall, run_cons (LogState.call_append happend), hrun]
      · rw [List.forall_mem_cons]
        exact ⟨⟨_, rfl⟩, hsucceeded⟩
    · have hlimit : offsetLimit ≤ (logBytes before).length + (28 + entry.2.length) :=
        appendSucceeds_nil hfailed
      have hshorter := (logFraming.encodeAll_prefix 1
        (List.prefix_append (before ++ [entry]) entries)).length_le
      rw [← logBytes, ← logBytes, logBytes_append_singleton, List.length_append,
        frame_length] at hshorter
      omega

/-- Three entries. -/
def threeEntries : List Entry := [(7, [1]), (7, [2]), (8, [3])]

/-- They are appended to a log opened on an empty file. -/
theorem exists_threeEntries :
    ∃ responses s, run LogState.call ⟨logOf [], File.empty⟩
        ((threeEntries.map fun entry => (entry, [])).map fun append =>
          appendCall append.1 append.2) = .ok (responses, s) ∧
      (∀ response ∈ responses, ∃ index, response = .appended .OK index) ∧
      s.file.bytes = logBytes threeEntries :=
  represents_empty.exists_appends rfl (by decide) (by decide +kernel)

/-- Three entries are appended to a log opened on an empty file, which is then cut inside the
frame of the last one. -/
theorem crash_cut_recovers_two :
    ∃ responses s s', run LogState.call ⟨logOf [], File.empty⟩
        ((threeEntries.map fun entry => (entry, [])).map fun append =>
          appendCall append.1 append.2) = .ok (responses, s) ∧
      (LogState.closed (cutFile s.file 70)).openLog [] = .ok (.OK, s') ∧
      Exposes s' [(7, [1]), (7, [2])] ∧ s'.file.bytes = s.file.bytes.take 58 := by
  obtain ⟨responses, s, hrun, hsucceeded, _⟩ := exists_threeEntries
  obtain ⟨kept, hkept, hends, _, s', hopen, hexposes, hbytes, _⟩ :=
    crash_cut_recovers LogState.openLog_empty rfl (by decide) hrun hsucceeded 70
  have htwo : 2 ≤ kept := (hends 2 (by decide)).mp (by decide +kernel)
  have hthree : ¬3 ≤ kept := mt (hends 3 (by decide)).mpr (by decide +kernel)
  obtain rfl : kept = 2 := by omega
  have hend : logFraming.frameEnd 1 threeEntries 2 = 58 := by decide +kernel
  refine ⟨responses, s, s', hrun, hopen, hexposes, hbytes.trans ?_⟩
  exact congrArg s.file.bytes.take hend

end MiniDB.Storage
