import MiniDB.Library.Refinement
import MiniDB.Storage.Recovery

/-!
# The log as a list

The public calls on an open log, each with its own schedule of system calls, are one step
function. The specification says what a list of entries would answer and how it may
change. A ledger keeps that list together with the bytes behind it in the file; its
agreement with the log is a simulation, so no run of calls faults and every response is
one the list allows.
-/

namespace MiniDB.Storage

open MiniDB.Common ByteSequence Memory Posix Refinement

/-- A call on an open log; `outIndex` and `out` are what the caller's output variables
held before. -/
inductive LogCall
  | append (term : Term) (payload : List UInt8) (outIndex : LogIndex)
  | truncateFrom (index : LogIndex)
  | entryAt (index : LogIndex) (out : LogEntry)
  | range (fromIndex toIndex : LogIndex)
  | lastIndex
  | lastTerm

/-- What a call reports. -/
inductive LogResponse
  | appended (status : Status) (outIndex : LogIndex)
  | truncated (status : Status)
  | entry (status : Status) (out : LogEntry)
  | entries (status : Status) (out : List LogEntry)
  | lastIndex (index : LogIndex)
  | lastTerm (term : Term)

/-- The frame length of an appended payload fits its 32-bit field. -/
def LogCall.Fits : LogCall → Prop
  | .append _ payload _ => 24 + payload.length < 2 ^ 32
  | _ => True

/-- One call under its schedule. -/
def LogState.call (s : LogState) : LogCall × Schedule → Except Fault (LogResponse × LogState)
  | (.append term payload outIndex, io) => do
    let (status, outIndex, s) ← s.append term payload outIndex io
    return (.appended status outIndex, s)
  | (.truncateFrom index, io) => do
    let (status, s) ← s.truncateFrom index io
    return (.truncated status, s)
  | (.entryAt index out, io) => do
    let (status, out) ← s.entryAt index out io
    return (.entry status out, s)
  | (.range fromIndex toIndex, io) => do
    let (status, out) ← s.range fromIndex toIndex io
    return (.entries status out, s)
  | (.lastIndex, _) => .ok (.lastIndex s.log.lastIndex, s)
  | (.lastTerm, _) => .ok (.lastTerm s.log.lastTerm, s)

/-- A call to `append` reports its status and the caller's index. -/
theorem LogState.call_append {s s' : LogState} {term : Term} {payload : List UInt8}
    {outIndex index : LogIndex} {io : Schedule} {status : Status}
    (h : s.append term payload outIndex io = .ok (status, index, s')) :
    s.call (.append term payload outIndex, io) = .ok (.appended status index, s') :=
  except_bind_eq_ok.mpr ⟨_, h, rfl⟩

/-- A call to `truncateFrom` reports its status. -/
theorem LogState.call_truncateFrom {s s' : LogState} {index : LogIndex} {io : Schedule}
    {status : Status} (h : s.truncateFrom index io = .ok (status, s')) :
    s.call (.truncateFrom index, io) = .ok (.truncated status, s') :=
  except_bind_eq_ok.mpr ⟨_, h, rfl⟩

/-- A call to `entryAt` reports its status and the caller's entry. -/
theorem LogState.call_entryAt {s : LogState} {index : LogIndex} {out entry : LogEntry}
    {io : Schedule} {status : Status} (h : s.entryAt index out io = .ok (status, entry)) :
    s.call (.entryAt index out, io) = .ok (.entry status entry, s) :=
  except_bind_eq_ok.mpr ⟨_, h, rfl⟩

/-- A call to `range` reports its status and the entries read. -/
theorem LogState.call_range {s : LogState} {fromIndex toIndex : LogIndex}
    {entries : List LogEntry} {io : Schedule} {status : Status}
    (h : s.range fromIndex toIndex io = .ok (status, entries)) :
    s.call (.range fromIndex toIndex, io) = .ok (.entries status entries, s) :=
  except_bind_eq_ok.mpr ⟨_, h, rfl⟩

/-- What a list of entries answers to a call, and the list afterwards. An I/O error leaves
the list unchanged; it needs a scheduled outcome or a file that would outgrow the offset
range. -/
def ListAnswers (entries : List Entry) : LogCall × Schedule → LogResponse → List Entry → Prop
  | (.append term payload outIndex, io), response, entries' =>
    (∃ index, response = .appended .OK index ∧ index.toNat = entries.length + 1 ∧
      entries' = entries ++ [(term, payload)]) ∨
    ((io ≠ [] ∨ offsetLimit ≤ (logBytes entries).length + (28 + payload.length)) ∧
      response = .appended .IO_ERROR outIndex ∧ entries' = entries)
  | (.truncateFrom index, io), response, entries' =>
    (response = .truncated .OK ∧ entries' = entries.take (index.toNat - 1)) ∨
    (io ≠ [] ∧ response = .truncated .IO_ERROR ∧ entries' = entries)
  | (.entryAt index out, io), response, entries' =>
    entries' = entries ∧
    if hindex : 1 ≤ index.toNat ∧ index.toNat ≤ entries.length then
      response =
        .entry .OK ⟨index, entries[index.toNat - 1].1, entries[index.toNat - 1].2⟩ ∨
      (io ≠ [] ∧ response = .entry .IO_ERROR out)
    else response = .entry .NOT_FOUND out
  | (.range fromIndex toIndex, io), response, entries' =>
    entries' = entries ∧
    if 1 ≤ fromIndex.toNat ∧ fromIndex.toNat ≤ toIndex.toNat ∧
        toIndex.toNat ≤ entries.length then
      response = .entries .OK (numbered fromIndex.toNat
        ((entries.drop (fromIndex.toNat - 1)).take (toIndex.toNat + 1 - fromIndex.toNat))) ∨
      (io ≠ [] ∧ response = .entries .IO_ERROR [])
    else response = .entries .NOT_FOUND []
  | (.lastIndex, _), response, entries' =>
    entries' = entries ∧ ∃ index, response = .lastIndex index ∧ index.toNat = entries.length
  | (.lastTerm, _), response, entries' =>
    entries' = entries ∧ response = .lastTerm (lastTermOf entries)

/-- Only a scheduled outcome or the offset range keeps an append from succeeding. -/
theorem appendSucceeds_nil {entries : List Entry} {entry : Entry}
    (h : appendSucceeds entries entry [] = false) :
    offsetLimit ≤ (logBytes entries).length + (28 + entry.2.length) := by
  by_contra hlimit
  have hlt : (logBytes entries).length + (28 + entry.2.length) < offsetLimit := by omega
  rw [appendSucceeds, appendTransfer, transferred_nil hlt] at h
  simp [fsync, Schedule.next, Outcome.succeeds] at h

/-- Only a scheduled outcome keeps a truncation from succeeding. -/
theorem truncateSucceeds_nil (entries : List Entry) (count : ℕ) :
    truncateSucceeds entries count [] = true := by
  unfold truncateSucceeds
  split
  · rfl
  · rw [readsFrame_nil]
    rfl

/-- The accepted entries of a log and the bytes left behind their frames. -/
structure Ledger where
  /-- The entries whose append succeeded and that were not truncated. -/
  entries : List Entry
  /-- The bytes behind the last of their frames. -/
  leftover : List UInt8

/-- The effect of a call under its schedule. A successful append covers as many leftover
bytes as its frame is long; a failed one replaces as many as it wrote; a truncation
clears them. -/
def Ledger.step (ledger : Ledger) : LogCall × Schedule → Ledger
  | (.append term payload _, io) =>
    let written := (appendTransfer ledger.entries (term, payload) io).1
    if appendSucceeds ledger.entries (term, payload) io then
      ⟨ledger.entries ++ [(term, payload)], ledger.leftover.drop (28 + payload.length)⟩
    else
      ⟨ledger.entries, (frame (ledger.entries.length + 1) (term, payload)).take written ++
        ledger.leftover.drop written⟩
  | (.truncateFrom index, io) =>
    if index.toNat ≤ ledger.entries.length ∧
        truncateSucceeds ledger.entries (index.toNat - 1) io = true then
      ⟨ledger.entries.take (index.toNat - 1), []⟩
    else ledger
  | _ => ledger

/-- One call as seen by a ledger: the response is one the list allows, and the ledger
follows its own rules. -/
def LedgerAnswers (ledger : Ledger) (call : LogCall × Schedule) (response : LogResponse)
    (ledger' : Ledger) : Prop :=
  ListAnswers ledger.entries call response ledger'.entries ∧ ledger' = ledger.step call

/-- An open log and its ledger agree on the entries and on the bytes behind them. This is
maintained by every call whose payload fits. -/
def logSimulation : Simulation LogState.call LedgerAnswers (fun _ call => call.1.Fits) where
  Related s ledger := Represents s ledger.entries ∧ residue s = ledger.leftover
  step_follows := by
    rintro s ⟨entries, leftover⟩ ⟨call, io⟩ ⟨hrep, hresidue⟩ hfits
    dsimp only at hrep hresidue
    subst hresidue
    cases call with
    | append term payload outIndex =>
      rcases hrep.append term hfits outIndex io with
        ⟨hsucceeded, s', hcall, hrep', hresidue'⟩ | ⟨hfailed, s', hcall, hrep', _, hresidue'⟩
      · refine ⟨.appended .OK (UInt64.ofNat (entries.length + 1)), s',
          ⟨entries ++ [(term, payload)], (residue s).drop (28 + payload.length)⟩, ?_,
          ⟨Or.inl ⟨_, rfl, ?_, rfl⟩, ?_⟩, hrep', hresidue'⟩
        · exact LogState.call_append hcall
        · have hlength := hrep.length_lt
          rw [UInt64.toNat_ofNat', Nat.mod_eq_of_lt (by omega)]
        · simp only [Ledger.step, hsucceeded, if_true]
      · refine ⟨.appended .IO_ERROR outIndex, s', ⟨entries, residue s'⟩, ?_,
          ⟨Or.inr ⟨?_, rfl, rfl⟩, ?_⟩, hrep', rfl⟩
        · exact LogState.call_append hcall
        · by_cases hio : io = []
          · subst hio
            exact Or.inr (appendSucceeds_nil hfailed)
          · exact Or.inl hio
        · simp only [Ledger.step, hfailed, Bool.false_eq_true, if_false, hresidue']
    | truncateFrom index =>
      rcases hrep.truncateFrom index io with
        ⟨hbeyond, hcall⟩ | ⟨hle, hsucceeded, s', hcall, hrep', hresidue'⟩ |
          ⟨_, hfailed, hcall⟩
      · refine ⟨.truncated .OK, s, ⟨entries, residue s⟩, ?_, ⟨Or.inl ⟨rfl, ?_⟩, ?_⟩, hrep, rfl⟩
        · exact LogState.call_truncateFrom hcall
        · exact (List.take_of_length_le (by dsimp only; omega)).symm
        · simp only [Ledger.step]
          rw [if_neg (by omega)]
      · refine ⟨.truncated .OK, s', ⟨entries.take (index.toNat - 1), []⟩, ?_,
          ⟨Or.inl ⟨rfl, rfl⟩, ?_⟩, hrep', hresidue'⟩
        · exact LogState.call_truncateFrom hcall
        · simp only [Ledger.step]
          rw [if_pos ⟨hle, hsucceeded⟩]
      · refine ⟨.truncated .IO_ERROR, s, ⟨entries, residue s⟩, ?_,
          ⟨Or.inr ⟨?_, rfl, rfl⟩, ?_⟩, hrep, rfl⟩
        · exact LogState.call_truncateFrom hcall
        · rintro rfl
          rw [truncateSucceeds_nil] at hfailed
          cases hfailed
        · simp only [Ledger.step, hfailed, Bool.false_eq_true, and_false, if_false]
    | entryAt index out =>
      by_cases hindex : 1 ≤ index.toNat ∧ index.toNat ≤ entries.length
      · rcases hrep.entryAt_inside hindex.1 hindex.2 out io with hcall | ⟨hio, hcall⟩
        · refine ⟨.entry .OK ⟨index, entries[index.toNat - 1].1, entries[index.toNat - 1].2⟩, s,
            ⟨entries, residue s⟩, ?_, ⟨⟨rfl, ?_⟩, rfl⟩, hrep, rfl⟩
          · exact LogState.call_entryAt hcall
          · rw [dif_pos hindex]
            exact Or.inl rfl
        · refine ⟨.entry .IO_ERROR out, s, ⟨entries, residue s⟩, ?_, ⟨⟨rfl, ?_⟩, rfl⟩, hrep, rfl⟩
          · exact LogState.call_entryAt hcall
          · rw [dif_pos hindex]
            exact Or.inr ⟨hio, rfl⟩
      · have hcall := @Represents.entryAt_outside _ _ hrep index (by omega) out io
        refine ⟨.entry .NOT_FOUND out, s, ⟨entries, residue s⟩, ?_, ⟨⟨rfl, ?_⟩, rfl⟩, hrep, rfl⟩
        · exact LogState.call_entryAt hcall
        · rw [dif_neg hindex]
    | range fromIndex toIndex =>
      by_cases hrange : 1 ≤ fromIndex.toNat ∧ fromIndex.toNat ≤ toIndex.toNat ∧
          toIndex.toNat ≤ entries.length
      · rcases hrep.range_inside hrange.1 hrange.2.1 hrange.2.2 io with hcall | ⟨hio, hcall⟩
        · refine ⟨.entries .OK (numbered fromIndex.toNat
            ((entries.drop (fromIndex.toNat - 1)).take (toIndex.toNat + 1 - fromIndex.toNat))), s,
            ⟨entries, residue s⟩, ?_, ⟨⟨rfl, ?_⟩, rfl⟩, hrep, rfl⟩
          · exact LogState.call_range hcall
          · rw [if_pos hrange]
            exact Or.inl rfl
        · refine ⟨.entries .IO_ERROR [], s, ⟨entries, residue s⟩, ?_, ⟨⟨rfl, ?_⟩, rfl⟩, hrep, rfl⟩
          · exact LogState.call_range hcall
          · rw [if_pos hrange]
            exact Or.inr ⟨hio, rfl⟩
      · have hcall := @Represents.range_outside _ _ hrep fromIndex toIndex (by omega) io
        refine ⟨.entries .NOT_FOUND [], s, ⟨entries, residue s⟩, ?_, ⟨⟨rfl, ?_⟩, rfl⟩, hrep, rfl⟩
        · exact LogState.call_range hcall
        · rw [if_neg hrange]
    | lastIndex =>
      exact ⟨_, s, ⟨entries, residue s⟩, rfl, ⟨⟨rfl, _, rfl, hrep.lastIndex⟩, rfl⟩, hrep, rfl⟩
    | lastTerm =>
      refine ⟨_, s, ⟨entries, residue s⟩, rfl, ⟨⟨rfl, ?_⟩, rfl⟩, hrep, rfl⟩
      rw [hrep.lastTerm]

/-- A run of calls on an open log does not fault, obeys the list, and ends with the
entries and the leftover bytes of the ledger's own run. -/
theorem run_ledger {s : LogState} {entries : List Entry} (hrep : Represents s entries)
    {calls : List (LogCall × Schedule)} (hfits : ∀ call ∈ calls, call.1.Fits) :
    ∃ responses s', run LogState.call s calls = .ok (responses, s') ∧
      Follows ListAnswers entries calls responses
        (calls.foldl Ledger.step ⟨entries, residue s⟩).entries ∧
      Represents s' (calls.foldl Ledger.step ⟨entries, residue s⟩).entries ∧
      residue s' = (calls.foldl Ledger.step ⟨entries, residue s⟩).leftover := by
  have hrelated : logSimulation.Related s ⟨entries, residue s⟩ := ⟨hrep, rfl⟩
  obtain ⟨responses, s', ledger, hrun, hfollows, hrep', hresidue⟩ :=
    logSimulation.run_follows hrelated (along_of_forall fun call hcall _ => hfits call hcall)
  have hend : ledger = calls.foldl Ledger.step ⟨entries, residue s⟩ :=
    hfollows.eq_foldl (f := Ledger.step) fun h => h.2
  subst hend
  have hlist : Follows ListAnswers entries calls responses
      (calls.foldl Ledger.step ⟨entries, residue s⟩).entries :=
    Follows.map (f := Ledger.entries) (fun h => h.1) hfollows
  exact ⟨responses, s', hrun, hlist, hrep', hresidue⟩

/-- After any successful `open` the log behaves as a list: it starts with the entries
whose frames the file consists of, no run of calls faults, whatever the system calls do,
and every response is one the list allows. -/
theorem openLog_refines_list {s₀ s : LogState} {io₀ : Schedule}
    (hopen : s₀.openLog io₀ = .ok (.OK, s)) :
    ∃ entries, s.file.bytes = logBytes entries ∧
      ∀ calls : List (LogCall × Schedule), (∀ call ∈ calls, call.1.Fits) →
        ∃ responses s' entries', run LogState.call s calls = .ok (responses, s') ∧
          Follows ListAnswers entries calls responses entries' ∧
          s'.log.lastIndex.toNat = entries'.length ∧ s'.log.lastTerm = lastTermOf entries' := by
  rcases s₀.openLog_spec io₀ with ⟨s₁, entries, hopen₁, hrep, hbytes, _⟩ | ⟨_, s₁, hopen₁⟩
  · rw [hopen] at hopen₁
    cases hopen₁
    refine ⟨entries, hbytes, fun calls hfits => ?_⟩
    obtain ⟨responses, s', hrun, hfollows, hrep', _⟩ := run_ledger hrep hfits
    exact ⟨responses, s', _, hrun, hfollows, hrep'.lastIndex, hrep'.lastTerm⟩
  · rw [hopen] at hopen₁
    cases hopen₁

/-- A log opened on an empty file: an append whose write stops after nine bytes, a second
one that succeeds, and a truncation. -/
theorem openLog_refines_list_empty :
    ∃ entries, File.empty.bytes = logBytes entries ∧
      ∃ responses s' entries',
        run LogState.call ⟨logOf [], File.empty⟩
          [(.append 7 [1, 2, 3] 0, [.short 8, .fail]), (.append 7 [4] 0, []),
            (.truncateFrom 1, [])] = .ok (responses, s') ∧
        Follows ListAnswers entries
          [(.append 7 [1, 2, 3] 0, [.short 8, .fail]), (.append 7 [4] 0, []),
            (.truncateFrom 1, [])] responses entries' ∧
        s'.log.lastIndex.toNat = entries'.length ∧ s'.log.lastTerm = lastTermOf entries' := by
  obtain ⟨entries, hbytes, hruns⟩ := openLog_refines_list LogState.openLog_empty
  refine ⟨entries, hbytes, hruns _ ?_⟩
  intro call hcall
  simp only [List.mem_cons, List.not_mem_nil, or_false] at hcall
  rcases hcall with rfl | rfl | rfl <;> simp [LogCall.Fits]

end MiniDB.Storage
