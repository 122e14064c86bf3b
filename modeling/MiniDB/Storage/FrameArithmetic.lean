import MiniDB.Storage.RejectedAppend

/-!
# Frame arithmetic

`append` computes with the payload's size reduced to 32 bits. A size that wraps is stored
as the payload cut to the reduced size; a reduced size whose frame length wraps makes the
buffer too small for what is copied into it.
-/

namespace MiniDB.Storage

open MiniDB.Common ByteSequence Memory Posix Refinement

/-- The part of a payload that a 32-bit size counts. -/
def countedPart (payload : List UInt8) : List UInt8 := payload.take (payload.length % 2 ^ 32)

/-- The counted part has the reduced size. -/
theorem countedPart_length (payload : List UInt8) :
    (countedPart payload).length = payload.length % 2 ^ 32 := by
  rw [countedPart, List.length_take]
  omega

/-- A payload whose size is not reduced is counted whole. -/
theorem countedPart_eq_self {payload : List UInt8} :
    countedPart payload = payload ↔ payload.length < 2 ^ 32 := by
  rw [countedPart, List.take_eq_self_iff]
  omega

/-- The frame buffer is built from the counted part alone. -/
theorem frameBuffer_countedPart (index : LogIndex) (term : Term) (payload : List UInt8) :
    LogState.frameBuffer index term payload =
      LogState.frameBuffer index term (countedPart payload) := by
  have hlength : UInt32.ofNat (countedPart payload).length = UInt32.ofNat payload.length := by
    apply UInt32.toNat_inj.mp
    rw [UInt32.toNat_ofNat', UInt32.toNat_ofNat', countedPart_length, Nat.mod_mod]
  have hcopied : (countedPart payload).take (UInt32.ofNat payload.length).toNat =
      payload.take (UInt32.ofNat payload.length).toNat := by
    rw [countedPart, List.take_take, UInt32.toNat_ofNat', min_self]
  simp only [LogState.frameBuffer, hlength, hcopied]

/-- So is the whole append. -/
theorem append_countedPart (s : LogState) (term : Term) (payload : List UInt8)
    (outIndex : LogIndex) (io : Schedule) :
    s.append term payload outIndex io = s.append term (countedPart payload) outIndex io := by
  simp only [LogState.append, frameBuffer_countedPart _ term payload]

/-- A copy into a buffer stays inside it and keeps its size. -/
theorem copyIn_eq_ok {buffer data result : List UInt8} {offset : ℕ}
    (h : copyIn buffer offset data = .ok result) :
    offset + data.length ≤ buffer.length ∧ result.length = buffer.length := by
  unfold copyIn at h
  split at h
  · rename_i hinside
    cases h
    rw [overwrite_length]
    exact ⟨hinside, by omega⟩
  · cases h

/-- When the frame length wraps, the payload does not fit into the buffer. -/
theorem frameBuffer_of_wrap (index : LogIndex) (term : Term) {payload : List UInt8}
    (hlength : payload.length < 2 ^ 32) (hwrap : 2 ^ 32 ≤ 24 + payload.length) :
    ∃ fault, LogState.frameBuffer index term payload = .error fault := by
  cases hbuffer : LogState.frameBuffer index term payload with
  | error fault => exact ⟨fault, rfl⟩
  | ok result =>
    exfalso
    have hsize : (UInt32.ofNat payload.length).toNat = payload.length := by
      rw [UInt32.toNat_ofNat', Nat.mod_eq_of_lt hlength]
    have hbody : (bodySize (UInt32.ofNat payload.length)).toNat = 24 + payload.length - 2 ^ 32 := by
      simp only [bodySize, INDEX_SIZE, TERM_SIZE, PAYLOAD_LENGTH_SIZE, CHECKSUM_SIZE,
        UInt32.toNat_add, UInt32.toNat_ofNat']
      omega
    unfold LogState.frameBuffer at hbuffer
    obtain ⟨first, hfirst, hbuffer⟩ := except_bind_eq_ok.mp hbuffer
    obtain ⟨second, hsecond, hbuffer⟩ := except_bind_eq_ok.mp hbuffer
    obtain ⟨third, hthird, hbuffer⟩ := except_bind_eq_ok.mp hbuffer
    obtain ⟨fourth, hfourth, hbuffer⟩ := except_bind_eq_ok.mp hbuffer
    obtain ⟨fifth, hfifth, _⟩ := except_bind_eq_ok.mp hbuffer
    have hfirstSize := (copyIn_eq_ok hfirst).2
    have hsecondSize := (copyIn_eq_ok hsecond).2
    have hthirdSize := (copyIn_eq_ok hthird).2
    have hfourthSize := (copyIn_eq_ok hfourth).2
    have hinside := (copyIn_eq_ok hfifth).1
    rw [List.length_replicate, hbody] at hfirstSize
    rw [hsize, List.take_length] at hinside
    simp only [FRAME_LENGTH_SIZE, INDEX_SIZE, TERM_SIZE, PAYLOAD_LENGTH_SIZE] at *
    omega

/-- So an append to an open log has undefined behaviour. -/
theorem append_of_wrap {s : LogState} (hopen : s.log.isOpen = true) (term : Term)
    {payload : List UInt8} (hwrap : 2 ^ 32 ≤ 24 + payload.length % 2 ^ 32) (outIndex : LogIndex)
    (io : Schedule) : ∃ fault, s.append term payload outIndex io = .error fault := by
  have hlength := countedPart_length payload
  obtain ⟨fault, hbuffer⟩ := @frameBuffer_of_wrap (s.log.lastIndex + 1) term
    (countedPart payload) (by omega) (by omega)
  refine ⟨fault, ?_⟩
  rw [append_countedPart]
  simp only [LogState.append, hopen, Bool.not_true, Bool.false_eq_true, if_false, hbuffer]

/-- A call on a log that holds entries leaves a log that holds entries, whatever the size of
an appended payload. -/
theorem Represents.call {s s' : LogState} {entries : List Entry} (h : Represents s entries)
    {call : LogCall × Schedule} {response : LogResponse}
    (hcall : s.call call = .ok (response, s')) : ∃ entries', Represents s' entries' := by
  have hfits {call : LogCall × Schedule} {response : LogResponse}
      (hcall : s.call call = .ok (response, s')) (hfits : call.1.Fits) :
      ∃ entries', Represents s' entries' := by
    have hall : ∀ other ∈ [call], other.1.Fits := fun other hother =>
      List.mem_singleton.mp hother ▸ hfits
    obtain ⟨responses, s₁, hrun, _, hrep, _⟩ := run_ledger h hall
    rw [run_cons hcall] at hrun
    cases hrun
    exact ⟨_, hrep⟩
  obtain ⟨call, io⟩ := call
  cases call with
  | append term payload outIndex =>
    have hcounted : s.call (.append term payload outIndex, io) =
        s.call (.append term (countedPart payload) outIndex, io) := by
      simp only [LogState.call, append_countedPart s term payload]
    rw [hcounted] at hcall
    by_cases hwrap : 24 + (countedPart payload).length < 2 ^ 32
    · exact hfits hcall hwrap
    · rw [countedPart_length] at hwrap
      obtain ⟨fault, hfault⟩ := append_of_wrap h.isOpen term (Nat.not_lt.mp hwrap) outIndex io
      obtain ⟨result, happend, _⟩ := except_bind_eq_ok.mp (hcounted.trans hcall)
      rw [hfault] at happend
      cases happend
  | _ => exact hfits hcall trivial

/-- A log that was opened and then called holds entries. -/
theorem exists_represents_of_run {s₀ start s : LogState} {io₀ : Schedule}
    (hopen : s₀.openLog io₀ = .ok (.OK, start)) {calls : List (LogCall × Schedule)}
    {responses : List LogResponse} (hrun : run LogState.call start calls = .ok (responses, s)) :
    ∃ entries, Represents s entries := by
  have hstart : ∃ entries, Represents start entries := by
    rcases s₀.openLog_spec io₀ with ⟨s₁, entries, hopen₁, hrep, _⟩ | ⟨_, s₁, hopen₁⟩
    · rw [hopen] at hopen₁
      cases hopen₁
      exact ⟨entries, hrep⟩
    · rw [hopen] at hopen₁
      cases hopen₁
  have hkeeps : ∀ {s call response s'}, (∃ entries, Represents s entries) →
      LogState.call s call = .ok (response, s') → ∃ entries, Represents s' entries := by
    rintro s call response s' ⟨entries, hrep⟩ hcall
    exact hrep.call hcall
  exact run_keeps hkeeps hstart hrun

/-- What `append` owes its caller: a failure leaves the log and what it shows unchanged, and
a success stores a frame with the true sizes from which the payload is read back, before
and after the log is opened again. -/
def AppendsExactly (s : LogState) (term : Term) (payload : List UInt8) (outIndex : LogIndex)
    (io : Schedule) : Prop :=
  (∃ status s', s.append term payload outIndex io = .ok (status, outIndex, s') ∧ status ≠ .OK ∧
    s'.log = s.log ∧ ∀ entries, Exposes s entries → Exposes s' entries) ∨
  ∃ index s' reopened, s.append term payload outIndex io = .ok (.OK, index, s') ∧
    (uint32OfBytes ((s'.file.bytes.drop s.log.writeOffset).take 4)).toNat =
      24 + payload.length ∧
    (uint32OfBytes ((s'.file.bytes.drop (s.log.writeOffset + 20)).take 4)).toNat =
      payload.length ∧
    (∀ out, s'.entryAt index out [] = .ok (.OK, ⟨index, term, payload⟩)) ∧
    (LogState.closed s'.file).openLog [] = .ok (.OK, reopened) ∧
    ∀ out, reopened.entryAt index out [] = .ok (.OK, ⟨index, term, payload⟩)

namespace Represents

variable {s : LogState} {entries : List Entry}

/-- A log with the same entries shows the same. -/
theorem exposes_of_exposes (h : Represents s entries) {s' : LogState} (h' : Represents s' entries)
    {shown : List Entry} (hshown : Exposes s shown) : Exposes s' shown := by
  have hbound : shown.length < 2 ^ 64 := by
    rw [← hshown.lastIndex]
    exact s.log.lastIndex.toNat_lt
  rw [hshown.unique h.exposes hbound]
  exact h'.exposes

/-- The last entry of a log is read back at its index. -/
theorem entryAt_last (h : Represents s entries) {count : ℕ} (hcount : count < entries.length)
    (out : LogEntry) : s.entryAt (UInt64.ofNat (count + 1)) out [] =
      .ok (.OK, ⟨UInt64.ofNat (count + 1), entries[count].1, entries[count].2⟩) := by
  have hlength := h.length_lt
  have hindex : (UInt64.ofNat (count + 1)).toNat = count + 1 := by
    rw [UInt64.toNat_ofNat', Nat.mod_eq_of_lt (by omega)]
  have hread := h.exposes.entryAt (UInt64.ofNat (count + 1)) out (by omega) (by omega)
  simp only [hindex, Nat.add_sub_cancel] at hread
  exact hread

/-- At the write offset an appended entry's frame is stored with its true sizes. -/
theorem stored_sizes (h : Represents s entries) {s' : LogState} {term : Term}
    {payload : List UInt8} (h' : Represents s' (entries ++ [(term, payload)])) :
    (uint32OfBytes ((s'.file.bytes.drop s.log.writeOffset).take 4)).toNat =
        24 + payload.length ∧
      (uint32OfBytes ((s'.file.bytes.drop (s.log.writeOffset + 20)).take 4)).toNat =
        payload.length := by
  have hlast : entries.length < (entries ++ [(term, payload)]).length := by simp
  have hitem : (entries ++ [(term, payload)])[entries.length] = (term, payload) := by simp
  have hend : logFraming.frameEnd 1 (entries ++ [(term, payload)]) entries.length =
      s.log.writeOffset := by
    rw [logFraming.frameEnd_append _ le_rfl, logFraming.frameEnd_length, h.writeOffset, logBytes]
  obtain ⟨rest, hstored⟩ := h'.drop_frameEnd hlast
  have hfits := h'.fits hlast
  rw [hitem] at hstored hfits
  rw [hend] at hstored
  refine ⟨by rw [hstored, frameLength_frame hfits], ?_⟩
  have hsize := hfits.2
  rw [← List.drop_drop, hstored, payloadLength_of_prefix (List.prefix_append _ rest),
    uint32OfBytes, ofLittleEndian_littleEndian_of_lt (by omega), UInt32.toNat_ofNat',
    Nat.mod_eq_of_lt (by omega)]

/-- An append whose frame length fits fails and leaves the log unchanged, or adds the
counted part of the payload. -/
theorem append_countedPart (h : Represents s entries) (term : Term) {payload : List UInt8}
    (hfits : 24 + payload.length % 2 ^ 32 < 2 ^ 32) (outIndex : LogIndex) (io : Schedule) :
    (∃ s', s.append term payload outIndex io = .ok (.IO_ERROR, outIndex, s') ∧
      s'.log = s.log ∧ ∀ entries, Exposes s entries → Exposes s' entries) ∨
    ∃ s', s.append term payload outIndex io = .ok (.OK, UInt64.ofNat (entries.length + 1), s') ∧
      Represents s' (entries ++ [(term, countedPart payload)]) := by
  rw [← countedPart_length] at hfits
  rw [MiniDB.Storage.append_countedPart]
  rcases h.append term hfits outIndex io with
    ⟨_, s', happend, hrep, _⟩ | ⟨_, s', happend, hrep, hlog, _⟩
  · exact Or.inr ⟨s', happend, hrep⟩
  · exact Or.inl ⟨s', happend, hlog, fun _ hshown => h.exposes_of_exposes hrep hshown⟩

/-- A payload whose frame length fits is appended exactly, whatever the system calls do. -/
theorem appendsExactly (h : Represents s entries) (term : Term) {payload : List UInt8}
    (hfits : 24 + payload.length < 2 ^ 32) (outIndex : LogIndex) (io : Schedule) :
    AppendsExactly s term payload outIndex io := by
  have hwhole : countedPart payload = payload := countedPart_eq_self.mpr (by omega)
  have hcounted : 24 + payload.length % 2 ^ 32 < 2 ^ 32 := by omega
  rcases h.append_countedPart term hcounted outIndex io with
    ⟨s', happend, hlog, hshown⟩ | ⟨s', happend, hrep⟩
  · exact Or.inl ⟨_, s', happend, by decide, hlog, hshown⟩
  · rw [hwhole] at hrep
    obtain ⟨reopened, hreopen, hrep'⟩ := hrep.reopen
    obtain ⟨hframe, hpayload⟩ := h.stored_sizes hrep
    have hlast : entries.length < (entries ++ [(term, payload)]).length := by simp
    refine Or.inr ⟨_, s', reopened, happend, hframe, hpayload, fun out => ?_, hreopen,
      fun out => ?_⟩
    · have hread := hrep.entryAt_last hlast out
      simpa using hread
    · have hread := hrep'.entryAt_last (Nat.lt_of_lt_of_le hlast (by simp)) out
      simpa using hread

end Represents

/-- An append reads its payload back exactly, or fails and changes nothing, whatever the
system calls do, if and only if the frame length fits its 32-bit field or the cut payload's
frame would outgrow the offset range. -/
theorem appendsExactly_iff {s₀ start s : LogState} {io₀ : Schedule}
    (hopen : s₀.openLog io₀ = .ok (.OK, start)) {calls : List (LogCall × Schedule)}
    {responses : List LogResponse} (hrun : run LogState.call start calls = .ok (responses, s))
    (term : Term) (payload : List UInt8) (outIndex : LogIndex) :
    (∀ io, AppendsExactly s term payload outIndex io) ↔
      24 + payload.length < 2 ^ 32 ∨
      (24 + payload.length % 2 ^ 32 < 2 ^ 32 ∧
        offsetLimit ≤ s.log.writeOffset + (28 + payload.length % 2 ^ 32)) := by
  obtain ⟨entries, hrep⟩ := exists_represents_of_run hopen hrun
  constructor
  · intro hall
    by_contra hnot
    rw [not_or, not_and] at hnot
    obtain ⟨hlarge, hlimit⟩ := hnot
    by_cases hcounted : 24 + payload.length % 2 ^ 32 < 2 ^ 32
    · have hsize := countedPart_length payload
      have hspace : s.log.writeOffset + (28 + payload.length % 2 ^ 32) < offsetLimit :=
        Nat.not_le.mp (hlimit hcounted)
      rcases hall [] with ⟨status, s', happend, hstatus, _⟩ | ⟨_, s', _, _, _, hpayload, _⟩
      · have hfits : 24 + (countedPart payload).length < 2 ^ 32 := by omega
        rw [append_countedPart] at happend
        rcases hrep.append term hfits outIndex [] with ⟨_, s₁, hsuccess, _⟩ | ⟨hfailed, _⟩
        · rw [happend] at hsuccess
          cases hsuccess
          exact hstatus rfl
        · have hfull := appendSucceeds_nil hfailed
          rw [← hrep.writeOffset, hsize] at hfull
          omega
      · have hstored := (uint32OfBytes
          ((s'.file.bytes.drop (s.log.writeOffset + 20)).take 4)).toNat_lt
        omega
    · obtain ⟨fault, hfault⟩ := append_of_wrap hrep.isOpen term (Nat.not_lt.mp hcounted) outIndex []
      rcases hall [] with ⟨_, _, happend, _⟩ | ⟨_, _, _, happend, _⟩ <;>
      · rw [hfault] at happend
        cases happend
  · rintro (hfits | ⟨hcounted, hlimit⟩) io
    · exact hrep.appendsExactly term hfits outIndex io
    · -- no schedule lets the cut payload through, since the file would be too large
      rcases hrep.append_countedPart term hcounted outIndex io with
        ⟨s', happend, hlog, hshown⟩ | ⟨s', _, hrep'⟩
      · exact Or.inl ⟨_, s', happend, by decide, hlog, hshown⟩
      · exfalso
        have hsize := s'.file.size_lt
        have hcontent := hrep'.content.length_le
        rw [logBytes_append_singleton, List.length_append, frame_length,
          ← hrep.writeOffset] at hcontent
        have hlength := countedPart_length payload
        dsimp only at hcontent
        omega

/-- A short payload appended to a log opened on an empty file. -/
theorem appendsExactly_short :
    AppendsExactly ⟨logOf [], File.empty⟩ 7 [1] INVALID_LOG_INDEX [] :=
  (@appendsExactly_iff _ _ ⟨logOf [], File.empty⟩ _ LogState.openLog_empty [] _ rfl 7 [1]
    INVALID_LOG_INDEX).mpr (Or.inl (by decide)) []

/-- The first payload whose frame length wraps, appended to a log opened on an empty file. -/
theorem not_appendsExactly_wrap :
    ¬AppendsExactly ⟨logOf [], File.empty⟩ 0 (List.replicate 4294967272 0) INVALID_LOG_INDEX
      [] := by
  have hlength : (List.replicate 4294967272 (0 : UInt8)).length = 4294967272 :=
    List.length_replicate
  obtain ⟨fault, hfault⟩ := @append_of_wrap ⟨logOf [], File.empty⟩ rfl 0
    (List.replicate 4294967272 0) (by rw [hlength]; decide) INVALID_LOG_INDEX []
  rintro (⟨_, _, happend, _⟩ | ⟨_, _, _, happend, _⟩) <;>
  · rw [hfault] at happend
    cases happend

end MiniDB.Storage
