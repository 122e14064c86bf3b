import MiniDB.Storage.LogDisk

/-!
# Acknowledged calls and crashes

A crash loses or keeps each change of the log file that no `fsync` has forced out. What
`open` finds afterwards always begins with the acknowledged entries, because a frame is
forced out before its append returns. Entries that were removed since the last such
`fsync` can come back: a truncation is acknowledged while its size change is pending.
-/

namespace MiniDB.Storage

open MiniDB.Common ByteSequence Memory Posix Durability Refinement

/-- The log after a call that succeeds. -/
def LogCall.applied : LogCall → List Entry → List Entry
  | .append term payload _, entries => entries ++ [(term, payload)]
  | .truncateFrom index, entries => entries.take (index.toNat - 1)
  | _, entries => entries

/-- The status that a call reports. -/
def LogResponse.status : LogResponse → Status
  | .appended status _ => status
  | .truncated status => status
  | .entry status _ => status
  | .entries status _ => status
  | .lastIndex _ => .OK
  | .lastTerm _ => .OK

/-- The log as its callers know it, and the log that the disk has forced out. -/
structure SyncLedger where
  /-- The entries after the last call that returned. -/
  acknowledged : List Entry
  /-- The entries at the last `fsync`. -/
  synced : List Entry

/-- The effect of a call that succeeds: only an append forces the log out. -/
def SyncLedger.step (ledger : SyncLedger) (call : LogCall × Schedule) : SyncLedger :=
  match call.1 with
  | .append term payload _ =>
    ⟨ledger.acknowledged ++ [(term, payload)], ledger.acknowledged ++ [(term, payload)]⟩
  | other => { ledger with acknowledged := other.applied ledger.acknowledged }

/-- A log that was constructed but never opened, over a file without pending changes. -/
def DiskLog.closed (file : File) : DiskLog := ⟨(LogState.closed file).log, Disk.settled file⟩

/-- The files a crash can leave while `taken` system calls of the call in flight have
taken effect. -/
def DiskLog.crashes (d : DiskLog) (inFlight : Option (LogCall × Schedule)) (taken : ℕ) :
    List File :=
  (d.disk.performAll File.change ((inFlight.toList.flatMap d.state.effects).take taken)).survivors
    File.change

/-- `open` finds exactly these entries in a file. -/
def Recovers (file : File) (entries : List Entry) : Prop :=
  ∃ s, (LogState.closed file).openLog [] = .ok (.OK, s) ∧ Exposes s entries

/-- `open` finds the acknowledged entries, or these with the call in flight applied. -/
def RecoversAcknowledged (file : File) (entries : List Entry)
    (inFlight : Option (LogCall × Schedule)) : Prop :=
  Recovers file entries ∨ ∃ call ∈ inFlight, Recovers file (call.1.applied entries)

/-- The condition for a crash to be harmless. No entry was removed since the last `fsync`,
or only one that the append in flight writes again; and if an append is in flight, no part
of its writes, over the forced-out file or over the file that programs see, forms a frame
behind the acknowledged entries other than its own. -/
def CrashSafe (d : DiskLog) (ledger : SyncLedger) : Option (LogCall × Schedule) → Prop
  | some (.append term payload outIndex, io) =>
    (ledger.synced = ledger.acknowledged ∨
      ledger.synced = ledger.acknowledged ++ [(term, payload)]) ∧
    ∀ start ∈ [d.disk.durable, d.disk.content File.change],
      ∀ kept : List Change,
        kept.Sublist (changes (d.state.effects (.append term payload outIndex, io))) →
        logFraming.NoOther (ledger.acknowledged.length + 1) (term, payload)
          ((kept.foldl File.change start).bytes.drop (logBytes ledger.acknowledged).length)
  | _ => ledger.synced = ledger.acknowledged

/-- What holds of a log on a disk between calls. -/
structure Holds (d : DiskLog) (ledger : SyncLedger) : Prop where
  /-- Programs see the acknowledged entries. -/
  represents : Represents d.state ledger.acknowledged
  /-- Programs see nothing behind them. -/
  residue_eq : residue d.state = []
  /-- The disk has forced out the synced entries. -/
  synced_eq : logFraming.scan 1 d.disk.durable.bytes = ledger.synced
  /-- Since then entries were only removed. -/
  isPrefix : ledger.acknowledged <+: ledger.synced
  /-- A crash undoes all removals or leaves the frames of some of the synced entries. -/
  survives : ∀ file ∈ d.disk.survivors File.change, file = d.disk.durable ∨
    ∃ kept, ledger.acknowledged <+: kept ∧ kept <+: ledger.synced ∧ file.bytes = logBytes kept

/-- What `open` finds is what the recovery scan finds. -/
theorem recovers_iff {file : File} {entries : List Entry} :
    Recovers file entries ↔ logFraming.scan 1 file.bytes = entries := by
  obtain ⟨s, hopen, hrep, _⟩ := (LogState.closed file).openLog_nil
  have hlength := hrep.length_lt
  constructor
  · rintro ⟨s', hopen', hexposes⟩
    rw [hopen] at hopen'
    cases hopen'
    exact hrep.exposes.unique hexposes (Nat.lt_trans hlength (by decide))
  · rintro rfl
    exact ⟨s, hopen, hrep.exposes⟩

/-- A call that reports no I/O error is applied. -/
theorem applied_of_answers {entries entries' : List Entry} {call : LogCall × Schedule}
    {response : LogResponse} (h : ListAnswers entries call response entries')
    (hok : response.status ≠ .IO_ERROR) : entries' = call.1.applied entries := by
  rcases call with ⟨call, io⟩
  cases call with
  | append term payload outIndex =>
    rcases h with ⟨_, _, _, hentries⟩ | ⟨_, rfl, _⟩
    · exact hentries
    · exact absurd rfl hok
  | truncateFrom index =>
    rcases h with ⟨_, hentries⟩ | ⟨_, rfl, _⟩
    · exact hentries
    · exact absurd rfl hok
  | entryAt index out => exact h.1
  | range fromIndex toIndex => exact h.1
  | lastIndex => exact h.1
  | lastTerm => exact h.1

/-- An append that is applied was written and forced out. -/
theorem appendSucceeds_of_applied {entries : List Entry} {term : Term} {payload : List UInt8}
    {outIndex : LogIndex} {io : Schedule}
    (h : (Ledger.step ⟨entries, []⟩ (.append term payload outIndex, io)).entries =
      entries ++ [(term, payload)]) : appendSucceeds entries (term, payload) io = true := by
  cases hsucceeds : appendSucceeds entries (term, payload) io with
  | true => rfl
  | false =>
    simp only [Ledger.step, hsucceeds, Bool.false_eq_true, if_false] at h
    simpa using congrArg List.length h

/-- A call that is applied leaves nothing behind the log. -/
theorem leftover_of_applied {entries : List Entry} {call : LogCall × Schedule}
    (h : (Ledger.step ⟨entries, []⟩ call).entries = call.1.applied entries) :
    (Ledger.step ⟨entries, []⟩ call).leftover = [] := by
  rcases call with ⟨call, io⟩
  cases call with
  | append term payload outIndex =>
    have hsucceeds := appendSucceeds_of_applied h
    simp only [Ledger.step, hsucceeds, if_true, List.drop_nil]
  | truncateFrom index =>
    simp only [Ledger.step]
    split <;> rfl
  | entryAt index out => rfl
  | range fromIndex toIndex => rfl
  | lastIndex => rfl
  | lastTerm => rfl

namespace Represents

variable {s : LogState} {entries : List Entry}

/-- The writes of `append` put the new frame behind the log. An `fsync` follows them
exactly if the append succeeds. -/
theorem effects_append (h : Represents s entries) (term : Term) {payload : List UInt8}
    (hpayload : 24 + payload.length < 2 ^ 32) (io : Schedule) :
    (appendSucceeds entries (term, payload) io = true ∧
      s.appendEffects term payload io =
        (s.file.writes (frame (entries.length + 1) (term, payload))
          (logBytes entries).length io).map .alter ++ [.sync]) ∨
    (appendSucceeds entries (term, payload) io = false ∧
      s.appendEffects term payload io =
        (s.file.writes (frame (entries.length + 1) (term, payload))
          (logBytes entries).length io).map .alter) := by
  have hoffset := h.writeOffset
  have hbuffer := frameBuffer_eq (s.log.lastIndex + 1) term hpayload
  rw [h.lastIndex_succ.2] at hbuffer
  obtain ⟨file, hwrite, _⟩ := @File.pwriteAll_spec s.file
    (frame (entries.length + 1) (term, payload)) _ h.content.length_le io
  have htransfer : transferred (28 + payload.length) (logBytes entries).length io =
      appendTransfer entries (term, payload) io := rfl
  rw [frame_length] at hwrite
  dsimp only at hwrite
  rw [htransfer] at hwrite
  simp only [LogState.appendEffects, h.isOpen, Bool.not_true, Bool.false_eq_true, if_false,
    hbuffer, hoffset, hwrite]
  by_cases hwhole : (appendTransfer entries (term, payload) io).1 = 28 + payload.length
  · rw [decide_eq_true hwhole]
    have hsucceeds : appendSucceeds entries (term, payload) io =
        (fsync (appendTransfer entries (term, payload) io).2).1 := by
      rw [appendSucceeds]
      dsimp only
      rw [decide_eq_true hwhole, Bool.true_and]
    rw [hsucceeds]
    dsimp only
    cases hsync : (fsync (appendTransfer entries (term, payload) io).2).1 with
    | false =>
      have hnone : syncEffects (appendTransfer entries (term, payload) io).2 = [] := by
        rw [syncEffects, hsync, if_neg Bool.false_ne_true]
      rw [hnone, List.append_nil]
      exact Or.inr ⟨rfl, rfl⟩
    | true =>
      have hbarrier : syncEffects (appendTransfer entries (term, payload) io).2 = [.sync] := by
        rw [syncEffects, hsync, if_pos rfl]
      rw [hbarrier]
      exact Or.inl ⟨rfl, rfl⟩
  · have hfailed : appendSucceeds entries (term, payload) io = false := by
      rw [appendSucceeds, decide_eq_false hwhole, Bool.false_and]
    rw [decide_eq_false hwhole]
    exact Or.inr ⟨hfailed, rfl⟩

/-- `truncateFrom` changes nothing in the file, or cuts it behind the entries it keeps. -/
theorem effects_truncateFrom (h : Represents s entries) (index : LogIndex) (io : Schedule) :
    s.truncateEffects index io = [] ∨
      s.truncateEffects index io =
        [.alter (.resize (logBytes (entries.take (index.toNat - 1))).length)] := by
  rcases h.truncateFrom index io with
    ⟨hbeyond, hcall⟩ | ⟨_, _, s', hcall, hrep, _⟩ | ⟨_, _, hcall⟩
  · rcases LogState.truncateEffects_cases hcall with ⟨heffects, _⟩ | ⟨_, heffects, _⟩
    · exact Or.inl heffects
    · rw [h.writeOffset] at heffects
      rw [List.take_of_length_le (by omega)]
      exact Or.inr heffects
  · rcases LogState.truncateEffects_cases hcall with ⟨heffects, _⟩ | ⟨_, heffects, _⟩
    · exact Or.inl heffects
    · rw [hrep.writeOffset] at heffects
      exact Or.inr heffects
  · rcases LogState.truncateEffects_cases hcall with ⟨heffects, _⟩ | ⟨hok, _⟩
    · exact Or.inl heffects
    · cases hok

end Represents

/-- Cutting a file behind frames that every survivor begins with adds one survivor at most. -/
theorem survivor_of_resize {disk : Disk} {entries : List Entry}
    (hbegins : ∀ file ∈ disk.survivors File.change, logBytes entries <+: file.bytes)
    {file : File}
    (hfile : file ∈ (disk.performAll File.change
      [.alter (.resize (logBytes entries).length)]).survivors File.change) :
    file ∈ disk.survivors File.change ∨ file.bytes = logBytes entries := by
  rw [← List.map_singleton] at hfile
  obtain ⟨before, hmem, kept, hkept, rfl⟩ := (Medium.mem_survivors_changes File.change).mp hfile
  rcases List.sublist_singleton.mp hkept with rfl | rfl
  · exact Or.inl hmem
  · exact Or.inr (File.change_resize_of_prefix (hbegins before hmem))

namespace Holds

variable {d : DiskLog} {ledger : SyncLedger}

/-- The synced entries fit their frames. -/
theorem allFit (h : Holds d ledger) : logFraming.AllFit 1 ledger.synced := by
  rw [← h.synced_eq]
  exact (logFraming.scan_sound 1 _).1

/-- The forced-out file begins with the frames of the synced entries. -/
theorem logBytes_prefix (h : Holds d ledger) :
    logBytes ledger.synced <+: d.disk.durable.bytes := by
  rw [← h.synced_eq]
  exact (logFraming.scan_sound 1 _).2

/-- Programs see the frames of the acknowledged entries and nothing else. -/
theorem content_bytes (h : Holds d ledger) :
    (d.disk.content File.change).bytes = logBytes ledger.acknowledged := by
  have hbytes := h.represents.bytes_eq
  rwa [h.residue_eq, List.append_nil] at hbytes

/-- What a crash leaves begins with frames of synced entries, all acknowledged ones among
them. -/
theorem survivor_prefix (h : Holds d ledger) {file : File}
    (hfile : file ∈ d.disk.survivors File.change) :
    ∃ kept, ledger.acknowledged <+: kept ∧ kept <+: ledger.synced ∧
      logBytes kept <+: file.bytes ∧ logFraming.scan 1 file.bytes = kept := by
  rcases h.survives file hfile with rfl | ⟨kept, hfirst, hlast, hbytes⟩
  · exact ⟨ledger.synced, h.isPrefix, List.prefix_rfl, h.logBytes_prefix, h.synced_eq⟩
  · refine ⟨kept, hfirst, hlast, hbytes ▸ List.prefix_rfl, ?_⟩
    rw [hbytes]
    exact logFraming.scan_encodeAll_self (h.allFit.of_prefix (F := logFraming) hlast)

/-- Every survivor begins with the frames of leading acknowledged entries. -/
theorem logBytes_prefix_of_survivor (h : Holds d ledger) {entries : List Entry}
    (hentries : entries <+: ledger.acknowledged) {file : File}
    (hfile : file ∈ d.disk.survivors File.change) : logBytes entries <+: file.bytes := by
  obtain ⟨kept, hfirst, _, hpre, _⟩ := h.survivor_prefix hfile
  exact (logFraming.encodeAll_prefix 1 (hentries.trans hfirst)).trans hpre

/-- A disk whose file was forced out holds the entries that it was seen to hold. -/
theorem of_settled {entries : List Entry} (hrep : Represents d.state entries)
    (hresidue : residue d.state = []) (hpending : d.disk.pending = []) :
    Holds d ⟨entries, entries⟩ := by
  have hcontent := Medium.content_of_pending_nil File.change hpending
  have hbytes : d.disk.durable.bytes = logBytes entries := by
    have hsplit := hrep.bytes_eq
    rw [hresidue, List.append_nil] at hsplit
    exact (congrArg File.bytes hcontent).symm.trans hsplit
  refine ⟨hrep, hresidue, ?_, List.prefix_rfl, fun file hfile => ?_⟩
  · rw [hbytes]
    exact logFraming.scan_encodeAll_self hrep.allFit
  · exact Or.inl ((Medium.mem_survivors_of_pending_nil File.change hpending).mp hfile)

/-- Removing entries from a log leaves the size change pending. -/
theorem of_removed {d' : DiskLog} {entries : List Entry} (h : Holds d ledger)
    (hremoved : entries <+: ledger.acknowledged) (hrep : Represents d'.state entries)
    (hresidue : residue d'.state = [])
    (hdisk : d'.disk = d.disk ∨
      d'.disk = d.disk.performAll File.change [.alter (.resize (logBytes entries).length)]) :
    Holds d' { ledger with acknowledged := entries } := by
  have hdurable : d'.disk.durable = d.disk.durable := by
    rcases hdisk with hdisk | hdisk <;> rw [hdisk]
    rfl
  refine ⟨hrep, hresidue, hdurable ▸ h.synced_eq, hremoved.trans h.isPrefix, ?_⟩
  rw [hdurable]
  have hbefore : ∀ file ∈ d.disk.survivors File.change, file = d.disk.durable ∨
      ∃ kept, entries <+: kept ∧ kept <+: ledger.synced ∧ file.bytes = logBytes kept := by
    intro file hfile
    rcases h.survives file hfile with hsame | ⟨kept, hfirst, hlast, hbytes⟩
    · exact Or.inl hsame
    · exact Or.inr ⟨kept, hremoved.trans hfirst, hlast, hbytes⟩
  rcases hdisk with hdisk | hdisk
  · rw [hdisk]
    exact hbefore
  · intro file hfile
    rw [hdisk] at hfile
    rcases survivor_of_resize (fun before => h.logBytes_prefix_of_survivor hremoved) hfile with
      hmem | hbytes
    · exact hbefore file hmem
    · exact Or.inr ⟨entries, List.prefix_rfl, hremoved.trans h.isPrefix, hbytes⟩

/-- A successful `open` on a settled disk acknowledges leading frames of the file. -/
theorem of_openLog {file : File} {io : Schedule} {s : LogState}
    (hopen : (LogState.closed file).openLog io = .ok (.OK, s)) :
    ∃ d initial, (DiskLog.closed file).openLog io = .ok (.OK, d) ∧ d.state = s ∧
      s.file.bytes = logBytes initial ∧ Holds d ⟨initial, logFraming.scan 1 file.bytes⟩ := by
  obtain ⟨d, hdisk, hstate, heffects⟩ := (DiskLog.closed file).openLog_of_state hopen
  have hsettled {survivor : File} :
      survivor ∈ (Disk.settled file).survivors File.change ↔ survivor = file :=
    Medium.mem_survivors_of_pending_nil File.change rfl
  rcases (LogState.closed file).openLog_spec io with
    ⟨s', initial, hopen', hrep, hbytes, hinitial, _⟩ | ⟨_, s', hopen'⟩
  · rw [hopen] at hopen'
    cases hopen'
    refine ⟨d, initial, hdisk, hstate, hbytes, ?_⟩
    have hresidue := hrep.residue_eq_nil hbytes
    have hpre : logBytes initial <+: file.bytes :=
      (logFraming.encodeAll_prefix 1 hinitial).trans (logFraming.scan_sound 1 file.bytes).2
    rcases LogState.openEffects_cases hopen with ⟨hnone, _⟩ | ⟨hcut, _⟩
    · have hsame : d.disk = Disk.settled file := heffects.trans (congrArg _ hnone)
      refine ⟨hstate ▸ hrep, hstate ▸ hresidue, by rw [hsame]; rfl, hinitial, ?_⟩
      intro survivor hsurvivor
      rw [hsame] at hsurvivor ⊢
      exact Or.inl (hsettled.mp hsurvivor)
    · rw [hrep.writeOffset] at hcut
      have hresized : d.disk = (Disk.settled file).performAll File.change
          [.alter (.resize (logBytes initial).length)] := heffects.trans (congrArg _ hcut)
      refine ⟨hstate ▸ hrep, hstate ▸ hresidue, by rw [hresized]; rfl, hinitial, ?_⟩
      intro survivor hsurvivor
      rw [hresized] at hsurvivor ⊢
      have hbegins : ∀ before ∈ (Disk.settled file).survivors File.change,
          logBytes initial <+: before.bytes := fun before hbefore => hsettled.mp hbefore ▸ hpre
      rcases survivor_of_resize hbegins hsurvivor with hmem | hkept
      · exact Or.inl (hsettled.mp hmem)
      · exact Or.inr ⟨initial, List.prefix_rfl, hinitial, hkept⟩
  · rw [hopen] at hopen'
    cases hopen'

/-- An append that is written and forced out leaves nothing pending. -/
theorem pending_append (h : Holds d ledger) {term : Term} {payload : List UInt8} {io : Schedule}
    (hpayload : 24 + payload.length < 2 ^ 32)
    (hsucceeds : appendSucceeds ledger.acknowledged (term, payload) io = true) :
    (d.disk.performAll File.change (d.state.appendEffects term payload io)).pending = [] := by
  rcases h.represents.effects_append term hpayload io with ⟨_, hwrites⟩ | ⟨hfailed, _⟩
  · rw [hwrites, Medium.performAll_sync]
  · rw [hsucceeds] at hfailed
    cases hfailed

/-- A call without an I/O error keeps the ledger. -/
theorem call {d' : DiskLog} {call : LogCall × Schedule} {response : LogResponse}
    (h : Holds d ledger) (hfits : call.1.Fits) (hcall : d.call call = .ok (response, d'))
    (hok : response.status ≠ .IO_ERROR) : Holds d' (ledger.step call) := by
  have hrelated : logSimulation.Related d.state ⟨ledger.acknowledged, []⟩ :=
    ⟨h.represents, h.residue_eq⟩
  obtain ⟨response', s', after, hstate, ⟨hanswers, hstep⟩, hrep, hresidue⟩ :=
    logSimulation.step_follows hrelated hfits
  obtain ⟨d'', hcall'', rfl, heffects⟩ := DiskLog.call_of_state hstate
  rw [hcall] at hcall''
  cases hcall''
  have happlied := applied_of_answers hanswers hok
  subst hstep
  rw [happlied] at hrep
  rw [leftover_of_applied happlied] at hresidue
  rcases call with ⟨call, io⟩
  cases call with
  | append term payload outIndex =>
    have hsucceeds := appendSucceeds_of_applied happlied
    refine of_settled hrep hresidue ?_
    rw [heffects]
    exact h.pending_append hfits hsucceeds
  | truncateFrom index =>
    refine h.of_removed (List.take_prefix _ _) hrep hresidue ?_
    rcases h.represents.effects_truncateFrom index io with hnone | hcut
    · exact Or.inl (heffects.trans (congrArg _ hnone))
    · exact Or.inr (heffects.trans (congrArg _ hcut))
  | entryAt index out => exact h.of_removed List.prefix_rfl hrep hresidue (Or.inl heffects)
  | range fromIndex toIndex => exact h.of_removed List.prefix_rfl hrep hresidue (Or.inl heffects)
  | lastIndex => exact h.of_removed List.prefix_rfl hrep hresidue (Or.inl heffects)
  | lastTerm => exact h.of_removed List.prefix_rfl hrep hresidue (Or.inl heffects)

/-- A run without I/O errors keeps the ledger. -/
theorem run {d' : DiskLog} {calls : List (LogCall × Schedule)} {responses : List LogResponse}
    (h : Holds d ledger) (hfits : ∀ call ∈ calls, call.1.Fits)
    (hrun : Refinement.run DiskLog.call d calls = .ok (responses, d'))
    (hok : ∀ response ∈ responses, response.status ≠ .IO_ERROR) :
    Holds d' (calls.foldl SyncLedger.step ledger) := by
  induction calls generalizing d ledger responses with
  | nil =>
    cases hrun
    exact h
  | cons first calls ih =>
    obtain ⟨response, rest, middle, hfirst, hrest, rfl⟩ := run_cons_eq_ok hrun
    have hmiddle := h.call (hfits first List.mem_cons_self) hfirst (hok response List.mem_cons_self)
    exact ih hmiddle (fun call hmem => hfits call (List.mem_cons_of_mem _ hmem)) hrest
      (fun other hmem => hok other (List.mem_cons_of_mem _ hmem))

/-- With at most one entry removed since the last `fsync` a crash leaves the file that was
forced out, the one that programs see, or the frames of all synced entries. -/
theorem survivor_cases (h : Holds d ledger) {entry : Entry}
    (hsynced : ledger.synced = ledger.acknowledged ∨
      ledger.synced = ledger.acknowledged ++ [entry])
    {file : File} (hfile : file ∈ d.disk.survivors File.change) :
    file ∈ [d.disk.durable, d.disk.content File.change] ∨
      file.bytes = logBytes ledger.acknowledged ++
        frame (ledger.acknowledged.length + 1) entry := by
  rcases h.survives file hfile with rfl | ⟨kept, hfirst, hlast, hbytes⟩
  · exact Or.inl List.mem_cons_self
  · have hkept : kept = ledger.acknowledged ++ [entry] ∨ kept <+: ledger.acknowledged := by
      rcases hsynced with hsynced | hsynced
      · exact Or.inr (hsynced ▸ hlast)
      · exact List.prefix_concat_iff.mp (hsynced ▸ hlast)
    rcases hkept with rfl | hkept
    · rw [logBytes_append_singleton] at hbytes
      exact Or.inr hbytes
    · have hsame := hkept.eq_of_length_le hfirst.length_le
      rw [hsame, ← h.content_bytes] at hbytes
      rw [File.ext hbytes]
      exact Or.inl (List.mem_cons_of_mem _ List.mem_cons_self)

/-- Without changes by the call in flight, a crash is harmless if and only if no entry was
removed since the last `fsync`. -/
theorem forall_survivor_iff (h : Holds d ledger) :
    (∀ file ∈ d.disk.survivors File.change, Recovers file ledger.acknowledged) ↔
      ledger.synced = ledger.acknowledged := by
  constructor
  · intro hall
    have hdurable := hall _ (Medium.durable_mem_survivors File.change d.disk)
    rw [recovers_iff, h.synced_eq] at hdurable
    exact hdurable
  · intro hsynced file hfile
    obtain ⟨kept, hfirst, hlast, _, hscan⟩ := h.survivor_prefix hfile
    rw [hsynced] at hlast
    rw [recovers_iff, hscan]
    exact hlast.eq_of_length_le hfirst.length_le

/-- A crash during a call that writes no frame is harmless if and only if no entry was
removed since the last `fsync`. -/
theorem crash_iff_of_removed (h : Holds d ledger) {inFlight : Option (LogCall × Schedule)}
    {after : List Entry} (hafter : after <+: ledger.acknowledged)
    (happlied : ∀ call ∈ inFlight, call.1.applied ledger.acknowledged = after)
    (heffects : inFlight.toList.flatMap d.state.effects = [] ∨
      inFlight ≠ none ∧ inFlight.toList.flatMap d.state.effects =
        [.alter (.resize (logBytes after).length)]) :
    (∀ taken, ∀ file ∈ d.crashes inFlight taken,
      RecoversAcknowledged file ledger.acknowledged inFlight) ↔
        ledger.synced = ledger.acknowledged := by
  constructor
  · intro hall
    have hdurable := hall 0 d.disk.durable (Medium.durable_mem_survivors File.change d.disk)
    rcases hdurable with hrecovers | ⟨call, hcall, hrecovers⟩
    · rwa [recovers_iff, h.synced_eq] at hrecovers
    · rw [recovers_iff, h.synced_eq, happlied call hcall] at hrecovers
      rw [← hrecovers] at hafter
      exact hafter.eq_of_length_le h.isPrefix.length_le
  · intro hsynced taken file hfile
    have hold := h.forall_survivor_iff.mpr hsynced
    unfold DiskLog.crashes at hfile
    rcases heffects with hnone | ⟨hsome, hcut⟩
    · rw [hnone, List.take_nil] at hfile
      exact Or.inl (hold file hfile)
    · rw [hcut] at hfile
      cases taken with
      | zero => exact Or.inl (hold file hfile)
      | succ taken =>
        rw [List.take_succ_cons, List.take_nil] at hfile
        rcases survivor_of_resize (fun before => h.logBytes_prefix_of_survivor hafter) hfile with
          hmem | hbytes
        · exact Or.inl (hold file hmem)
        · obtain ⟨call, hcall⟩ := Option.ne_none_iff_exists'.mp hsome
          refine Or.inr ⟨call, hcall, ?_⟩
          rw [recovers_iff, happlied call hcall, hbytes]
          exact logFraming.scan_encodeAll_self
            (h.represents.allFit.of_prefix (F := logFraming) hafter)

/-- `open` finds the acknowledged entries of a file, or these with the append in flight
applied, if and only if no other frame follows them. -/
theorem recovers_append_iff (h : Holds d ledger) {term : Term} {payload : List UInt8}
    {outIndex : LogIndex} {io : Schedule} {file : File}
    (hbegins : logBytes ledger.acknowledged <+: file.bytes) :
    RecoversAcknowledged file ledger.acknowledged (some (.append term payload outIndex, io)) ↔
      logFraming.NoOther (ledger.acknowledged.length + 1) (term, payload)
        (file.bytes.drop (logBytes ledger.acknowledged).length) := by
  obtain ⟨rest, hrest⟩ := hbegins
  have hscan : logFraming.scan 1 file.bytes = ledger.acknowledged ++
      logFraming.scan (ledger.acknowledged.length + 1) rest := by
    rw [← hrest, logBytes, logFraming.scan_encodeAll h.represents.allFit, Nat.add_comm 1]
  rw [← hrest, List.drop_left, ← Framing.scan_nil_or_singleton_iff]
  have hnone : Recovers file ledger.acknowledged ↔
      logFraming.scan (ledger.acknowledged.length + 1) rest = [] := by
    rw [recovers_iff, hscan, List.append_right_eq_self]
  have hone : Recovers file (ledger.acknowledged ++ [(term, payload)]) ↔
      logFraming.scan (ledger.acknowledged.length + 1) rest = [(term, payload)] := by
    rw [recovers_iff, hscan, List.append_right_inj]
  rw [← hnone, ← hone]
  constructor
  · rintro (hrecovers | ⟨call, hcall, hrecovers⟩)
    · exact Or.inl hrecovers
    · cases hcall
      exact Or.inr hrecovers
  · rintro (hrecovers | hrecovers)
    · exact Or.inl hrecovers
    · exact Or.inr ⟨_, rfl, hrecovers⟩

/-- Where the append in flight writes again the one removed entry, its frame is complete
even if none of its writes survive. -/
theorem recovers_of_rewritten (h : Holds d ledger) {term : Term} {payload : List UInt8}
    (hpayload : 24 + payload.length < 2 ^ 32) {outIndex : LogIndex} {io : Schedule} {file : File}
    (hbytes : file.bytes = logBytes ledger.acknowledged ++
      frame (ledger.acknowledged.length + 1) (term, payload)) :
    RecoversAcknowledged file ledger.acknowledged (some (.append term payload outIndex, io)) := by
  have hfits : EntryFits (ledger.acknowledged.length + 1) (term, payload) :=
    h.represents.fits_next hpayload
  have hbehind : file.bytes = logBytes ledger.acknowledged ++
      frame (ledger.acknowledged.length + 1) (term, payload) ++ [] := by
    rw [hbytes, List.append_nil]
  obtain ⟨hrep, _⟩ := h.represents.append_singleton hfits hbehind
  refine Or.inr ⟨_, rfl, ?_⟩
  rw [recovers_iff, hbytes, ← logBytes_append_singleton]
  exact logFraming.scan_encodeAll_self hrep.allFit

/-- An append that is written and forced out keeps the ledger. -/
theorem call_append (h : Holds d ledger) {term : Term} {payload : List UInt8}
    (hpayload : 24 + payload.length < 2 ^ 32) (outIndex : LogIndex) {io : Schedule}
    (hsucceeds : appendSucceeds ledger.acknowledged (term, payload) io = true) :
    ∃ d', d.call (.append term payload outIndex, io) =
        .ok (.appended .OK (UInt64.ofNat (ledger.acknowledged.length + 1)), d') ∧
      d'.disk = d.disk.performAll File.change (d.state.appendEffects term payload io) ∧
      Holds d' (ledger.step (.append term payload outIndex, io)) := by
  rcases h.represents.append term hpayload outIndex io with
    ⟨_, s', happend, _⟩ | ⟨hfailed, _⟩
  · obtain ⟨d', hcall, _, hdisk⟩ := DiskLog.call_of_state (LogState.call_append happend)
    have hok : Status.OK ≠ Status.IO_ERROR := by decide
    exact ⟨d', hcall, hdisk, h.call hpayload hcall hok⟩
  · rw [hsucceeds] at hfailed
    cases hfailed

/-- A truncation without scheduled outcomes keeps the ledger. -/
theorem call_truncateFrom (h : Holds d ledger) (index : LogIndex) :
    ∃ d', d.call (.truncateFrom index, []) = .ok (.truncated .OK, d') ∧
      Holds d' (ledger.step (.truncateFrom index, [])) := by
  have hstate : ∃ s', d.state.truncateFrom index [] = .ok (.OK, s') := by
    rcases h.represents.truncateFrom index [] with
      ⟨_, hcall⟩ | ⟨_, _, s', hcall, _⟩ | ⟨_, hfailed, _⟩
    · exact ⟨_, hcall⟩
    · exact ⟨s', hcall⟩
    · rw [truncateSucceeds_nil] at hfailed
      cases hfailed
  obtain ⟨s', hstate⟩ := hstate
  obtain ⟨d', hcall, _⟩ := DiskLog.call_of_state (LogState.call_truncateFrom hstate)
  have hok : Status.OK ≠ Status.IO_ERROR := by decide
  exact ⟨d', hcall, h.call trivial hcall hok⟩

/-- Once the `fsync` of an append has succeeded, every crash leaves its entry. -/
theorem recovers_of_append (h : Holds d ledger) {term : Term} {payload : List UInt8}
    (hpayload : 24 + payload.length < 2 ^ 32) (outIndex : LogIndex) {io : Schedule}
    (hsucceeds : appendSucceeds ledger.acknowledged (term, payload) io = true) :
    ∀ file ∈ (d.disk.performAll File.change
      (d.state.appendEffects term payload io)).survivors File.change,
        Recovers file (ledger.acknowledged ++ [(term, payload)]) := by
  obtain ⟨d', _, hdisk, hafter⟩ := h.call_append hpayload outIndex hsucceeds
  rw [← hdisk]
  exact hafter.forall_survivor_iff.mpr rfl

/-- A crash during an append is harmless if and only if the condition holds. -/
theorem crash_iff_of_append (h : Holds d ledger) {term : Term} {payload : List UInt8}
    (hpayload : 24 + payload.length < 2 ^ 32) (outIndex : LogIndex) (io : Schedule) :
    (∀ taken, ∀ file ∈ d.crashes (some (.append term payload outIndex, io)) taken,
      RecoversAcknowledged file ledger.acknowledged (some (.append term payload outIndex, io))) ↔
        CrashSafe d ledger (some (.append term payload outIndex, io)) := by
  have heffects := h.represents.effects_append term hpayload io
  have hplaced := @File.mem_writes d.state.file
    (frame (ledger.acknowledged.length + 1) (term, payload))
    (logBytes ledger.acknowledged).length io
  generalize d.state.file.writes (frame (ledger.acknowledged.length + 1) (term, payload))
    (logBytes ledger.acknowledged).length io = writes at heffects hplaced
  have hchanges : changes (d.state.effects (.append term payload outIndex, io)) = writes := by
    change changes (d.state.appendEffects term payload io) = writes
    rcases heffects with ⟨_, heffects⟩ | ⟨_, heffects⟩
    · rw [heffects, changes_concat_sync, changes_map_alter]
    · rw [heffects, changes_map_alter]
  have hflight : (some (LogCall.append term payload outIndex, io)).toList.flatMap
      d.state.effects = d.state.appendEffects term payload io := List.append_nil _
  have hbegins {start : File} (hstart : start ∈ d.disk.survivors File.change) {kept : List Change}
      (hkept : kept.Sublist writes) :
      logBytes ledger.acknowledged <+: (kept.foldl File.change start).bytes :=
    File.prefix_foldl_change (fun change hmem => hplaced (hkept.subset hmem))
      (h.logBytes_prefix_of_survivor List.prefix_rfl hstart)
  constructor
  · intro hall
    refine ⟨?_, fun start hstart kept hkept => ?_⟩
    · have hdurable := hall 0 d.disk.durable (Medium.durable_mem_survivors File.change d.disk)
      rcases hdurable with hrecovers | ⟨call, hcall, hrecovers⟩
      · rw [recovers_iff, h.synced_eq] at hrecovers
        exact Or.inl hrecovers
      · cases hcall
        rw [recovers_iff, h.synced_eq] at hrecovers
        exact Or.inr hrecovers
    · rw [hchanges] at hkept
      have hsurvives : start ∈ d.disk.survivors File.change := by
        rcases List.mem_cons.mp hstart with rfl | hcontent
        · exact Medium.durable_mem_survivors File.change d.disk
        · rw [List.mem_singleton.mp hcontent]
          exact Medium.content_mem_survivors File.change d.disk
      have hwritten : (d.state.appendEffects term payload io).take writes.length =
          writes.map .alter := by
        rcases heffects with ⟨_, heffects⟩ | ⟨_, heffects⟩
        · rw [heffects, List.take_left' (List.length_map _)]
        · rw [heffects, List.take_of_length_le (List.length_map _).le]
      have hcrash := hall writes.length (kept.foldl File.change start) (by
        rw [DiskLog.crashes, hflight, hwritten, Medium.mem_survivors_changes]
        exact ⟨start, hsurvives, kept, hkept, rfl⟩)
      exact (h.recovers_append_iff (hbegins hsurvives hkept)).mp hcrash
  · rintro ⟨hsynced, hsafe⟩ taken file hfile
    rw [DiskLog.crashes, hflight] at hfile
    have hearly : ∀ count, file ∈ (d.disk.performAll File.change
        ((writes.take count).map .alter)).survivors File.change →
          RecoversAcknowledged file ledger.acknowledged
            (some (.append term payload outIndex, io)) := by
      intro count hmem
      obtain ⟨start, hstart, kept, hkept, rfl⟩ :=
        (Medium.mem_survivors_changes File.change).mp hmem
      have hkept := hkept.trans (List.take_sublist count writes)
      rcases h.survivor_cases hsynced hstart with hmem | hbytes
      · rw [h.recovers_append_iff (hbegins hstart hkept)]
        exact hsafe start hmem kept (hchanges.symm ▸ hkept)
      · rw [File.foldl_change_self (fun change hmem => hplaced (hkept.subset hmem)) hbytes]
        exact h.recovers_of_rewritten hpayload hbytes
    rcases heffects with ⟨hsucceeds, heffects⟩ | ⟨_, heffects⟩
    · rw [heffects] at hfile
      by_cases hlate : writes.length < taken
      · have hreturned := h.recovers_of_append hpayload outIndex hsucceeds
        have hwhole : (writes.map Effect.alter ++ [Effect.sync]).length ≤ taken := by
          rw [List.length_append, List.length_map, List.length_singleton]
          exact hlate
        rw [List.take_of_length_le hwhole, ← heffects] at hfile
        exact Or.inr ⟨_, rfl, hreturned file hfile⟩
      · have hpart : taken ≤ (writes.map Effect.alter).length := by
          rw [List.length_map]
          exact Nat.not_lt.mp hlate
        rw [List.take_append_of_le_length hpart, ← List.map_take] at hfile
        exact hearly taken hfile
    · rw [heffects, ← List.map_take] at hfile
      exact hearly taken hfile

/-- A crash during any call, or between two calls, is harmless if and only if the
condition holds. -/
theorem crash_iff (h : Holds d ledger) {inFlight : Option (LogCall × Schedule)}
    (hfits : ∀ call ∈ inFlight, call.1.Fits) :
    (∀ taken, ∀ file ∈ d.crashes inFlight taken,
      RecoversAcknowledged file ledger.acknowledged inFlight) ↔ CrashSafe d ledger inFlight := by
  cases inFlight with
  | none =>
    exact h.crash_iff_of_removed List.prefix_rfl (fun call hcall => by cases hcall) (Or.inl rfl)
  | some inFlight =>
    rcases inFlight with ⟨call, io⟩
    have hunchanged (happlied : call.applied ledger.acknowledged = ledger.acknowledged) :
        ∀ other ∈ some (call, io), other.1.applied ledger.acknowledged = ledger.acknowledged := by
      intro other hother
      cases hother
      exact happlied
    cases call with
    | append term payload outIndex =>
      exact h.crash_iff_of_append (hfits _ rfl) outIndex io
    | truncateFrom index =>
      refine h.crash_iff_of_removed (List.take_prefix (index.toNat - 1) _) ?_ ?_
      · intro other hother
        cases hother
        rfl
      · have hflight : (some (LogCall.truncateFrom index, io)).toList.flatMap d.state.effects =
            d.state.truncateEffects index io := List.append_nil _
        rw [hflight]
        rcases h.represents.effects_truncateFrom index io with hnone | hcut
        · exact Or.inl hnone
        · exact Or.inr ⟨Option.some_ne_none _, hcut⟩
    | entryAt index out =>
      exact h.crash_iff_of_removed List.prefix_rfl (hunchanged rfl) (Or.inl rfl)
    | range fromIndex toIndex =>
      exact h.crash_iff_of_removed List.prefix_rfl (hunchanged rfl) (Or.inl rfl)
    | lastIndex => exact h.crash_iff_of_removed List.prefix_rfl (hunchanged rfl) (Or.inl rfl)
    | lastTerm => exact h.crash_iff_of_removed List.prefix_rfl (hunchanged rfl) (Or.inl rfl)

/-- With nothing pending, an append whose frame goes out in one write is safe. -/
theorem crashSafe_of_whole_write (h : Holds d ledger) (hpending : d.disk.pending = [])
    {term : Term} {payload : List UInt8} (hpayload : 24 + payload.length < 2 ^ 32)
    (outIndex : LogIndex) : CrashSafe d ledger (some (.append term payload outIndex, [])) := by
  have hsettled := Medium.content_of_pending_nil File.change hpending
  have hbytes := h.content_bytes
  have hfits : EntryFits (ledger.acknowledged.length + 1) (term, payload) :=
    h.represents.fits_next hpayload
  have hchanges : changes (d.state.effects (.append term payload outIndex, [])) =
      d.state.file.writes (frame (ledger.acknowledged.length + 1) (term, payload))
        (logBytes ledger.acknowledged).length [] := by
    change changes (d.state.appendEffects term payload []) = _
    rcases h.represents.effects_append term hpayload [] with ⟨_, heffects⟩ | ⟨_, heffects⟩
    · rw [heffects, changes_concat_sync, changes_map_alter]
    · rw [heffects, changes_map_alter]
  refine ⟨Or.inl ?_, fun start hstart kept hkept => ?_⟩
  · rw [← h.synced_eq, ← hsettled, hbytes]
    exact logFraming.scan_encodeAll_self h.represents.allFit
  · have hstart : start.bytes = logBytes ledger.acknowledged := by
      rw [hsettled] at hstart hbytes
      simp only [List.mem_cons, List.not_mem_nil, or_false, or_self] at hstart
      rw [hstart, hbytes]
    have hempty : logFraming.NoOther (ledger.acknowledged.length + 1) (term, payload)
        (start.bytes.drop (logBytes ledger.acknowledged).length) := by
      rw [hstart, List.drop_length, ← Framing.scan_nil_or_singleton_iff]
      exact Or.inl (logFraming.scan_of_none (logFraming.decode_nil _))
    have hkept' : kept = [] ∨ kept = [.write start.bytes.length
        (frame (ledger.acknowledged.length + 1) (term, payload))] := by
      rw [hchanges] at hkept
      rw [hstart]
      rcases d.state.file.writes_nil (frame (ledger.acknowledged.length + 1) (term, payload))
        (logBytes ledger.acknowledged).length with hnone | hone
      · rw [hnone] at hkept
        exact Or.inl (List.sublist_nil.mp hkept)
      · rw [hone] at hkept
        exact List.sublist_singleton.mp hkept
    rcases hkept' with rfl | rfl
    · exact hempty
    · rw [List.foldl_cons, List.foldl_nil]
      rcases start.change_write_end (frame (ledger.acknowledged.length + 1) (term, payload)) with
        hsame | hextended
      · rw [hsame]
        exact hempty
      · rw [hextended, hstart, List.drop_left, ← Framing.scan_nil_or_singleton_iff]
        exact Or.inr (logFraming.scan_encode hfits)

/-- Once an append has returned, a crash before or during the next call is harmless if that
call writes its frame, if any, in one write. -/
theorem crash_after_append (h : Holds d ledger) {term : Term} {payload : List UInt8}
    (hpayload : 24 + payload.length < 2 ^ 32) {outIndex : LogIndex} {io : Schedule}
    (hsucceeds : appendSucceeds ledger.acknowledged (term, payload) io = true) {next : LogCall}
    (hfits : next.Fits) :
    ∃ d', d.call (.append term payload outIndex, io) =
        .ok (.appended .OK (UInt64.ofNat (ledger.acknowledged.length + 1)), d') ∧
      ∀ taken, ∀ crashed ∈ d'.crashes (some (next, [])) taken,
        RecoversAcknowledged crashed (ledger.acknowledged ++ [(term, payload)])
          (some (next, [])) := by
  obtain ⟨d', hcall, hdisk, hafter⟩ := h.call_append hpayload outIndex hsucceeds
  have hfits' : ∀ call ∈ some (next, ([] : Schedule)), call.1.Fits := by
    intro call hmem
    cases hmem
    exact hfits
  refine ⟨d', hcall, (hafter.crash_iff hfits').mpr ?_⟩
  cases next with
  | append term' payload' outIndex' =>
    refine hafter.crashSafe_of_whole_write ?_ hfits outIndex'
    rw [hdisk]
    exact h.pending_append hpayload hsucceeds
  | _ => rfl

end Holds

end MiniDB.Storage
