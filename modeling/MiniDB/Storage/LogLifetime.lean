import MiniDB.Storage.CrashDurability
import MiniDB.Storage.ShortReads

/-!
# The life of a log

A log file outlives the programs that use it. Calls, reopenings and crashes follow each
other in any order; system calls may fail, and each crash keeps some of the changes that no
`fsync` has forced out, also in the middle of a call. An entry whose append returned `OK`
stays at its index as long as no truncation reaches it.
-/

namespace MiniDB.Storage

open MiniDB.Common ByteSequence Memory Posix Durability Refinement

/-- What a program does with its log. -/
inductive LogAction
  | call (request : LogCall) (io : Schedule)
  | openLog (io : Schedule)

/-- What happens to a log: an action returns, or a crash comes behind `taken` system calls of
an action and leaves a file, which is then in the hands of a new log object. -/
inductive LogEvent
  | act (action : LogAction)
  | crash (inFlight : Option LogAction) (taken : ℕ) (left : File)

/-- What is seen of an event. -/
inductive LogOutcome
  | responded (response : LogResponse)
  | opened (status : Status)
  | crashed

/-- The system calls of an action that change the file. -/
def LogAction.effects (s : LogState) : LogAction → List (Effect Change)
  | .call request io => s.effects (request, io)
  | .openLog io => s.openEffects io

/-- The files a crash can leave behind `taken` system calls of the action in flight. -/
def DiskLog.leaves (d : DiskLog) (inFlight : Option LogAction) (taken : ℕ) : List File :=
  (d.disk.performAll File.change
    ((inFlight.toList.flatMap (LogAction.effects d.state)).take taken)).survivors File.change

/-- One event. -/
def LogEvent.step (d : DiskLog) : LogEvent → Except Fault (LogOutcome × DiskLog)
  | .act (.call request io) => do
    let (response, d) ← d.call (request, io)
    return (.responded response, d)
  | .act (.openLog io) => do
    let (status, d) ← d.openLog io
    return (.opened status, d)
  | .crash _ _ left => .ok (.crashed, DiskLog.closed left)

/-- Payloads fit their frames, and no `open` that succeeds has taken a short read for the end
of the log. -/
def LogAction.Possible (d : DiskLog) : LogAction → Prop
  | .call request _ => request.Fits
  | .openLog io => ∀ s, d.state.openLog io = .ok (.OK, s) →
      readsFrames (logFraming.scan 1 d.state.file.bytes) (io.drop 2) = true

/-- Crashes leave what the disk can keep. -/
def LogEvent.Possible (d : DiskLog) : LogEvent → Prop
  | .act action => action.Possible d
  | .crash inFlight taken left =>
    (∀ action ∈ inFlight, action.Possible d) ∧ left ∈ d.leaves inFlight taken

/-- An action that removes none of the first `count` entries. -/
def LogAction.Spares (count : ℕ) : LogAction → Prop
  | .call (.truncateFrom index) _ => count ≤ index.toNat - 1
  | _ => True

/-- An event that removes none of the first `count` entries. -/
def LogEvent.Spares (count : ℕ) : LogEvent → Prop
  | .act action => action.Spares count
  | .crash inFlight _ _ => ∀ action ∈ inFlight, action.Spares count

/-- There is an offset for every index. -/
def WriteAheadLog.Indexed (log : WriteAheadLog) : Prop :=
  log.offsetIndex.length = log.lastIndex.toNat

/-- What holds of a log between events: its first entries are these, on the disk whatever a
crash keeps, and in the open log. -/
structure Keeps (kept : List Entry) (d : DiskLog) : Prop where
  /-- The entries fit their frames. -/
  allFit : logFraming.AllFit 1 kept
  /-- A crash leaves their frames. -/
  begins : ∀ file ∈ d.disk.survivors File.change, logBytes kept <+: file.bytes
  /-- An open log begins with them. -/
  shown : d.log.isOpen = true → ∃ entries, kept <+: entries ∧ Represents d.state entries
  /-- A closed log has an offset for every index. -/
  indexed : d.log.isOpen = false → d.log.Indexed

/-- The log object of listed entries has an offset for every index. -/
theorem indexed_logOf {entries : List Entry} (hlength : entries.length < 2 ^ 64) :
    (logOf entries).Indexed := by
  unfold WriteAheadLog.Indexed logOf
  dsimp only
  rw [List.length_map, List.length_range, UInt64.toNat_ofNat', Nat.mod_eq_of_lt hlength]

namespace LogState

/-- An `open` that fails leaves the file alone and the log closed. -/
theorem openLog_fails {s s' : LogState} {io : Schedule} {status : Status}
    (h : s.openLog io = .ok (status, s')) (hfailed : status ≠ .OK) (hindexed : s.log.Indexed) :
    s.openEffects io = [] ∧ s'.file = s.file ∧ s'.log.isOpen = false ∧ s'.log.Indexed := by
  unfold openLog at h
  unfold openEffects
  rcases hopened : io.next with ⟨opened, io₁⟩
  simp only [hopened] at h ⊢
  by_cases hunopened : (!opened.succeeds) = true
  · rw [if_pos hunopened] at h ⊢
    cases h
    exact ⟨rfl, rfl, rfl, hindexed⟩
  rw [if_neg hunopened] at h ⊢
  rcases hsized : io₁.next with ⟨sized, io₂⟩
  simp only [hsized] at h ⊢
  by_cases hunsized : (!sized.succeeds) = true
  · rw [if_pos hunsized] at h ⊢
    cases h
    exact ⟨rfl, rfl, rfl, rfl⟩
  rw [if_neg hunsized] at h ⊢
  obtain ⟨ok, accepted, io₃, hscan, _, _, hpre, _⟩ :=
    @scanLoop_spec s.file [] s.file.bytes rfl io₂
  have hscanned : (scanned accepted).Indexed := by
    have hlength := hpre.length_le
    have hcount := (logFraming.scan_sound 1 s.file.bytes).2.length_le
    have hframes := logFraming.length_le_encodeAll_length 1 (logFraming.scan 1 s.file.bytes)
    have hsize := s.file.size_lt
    simp only [offsetLimit] at hsize
    have hbound : accepted.length < 2 ^ 64 := by
      simp only [List.length_nil, Nat.zero_add] at hlength
      omega
    exact @indexed_logOf accepted hbound
  change scanLoop s.file s.file.bytes.length 0 ⟨true, [], INVALID_LOG_INDEX, INVALID_TERM, 0⟩ io₂ =
    _ at hscan
  rw [hscan] at h ⊢
  cases ok with
  | false =>
    cases h
    exact ⟨rfl, rfl, rfl, hscanned⟩
  | true =>
    dsimp only at h ⊢
    split at h
    · rename_i hbehind
      rw [if_pos hbehind]
      rcases s.file.ftruncate_cases (logBytes ([] ++ accepted)).length io₃ with
        ⟨hcut, heffects⟩ | ⟨hcut, heffects⟩
      · rw [hcut] at h
        cases h
        exact ⟨heffects, rfl, rfl, hscanned⟩
      · rw [hcut] at h
        cases h
        exact absurd rfl hfailed
    · cases h
      exact absurd rfl hfailed

section Closed

variable {s : LogState}

/-- Where there is an offset for every index, the one of an index inside is found. -/
theorem elementAt_of_indexed (hindexed : s.log.Indexed) {index : LogIndex}
    (hinside : ¬(index = INVALID_LOG_INDEX ∨ s.log.lastIndex < index)) :
    ∃ offset, elementAt s.log.offsetIndex (index.toNat - 1) = .ok offset := by
  rw [not_or, UInt64.not_lt, UInt64.le_iff_toNat_le] at hinside
  have hpos : index.toNat ≠ 0 := fun hzero => hinside.1 (UInt64.toNat_inj.mp hzero)
  unfold WriteAheadLog.Indexed at hindexed
  exact ⟨_, elementAt_of_lt (by omega)⟩

/-- Nothing is read through a closed log. -/
theorem readFrameAt_of_closed (hclosed : s.log.isOpen = false) (offset : ℕ) (out : LogEntry)
    (io : Schedule) : s.readFrameAt offset out io = .ok (.IO_ERROR, out, io) := by
  unfold readFrameAt
  rw [hclosed]
  rfl

/-- `entryAt` on a closed log stays inside the offsets. -/
theorem entryAt_of_closed (hclosed : s.log.isOpen = false) (hindexed : s.log.Indexed)
    (index : LogIndex) (out : LogEntry) (io : Schedule) :
    ∃ status, s.entryAt index out io = .ok (status, out) := by
  unfold entryAt
  by_cases houtside : index = INVALID_LOG_INDEX ∨ s.log.lastIndex < index
  · rw [if_pos houtside]
    exact ⟨_, rfl⟩
  · obtain ⟨offset, hoffset⟩ := elementAt_of_indexed hindexed houtside
    rw [if_neg houtside, hoffset]
    refine ⟨.IO_ERROR, ?_⟩
    change (s.readFrameAt offset out io >>= _) = _
    rw [readFrameAt_of_closed hclosed]
    rfl

/-- `range` on a closed log stays inside the offsets. -/
theorem range_of_closed (hclosed : s.log.isOpen = false) (hindexed : s.log.Indexed)
    (fromIndex toIndex : LogIndex) (io : Schedule) :
    ∃ status out, s.range fromIndex toIndex io = .ok (status, out) := by
  unfold range
  by_cases houtside : fromIndex = INVALID_LOG_INDEX ∨ toIndex < fromIndex ∨
      s.log.lastIndex < toIndex
  · rw [if_pos houtside]
    exact ⟨_, _, rfl⟩
  · rw [if_neg houtside]
    rw [not_or, not_or, UInt64.not_lt, UInt64.not_lt] at houtside
    obtain ⟨hfirst, horder, hlast⟩ := houtside
    obtain ⟨offset, hoffset⟩ := @elementAt_of_indexed _ hindexed fromIndex (by
      rw [not_or, UInt64.not_lt]
      exact ⟨hfirst, UInt64.le_trans horder hlast⟩)
    have hcount : toIndex.toNat + 1 - fromIndex.toNat =
        (toIndex.toNat - fromIndex.toNat) + 1 := by
      have hle := UInt64.le_iff_toNat_le.mp horder
      omega
    rw [hcount, List.range'_succ, rangeLoop, hoffset]
    refine ⟨.IO_ERROR, [], ?_⟩
    change (s.readFrameAt offset _ io >>= _) = _
    rw [readFrameAt_of_closed hclosed]
    rfl

/-- Calls on a closed log change nothing. -/
theorem call_of_closed (hclosed : s.log.isOpen = false) (hindexed : s.log.Indexed)
    (call : LogCall × Schedule) :
    (∃ response, s.call call = .ok (response, s) ∧ ∀ index, response ≠ .appended .OK index) ∧
      s.effects call = [] := by
  obtain ⟨call, io⟩ := call
  cases call with
  | append term payload outIndex =>
    have hcall : s.append term payload outIndex io = .ok (.IO_ERROR, outIndex, s) := by
      unfold append
      rw [hclosed]
      rfl
    refine ⟨⟨_, call_append hcall, by rintro index ⟨⟩⟩, ?_⟩
    change s.appendEffects term payload io = []
    unfold appendEffects
    rw [hclosed]
    rfl
  | truncateFrom index =>
    have hcall : s.truncateFrom index io = .ok (.IO_ERROR, s) := by
      unfold truncateFrom
      rw [hclosed]
      rfl
    refine ⟨⟨_, call_truncateFrom hcall, by rintro index ⟨⟩⟩, ?_⟩
    change s.truncateEffects index io = []
    unfold truncateEffects
    rw [hclosed]
    rfl
  | entryAt index out =>
    obtain ⟨status, hcall⟩ := entryAt_of_closed hclosed hindexed index out io
    exact ⟨⟨_, call_entryAt hcall, by rintro index ⟨⟩⟩, rfl⟩
  | range fromIndex toIndex =>
    obtain ⟨status, out, hcall⟩ := range_of_closed hclosed hindexed fromIndex toIndex io
    exact ⟨⟨_, call_range hcall, by rintro index ⟨⟩⟩, rfl⟩
  | lastIndex => exact ⟨⟨_, rfl, by rintro index ⟨⟩⟩, rfl⟩
  | lastTerm => exact ⟨⟨_, rfl, by rintro index ⟨⟩⟩, rfl⟩

end Closed

end LogState

/-- A call that spares the first entries leaves them first. -/
theorem prefix_of_answers {kept entries entries' : List Entry} {call : LogCall} {io : Schedule}
    {response : LogResponse} (h : ListAnswers entries (call, io) response entries')
    (hspares : (LogAction.call call io).Spares kept.length) (hkept : kept <+: entries) :
    kept <+: entries' := by
  cases call with
  | append term payload outIndex =>
    rcases h with ⟨_, _, _, rfl⟩ | ⟨_, _, rfl⟩
    · exact hkept.trans (List.prefix_append _ _)
    · exact hkept
  | truncateFrom index =>
    rcases h with ⟨_, rfl⟩ | ⟨_, _, rfl⟩
    · exact List.prefix_take_iff.mpr ⟨hkept, hspares⟩
    · exact hkept
  | entryAt index out =>
    rw [h.1]
    exact hkept
  | range fromIndex toIndex =>
    rw [h.1]
    exact hkept
  | lastIndex =>
    rw [h.1]
    exact hkept
  | lastTerm =>
    rw [h.1]
    exact hkept

namespace Keeps

variable {kept : List Entry} {d : DiskLog}

/-- A new log object over a file that begins with the frames of the entries. -/
theorem of_file {file : File} (hfit : logFraming.AllFit 1 kept)
    (h : logBytes kept <+: file.bytes) : Keeps kept (DiskLog.closed file) where
  allFit := hfit
  begins survivor hsurvivor := by
    rw [(Medium.mem_survivors_of_pending_nil File.change rfl).mp hsurvivor]
    exact h
  shown hopen := by cases hopen
  indexed _ := rfl

/-- Programs see the frames of the entries. -/
theorem content (h : Keeps kept d) : logBytes kept <+: d.state.file.bytes :=
  h.begins _ (d.disk.content_mem_survivors File.change)

/-- The log object has an offset for every index, be it open or closed. -/
theorem log_indexed (h : Keeps kept d) : d.log.Indexed := by
  cases hopen : d.log.isOpen with
  | true =>
    obtain ⟨entries, _, hrep⟩ := h.shown hopen
    have hlog : d.log = logOf entries := hrep.log_eq
    have hlength := hrep.length_lt
    rw [hlog]
    exact indexed_logOf (by omega)
  | false => exact h.indexed hopen

/-- What `open` scans begins with the entries. -/
theorem prefix_scan (h : Keeps kept d) : kept <+: logFraming.scan 1 d.state.file.bytes := by
  obtain ⟨rest, hrest⟩ := h.content
  rw [← hrest, logBytes, logFraming.scan_encodeAll h.allFit]
  exact List.prefix_append _ _

/-- An `open` shows the entries or fails and changes nothing but the log object. -/
theorem openLog (h : Keeps kept d) {io : Schedule} (hpossible : (LogAction.openLog io).Possible d) :
    (∃ s entries, d.state.openLog io = .ok (.OK, s) ∧ Represents s entries ∧ kept <+: entries) ∨
    ∃ s, d.state.openLog io = .ok (.IO_ERROR, s) ∧ d.state.openEffects io = [] ∧
      s.file = d.state.file ∧ s.log.isOpen = false ∧ s.log.Indexed := by
  rcases d.state.openLog_spec io with
    ⟨s, entries, hopen, hrep, _, _, hiff⟩ | ⟨_, s, hopen⟩
  · refine Or.inl ⟨s, entries, hopen, hrep, ?_⟩
    rw [hiff.mpr (hpossible s hopen)]
    exact h.prefix_scan
  · have hfails := LogState.openLog_fails hopen (by decide) h.log_indexed
    exact Or.inr ⟨s, hopen, hfails⟩

/-- What an action changes in the file lies behind the entries that it spares. -/
theorem behind (h : Keeps kept d) {action : LogAction} (hpossible : action.Possible d)
    (hspares : action.Spares kept.length) :
    ∀ change ∈ changes (action.effects d.state), change.Behind (logBytes kept).length := by
  have hlonger : ∀ {entries : List Entry}, kept <+: entries →
      (logBytes kept).length ≤ (logBytes entries).length :=
    fun hpre => (logFraming.encodeAll_prefix 1 hpre).length_le
  cases action with
  | call call io =>
    cases hopen : d.log.isOpen with
    | false =>
      have heffects := (@LogState.call_of_closed d.state hopen h.log_indexed (call, io)).2
      intro change hchange
      rw [LogAction.effects, heffects] at hchange
      cases hchange
    | true =>
      obtain ⟨entries, hpre, hrep⟩ := h.shown hopen
      cases call with
      | append term payload outIndex =>
        have hchanges : changes (d.state.appendEffects term payload io) =
            d.state.file.writes (frame (entries.length + 1) (term, payload))
              (logBytes entries).length io := by
          rcases hrep.effects_append term hpossible io with ⟨_, heffects⟩ | ⟨_, heffects⟩
          · rw [heffects, changes_concat_sync, changes_map_alter]
          · rw [heffects, changes_map_alter]
        intro change hchange
        change change ∈ changes (d.state.appendEffects term payload io) at hchange
        rw [hchanges] at hchange
        exact (File.mem_writes hchange).behind (hlonger hpre)
      | truncateFrom index =>
        have hremaining : kept <+: entries.take (index.toNat - 1) :=
          List.prefix_take_iff.mpr ⟨hpre, hspares⟩
        intro change hchange
        change change ∈ changes (d.state.truncateEffects index io) at hchange
        rcases hrep.effects_truncateFrom index io with heffects | heffects
        · rw [heffects] at hchange
          cases hchange
        · rw [heffects] at hchange
          cases List.mem_singleton.mp hchange
          exact hlonger hremaining
      | _ =>
        intro change hchange
        cases hchange
  | openLog io =>
    intro change hchange
    change change ∈ changes (d.state.openEffects io) at hchange
    rcases h.openLog hpossible with ⟨s, entries, hopen, hrep, hpre⟩ | ⟨_, _, heffects, _⟩
    · rcases LogState.openEffects_cases hopen with ⟨heffects, _⟩ | ⟨heffects, _⟩
      · rw [heffects] at hchange
        cases hchange
      · rw [heffects, hrep.writeOffset] at hchange
        cases List.mem_singleton.mp hchange
        exact hlonger hpre
    · rw [heffects] at hchange
      cases hchange

/-- Whatever part of an action's system calls has taken effect, a crash leaves the frames of
the entries that the action spares. -/
theorem begins_of_effects (h : Keeps kept d) {effects : List (Effect Change)}
    (hbehind : ∀ change ∈ changes effects, change.Behind (logBytes kept).length) :
    ∀ file ∈ (d.disk.performAll File.change effects).survivors File.change,
      logBytes kept <+: file.bytes :=
  Medium.survivors_performAll File.change
    (fun _ hchange _ hpre => File.prefix_change (hbehind _ hchange) hpre) h.begins

/-- A call keeps the entries that it spares. -/
theorem call (h : Keeps kept d) {call : LogCall} {io : Schedule} (hfits : call.Fits)
    (hspares : (LogAction.call call io).Spares kept.length) :
    ∃ response d', d.call (call, io) = .ok (response, d') ∧ Keeps kept d' := by
  have hpossible : (LogAction.call call io).Possible d := hfits
  have hbegins := h.begins_of_effects (h.behind hpossible hspares)
  cases hopen : d.log.isOpen with
  | false =>
    obtain ⟨⟨response, hcall, _⟩, heffects⟩ :=
      @LogState.call_of_closed d.state hopen h.log_indexed (call, io)
    obtain ⟨d', hcall', hstate, hdisk⟩ := DiskLog.call_of_state hcall
    have hlog : d'.log = d.log := congrArg LogState.log hstate
    refine ⟨response, d', hcall', h.allFit, hdisk ▸ hbegins, fun hopen' => ?_, fun _ => ?_⟩
    · rw [hlog, hopen] at hopen'
      cases hopen'
    · rw [hlog]
      exact h.log_indexed
  | true =>
    obtain ⟨entries, hpre, hrep⟩ := h.shown hopen
    have hrelated : logSimulation.Related d.state ⟨entries, residue d.state⟩ := ⟨hrep, rfl⟩
    obtain ⟨response, s', ledger, hcall, ⟨hanswers, _⟩, hrep', _⟩ :=
      @Simulation.step_follows _ _ _ _ _ _ _ _ logSimulation _ _ (call, io) hrelated hfits
    obtain ⟨d', hcall', rfl, hdisk⟩ := DiskLog.call_of_state hcall
    have hopen' : d'.log.isOpen = true := hrep'.isOpen
    refine ⟨response, d', hcall', h.allFit, hdisk ▸ hbegins, fun _ => ⟨ledger.entries, ?_, hrep'⟩,
      fun hclosed => ?_⟩
    · exact prefix_of_answers hanswers hspares hpre
    · rw [hopen'] at hclosed
      cases hclosed

/-- An append that returns `OK` has forced its entry out, behind those of the log. -/
theorem acknowledged (h : Keeps kept d) {term : Term} {payload : List UInt8} {outIndex : LogIndex}
    {io : Schedule} (hpayload : 24 + payload.length < 2 ^ 32) {index : LogIndex} {d' : DiskLog}
    (hcall : d.call (.append term payload outIndex, io) = .ok (.appended .OK index, d')) :
    ∃ entries, index.toNat = entries.length + 1 ∧ Keeps (entries ++ [(term, payload)]) d' := by
  cases hopen : d.log.isOpen with
  | false =>
    obtain ⟨⟨response, hstate, hnot⟩, _⟩ := @LogState.call_of_closed d.state hopen h.log_indexed
      (.append term payload outIndex, io)
    obtain ⟨d₁, hcall₁, _⟩ := DiskLog.call_of_state hstate
    rw [hcall] at hcall₁
    cases hcall₁
    exact absurd rfl (hnot index)
  | true =>
    obtain ⟨entries, _, hrep⟩ := h.shown hopen
    rcases hrep.append term hpayload outIndex io with
      ⟨hsucceeds, s', happend, hrep', _⟩ | ⟨_, s', happend, _⟩
    · obtain ⟨d₁, hcall₁, rfl, hdisk⟩ := DiskLog.call_of_state (LogState.call_append happend)
      rw [hcall] at hcall₁
      cases hcall₁
      have hpending : d'.disk.pending = [] := by
        rw [hdisk]
        rcases hrep.effects_append term hpayload io with ⟨_, heffects⟩ | ⟨hfailed, _⟩
        · have hforced := d.disk.performAll_sync File.change
            ((d.state.file.writes (frame (entries.length + 1) (term, payload))
              (logBytes entries).length io).map .alter)
          rw [← heffects] at hforced
          exact congrArg Medium.pending hforced
        · rw [hsucceeds] at hfailed
          cases hfailed
      refine ⟨entries, ?_, hrep'.allFit, fun file hfile => ?_,
        fun _ => ⟨_, List.prefix_rfl, hrep'⟩, fun hclosed => ?_⟩
      · have hlength := hrep.length_lt
        rw [UInt64.toNat_ofNat', Nat.mod_eq_of_lt (by omega)]
      · rw [(Medium.mem_survivors_of_pending_nil File.change hpending).mp hfile,
          ← Medium.content_of_pending_nil File.change hpending]
        exact hrep'.content
      · have hopen' : d'.log.isOpen = true := hrep'.isOpen
        rw [hopen'] at hclosed
        cases hclosed
    · obtain ⟨d₁, hcall₁, _⟩ := DiskLog.call_of_state (LogState.call_append happend)
      rw [hcall] at hcall₁
      cases hcall₁

/-- A possible event keeps the entries that it spares. -/
theorem step (h : Keeps kept d) {event : LogEvent} (hpossible : event.Possible d)
    (hspares : event.Spares kept.length) :
    ∃ outcome d', event.step d = .ok (outcome, d') ∧ Keeps kept d' := by
  cases event with
  | act action =>
    cases action with
    | call call io =>
      obtain ⟨response, d', hcall, h'⟩ := h.call hpossible hspares
      exact ⟨_, d', except_bind_eq_ok.mpr ⟨_, hcall, rfl⟩, h'⟩
    | openLog io =>
      have hopening : (LogAction.openLog io).Possible d := hpossible
      have hbegins := h.begins_of_effects (h.behind hopening hspares)
      rcases h.openLog hpossible with
        ⟨s, entries, hopen, hrep, hpre⟩ | ⟨s, hopen, _, _, hclosed, hindexed⟩
      · obtain ⟨d', hopen', rfl, hdisk⟩ := d.openLog_of_state hopen
        refine ⟨_, d', except_bind_eq_ok.mpr ⟨_, hopen', rfl⟩, h.allFit, hdisk ▸ hbegins,
          fun _ => ⟨entries, hpre, hrep⟩, fun hclosed => ?_⟩
        have hopened : d'.log.isOpen = true := hrep.isOpen
        rw [hopened] at hclosed
        cases hclosed
      · refine ⟨_, _, except_bind_eq_ok.mpr ⟨_, except_bind_eq_ok.mpr ⟨_, hopen, rfl⟩, rfl⟩,
          h.allFit, hbegins, fun hopen' => ?_, fun _ => hindexed⟩
        rw [hclosed] at hopen'
        cases hopen'
  | crash inFlight taken left =>
    refine ⟨_, _, rfl, of_file h.allFit (h.begins_of_effects (fun change hchange => ?_) left
      hpossible.2)⟩
    cases inFlight with
    | none =>
      change change ∈ changes (List.take taken []) at hchange
      rw [List.take_nil] at hchange
      cases hchange
    | some action =>
      refine h.behind (hpossible.1 action rfl) (hspares action rfl) change ?_
      have hflight : (some action).toList.flatMap (LogAction.effects d.state) =
          action.effects d.state := List.append_nil _
      rw [hflight] at hchange
      exact (List.Sublist.filterMap _ (List.take_sublist _ _)).subset hchange

/-- A possible run of events that spare the entries keeps them. -/
theorem run (h : Keeps kept d) {events : List LogEvent}
    (hpossible : Along LogEvent.step LogEvent.Possible d events)
    (hspares : ∀ event ∈ events, event.Spares kept.length) :
    ∃ outcomes d', Refinement.run LogEvent.step d events = .ok (outcomes, d') ∧ Keeps kept d' := by
  induction events generalizing d with
  | nil => exact ⟨[], d, rfl, h⟩
  | cons event events ih =>
    rw [List.forall_mem_cons] at hspares
    obtain ⟨outcome, d₁, hfirst, h₁⟩ := h.step hpossible.1 hspares.1
    obtain ⟨outcomes, d', hrest, h'⟩ := ih h₁ (hpossible.2 _ _ hfirst) hspares.2
    refine ⟨outcome :: outcomes, d', ?_, h'⟩
    rw [run_cons hfirst, hrest]

/-- An entry among the kept ones is read from the open log. -/
theorem entryAt (h : Keeps kept d) (hopen : d.log.isOpen = true) {index : LogIndex} {term : Term}
    {payload : List UInt8} (hentry : kept[index.toNat - 1]? = some (term, payload))
    (hpos : 0 < index.toNat) (out : LogEntry) :
    d.state.entryAt index out [] = .ok (.OK, ⟨index, term, payload⟩) := by
  obtain ⟨entries, hpre, hrep⟩ := h.shown hopen
  obtain ⟨hcount, hkept⟩ := List.getElem?_eq_some_iff.mp hentry
  have hlonger := hpre.length_le
  have hsame : entries[index.toNat - 1] = (term, payload) := by
    rw [← hkept]
    exact (hpre.getElem hcount).symm
  rw [hrep.exposes.entryAt index out hpos (by omega), hsame]

/-- With complete reads the log can be opened, and shows the entries. -/
theorem openLog_nil (h : Keeps kept d) : ∃ d', d.openLog [] = .ok (.OK, d') ∧ Keeps kept d' ∧
    d'.log.isOpen = true := by
  have hpossible : (LogEvent.act (.openLog [])).Possible d := fun _ _ => readsFrames_nil _
  obtain ⟨s, hopen, hrep, _⟩ := d.state.openLog_nil
  obtain ⟨d₁, hopen₁, rfl, _⟩ := d.openLog_of_state hopen
  obtain ⟨outcome, d', hstep, h'⟩ := h.step hpossible trivial
  obtain ⟨_, hopen', hreport⟩ := except_bind_eq_ok.mp hstep
  rw [hopen₁] at hopen'
  cases hopen'
  cases hreport
  exact ⟨d₁, hopen₁, h', hrep.isOpen⟩

end Keeps

/-- A log file goes through calls with any failures of their system calls, reopenings, and
crashes, also in the middle of a call, in any order. None of this faults; and an entry whose
append has returned `OK` is found at its index whenever the log is open later, and when it is
opened again, until a truncation at or before the index. -/
theorem acknowledged_entry_stays (file : File) {before after : List LogEvent} {term : Term}
    {payload : List UInt8} {outIndex : LogIndex} {io : Schedule}
    (hpossible : Along LogEvent.step LogEvent.Possible (DiskLog.closed file)
      (before ++ .act (.call (.append term payload outIndex) io) :: after)) :
    ∃ outcomes d response d₁,
      run LogEvent.step (DiskLog.closed file) before = .ok (outcomes, d) ∧
      d.call (.append term payload outIndex, io) = .ok (response, d₁) ∧
      (∃ outcomes' d', run LogEvent.step d₁ after = .ok (outcomes', d')) ∧
      ∀ index, response = .appended .OK index → (∀ event ∈ after, event.Spares index.toNat) →
        ∀ outcomes' d', run LogEvent.step d₁ after = .ok (outcomes', d') →
          (d'.log.isOpen = true → ∀ out,
            d'.state.entryAt index out [] = .ok (.OK, ⟨index, term, payload⟩)) ∧
          ∃ d'', d'.openLog [] = .ok (.OK, d'') ∧ ∀ out,
            d''.state.entryAt index out [] = .ok (.OK, ⟨index, term, payload⟩) := by
  have hspared : ∀ event : LogEvent, event.Spares 0 := by
    have haction : ∀ action : LogAction, action.Spares 0 := by
      intro action
      unfold LogAction.Spares
      split
      · exact Nat.zero_le _
      · trivial
    intro event
    cases event with
    | act action => exact haction action
    | crash inFlight taken left => exact fun action _ => haction action
  have hstart : Keeps [] (DiskLog.closed file) := Keeps.of_file trivial List.nil_prefix
  obtain ⟨hbefore, hlater⟩ := hpossible.of_append
  obtain ⟨outcomes, d, hrun, h⟩ := hstart.run hbefore fun event _ => hspared event
  obtain ⟨happend, hafter⟩ := hlater outcomes d hrun
  obtain ⟨response, d₁, hcall, h₁⟩ :=
    @Keeps.call _ _ h (.append term payload outIndex) io happend trivial
  have hrest := hafter _ d₁ (except_bind_eq_ok.mpr ⟨_, hcall, rfl⟩)
  obtain ⟨outcomes', d', hrun', _⟩ := h₁.run hrest fun event _ => hspared event
  refine ⟨outcomes, d, response, d₁, hrun, hcall, ⟨outcomes', d', hrun'⟩, ?_⟩
  rintro index rfl hspares outcomes'' d'' hrun''
  obtain ⟨entries, hindex, hacknowledged⟩ := h.acknowledged happend hcall
  have hlength : (entries ++ [(term, payload)]).length = index.toNat := by
    rw [hindex, List.length_append, List.length_singleton]
  obtain ⟨_, _, hagain, hkept⟩ := hacknowledged.run hrest (hlength ▸ hspares)
  rw [hrun''] at hagain
  cases hagain
  have hentry : (entries ++ [(term, payload)])[index.toNat - 1]? = some (term, payload) := by
    rw [hindex, Nat.add_sub_cancel, List.getElem?_concat_length]
  refine ⟨fun hopen out => hkept.entryAt hopen hentry (by omega) out, ?_⟩
  obtain ⟨d₂, hreopen, hkept₂, hopen₂⟩ := hkept.openLog_nil
  exact ⟨d₂, hreopen, fun out => hkept₂.entryAt hopen₂ hentry (by omega) out⟩

/-- On an empty file one entry is appended; a crash follows. -/
theorem acknowledged_entry_stays_crash :
    ∃ outcomes d d', run LogEvent.step (DiskLog.closed File.empty)
        [.act (.openLog []), .act (.call (.append 7 [1] 0) []), .crash none 0 oneFrameFile] =
          .ok (outcomes, d) ∧
      d.openLog [] = .ok (.OK, d') ∧
      ∀ out, d'.state.entryAt 1 out [] = .ok (.OK, ⟨1, 7, [1]⟩) := by
  obtain ⟨d₀, initial, hopen, _, _, h₀⟩ := Holds.of_openLog LogState.openLog_empty
  have hempty : logFraming.scan 1 File.empty.bytes = [] :=
    logFraming.scan_of_none (logFraming.decode_nil 1)
  have hinitial : initial = [] := List.prefix_nil.mp (hempty ▸ h₀.isPrefix)
  subst hinitial
  have hsucceeds : appendSucceeds [] (7, [1]) [] = true := by decide
  obtain ⟨d₁, hcall, hdisk, h₁⟩ := @Holds.call_append _ _ h₀ 7 [1] (by decide) 0 [] hsucceeds
  have hpending : d₁.disk.pending = [] := hdisk ▸ h₀.pending_append (by decide) hsucceeds
  have hdurable : d₁.disk.durable = oneFrameFile := by
    apply File.ext
    rw [← Medium.content_of_pending_nil File.change hpending, h₁.content_bytes]
    exact List.append_nil _
  have hfirst : LogEvent.step (DiskLog.closed File.empty) (.act (.openLog [])) =
      .ok (.opened .OK, d₀) := except_bind_eq_ok.mpr ⟨_, hopen, rfl⟩
  have hsecond : LogEvent.step d₀ (.act (.call (.append 7 [1] 0) [])) =
      .ok (.responded (.appended .OK 1), d₁) := except_bind_eq_ok.mpr ⟨_, hcall, rfl⟩
  have hpossible : Along LogEvent.step LogEvent.Possible (DiskLog.closed File.empty)
      ([.act (.openLog [])] ++ .act (.call (.append 7 [1] 0) []) ::
        [.crash none 0 oneFrameFile]) := by
    refine ⟨fun _ _ => readsFrames_nil _, fun _ _ hstep => ?_⟩
    rw [hfirst] at hstep
    cases hstep
    refine ⟨(by decide : 24 + [(1 : UInt8)].length < 2 ^ 32), fun _ _ hstep => ?_⟩
    rw [hsecond] at hstep
    cases hstep
    refine ⟨⟨fun action haction => (nomatch haction), ?_⟩, fun _ _ _ => trivial⟩
    exact (Medium.mem_survivors_of_pending_nil File.change hpending).mpr hdurable.symm
  obtain ⟨outcomes, d, response, d₂, hrun, hcall', ⟨outcomes', d', hrun'⟩, hstays⟩ :=
    acknowledged_entry_stays File.empty hpossible
  rw [run_cons hfirst] at hrun
  cases hrun
  rw [hcall] at hcall'
  cases hcall'
  have hspares : ∀ event ∈ [LogEvent.crash none 0 oneFrameFile],
      event.Spares (1 : LogIndex).toNat := by
    intro event hevent
    rw [List.mem_singleton.mp hevent]
    exact fun action haction => (nomatch haction)
  obtain ⟨_, d'', hreopen, hentry⟩ := hstays 1 rfl hspares outcomes' d' hrun'
  refine ⟨.opened .OK :: .responded (.appended .OK 1) :: outcomes', d', d'', ?_, hreopen, hentry⟩
  rw [run_cons hfirst, run_cons hsecond, hrun']

end MiniDB.Storage
