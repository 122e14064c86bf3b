import MiniDB.Library.PosixDisk
import MiniDB.Storage.RejectedAppend

/-!
# The log on a disk

The system calls of the log, in order, as effects on the disk that holds its file:
`append` forces its frame out before it returns, while the size changes of
`truncateFrom` and `open` stay pending. Programs see the file of `WriteAheadLog`, so a
log on a disk answers as the log on its file does.
-/

namespace MiniDB.Storage

open MiniDB.Common ByteSequence Memory Posix Durability Refinement

namespace LogState

/-- The system calls of `open` that change the file. -/
def openEffects (s : LogState) (io : Schedule) : List (Effect Change) :=
  let (opened, io) := io.next
  if !opened.succeeds then []
  else
    let (sized, io) := io.next
    if !sized.succeeds then []
    else
      let totalSize := s.file.bytes.length
      match scanLoop s.file totalSize 0 ⟨true, [], INVALID_LOG_INDEX, INVALID_TERM, 0⟩ io with
      | .ok (⟨true, pos, _⟩, io) =>
        if pos ≠ totalSize then s.file.resizeEffects pos io else []
      | _ => []

/-- The system calls of `append` that change the file: its writes, and an `fsync` once all
is written. -/
def appendEffects (s : LogState) (term : Term) (payload : List UInt8) (io : Schedule) :
    List (Effect Change) :=
  if !s.log.isOpen then []
  else match frameBuffer (s.log.lastIndex + 1) term payload with
  | .error _ => []
  | .ok buf =>
    let writes := (s.file.writes buf s.log.writeOffset io).map Effect.alter
    match s.file.pwriteAll buf s.log.writeOffset io with
    | (false, _, _) => writes
    | (true, _, io) => writes ++ syncEffects io

/-- The system call of `truncateFrom` that changes the file. No `fsync` follows it. -/
def truncateEffects (s : LogState) (index : LogIndex) (io : Schedule) : List (Effect Change) :=
  if !s.log.isOpen then []
  else if index = INVALID_LOG_INDEX then s.file.resizeEffects 0 io
  else if s.log.lastIndex < index then []
  else match elementAt s.log.offsetIndex (index.toNat - 1) with
  | .error _ => []
  | .ok cutOffset =>
    if index - 1 = INVALID_LOG_INDEX then s.file.resizeEffects cutOffset io
    else match elementAt s.log.offsetIndex ((index - 1).toNat - 1) with
    | .error _ => []
    | .ok tailOffset =>
      match s.readFrameAt tailOffset ⟨INVALID_LOG_INDEX, INVALID_TERM, []⟩ io with
      | .ok (.OK, _, io) => s.file.resizeEffects cutOffset io
      | _ => []

/-- The system calls of a call that change the file. -/
def effects (s : LogState) : LogCall × Schedule → List (Effect Change)
  | (.append term payload _, io) => s.appendEffects term payload io
  | (.truncateFrom index, io) => s.truncateEffects index io
  | _ => []

end LogState

/-- A log object and the disk that holds its file. -/
structure DiskLog where
  /-- The log object. -/
  log : WriteAheadLog
  /-- The disk. -/
  disk : Disk

namespace DiskLog

/-- The log on the file that programs see. -/
def state (d : DiskLog) : LogState := ⟨d.log, d.disk.content File.change⟩

/-- `open` on a disk. -/
def openLog (d : DiskLog) (io : Schedule) : Except Fault (Status × DiskLog) := do
  let (status, s) ← d.state.openLog io
  return (status, ⟨s.log, d.disk.performAll File.change (d.state.openEffects io)⟩)

/-- One call under its schedule, on a disk. -/
def call (d : DiskLog) (call : LogCall × Schedule) : Except Fault (LogResponse × DiskLog) := do
  let (response, s) ← d.state.call call
  return (response, ⟨s.log, d.disk.performAll File.change (d.state.effects call)⟩)

end DiskLog

namespace LogState

/-- What programs see of `append` on the disk is its effect on the file. -/
theorem visible_appendEffects {s s' : LogState} {term : Term} {payload : List UInt8}
    {outIndex index : LogIndex} {io : Schedule} {status : Status}
    (h : s.append term payload outIndex io = .ok (status, index, s')) :
    (s.appendEffects term payload io).foldl (Effect.visible File.change) s.file = s'.file := by
  unfold append at h
  unfold appendEffects
  by_cases hclosed : (!s.log.isOpen) = true
  · rw [if_pos hclosed] at h ⊢
    cases h
    rfl
  · rw [if_neg hclosed] at h ⊢
    cases hbuffer : frameBuffer (s.log.lastIndex + 1) term payload with
    | error fault =>
      simp only [hbuffer] at h
      cases h
    | ok buf =>
      have hwrites := s.file.foldl_writes buf s.log.writeOffset io
      rcases hall : s.file.pwriteAll buf s.log.writeOffset io with ⟨complete, file, rest⟩
      simp only [hbuffer, hall] at h hwrites ⊢
      cases complete with
      | false =>
        cases h
        dsimp only
        rw [foldl_visible_map_alter, hwrites]
      | true =>
        dsimp only at h ⊢
        rw [List.foldl_append, foldl_visible_map_alter, hwrites]
        unfold syncEffects
        cases hsync : (fsync rest).1 with
        | false =>
          rw [hsync] at h
          cases h
          rfl
        | true =>
          rw [hsync] at h
          cases h
          rfl

/-- The end of `truncateFrom` cuts the file at the new write offset, or fails. -/
theorem truncateTo_cases {s s' : LogState} {newLastIndex : LogIndex} {newLastTerm : Term}
    {cutOffset : ℕ} {io : Schedule} {status : Status}
    (h : s.truncateTo newLastIndex newLastTerm cutOffset io = .ok (status, s')) :
    (s.file.resizeEffects cutOffset io = [] ∧ s'.file = s.file) ∨
    (status = .OK ∧ s.file.resizeEffects cutOffset io = [.alter (.resize s'.log.writeOffset)] ∧
      s'.file = s.file.change (.resize s'.log.writeOffset)) := by
  unfold truncateTo at h
  rcases s.file.ftruncate_cases cutOffset io with ⟨hcut, heffects⟩ | ⟨hcut, heffects⟩
  · rw [hcut] at h
    cases h
    exact Or.inl ⟨heffects, rfl⟩
  · rw [hcut] at h
    cases h
    exact Or.inr ⟨rfl, heffects, rfl⟩

/-- `truncateFrom` cuts the file at the new write offset, or changes nothing in it. -/
theorem truncateEffects_cases {s s' : LogState} {index : LogIndex} {io : Schedule}
    {status : Status} (h : s.truncateFrom index io = .ok (status, s')) :
    (s.truncateEffects index io = [] ∧ s'.file = s.file) ∨
    (status = .OK ∧ s.truncateEffects index io = [.alter (.resize s'.log.writeOffset)] ∧
      s'.file = s.file.change (.resize s'.log.writeOffset)) := by
  unfold truncateFrom at h
  unfold truncateEffects
  by_cases hclosed : (!s.log.isOpen) = true
  · rw [if_pos hclosed] at h ⊢
    cases h
    exact Or.inl ⟨rfl, rfl⟩
  rw [if_neg hclosed] at h ⊢
  by_cases hall : index = INVALID_LOG_INDEX
  · rw [if_pos hall] at h ⊢
    exact truncateTo_cases h
  rw [if_neg hall] at h ⊢
  by_cases hbeyond : s.log.lastIndex < index
  · rw [if_pos hbeyond] at h ⊢
    cases h
    exact Or.inl ⟨rfl, rfl⟩
  rw [if_neg hbeyond] at h ⊢
  cases hcut : elementAt s.log.offsetIndex (index.toNat - 1) with
  | error fault =>
    rw [hcut] at h
    cases h
  | ok cutOffset =>
    simp only [hcut, bind, Except.bind] at h ⊢
    by_cases hfirst : index - 1 = INVALID_LOG_INDEX
    · rw [if_pos hfirst] at h ⊢
      exact truncateTo_cases h
    rw [if_neg hfirst] at h ⊢
    cases htail : elementAt s.log.offsetIndex ((index - 1).toNat - 1) with
    | error fault =>
      rw [htail] at h
      cases h
    | ok tailOffset =>
      simp only [htail] at h ⊢
      rcases hread : s.readFrameAt tailOffset ⟨INVALID_LOG_INDEX, INVALID_TERM, []⟩ io with
        fault | ⟨read, tailEntry, rest⟩
      · simp only [hread] at h
        cases h
      · simp only [hread] at h ⊢
        split at h
        · rename_i heq
          cases heq
          exact truncateTo_cases h
        · rename_i hne heq
          cases heq
          cases h
          left
          refine ⟨?_, rfl⟩
          split
          · rename_i heq
            cases heq
            exact absurd rfl hne
          · rfl

/-- A successful `open` cuts the file at the write offset, or leaves it alone. -/
theorem openEffects_cases {s s' : LogState} {io : Schedule}
    (h : s.openLog io = .ok (.OK, s')) :
    (s.openEffects io = [] ∧ s'.file = s.file) ∨
    (s.openEffects io = [.alter (.resize s'.log.writeOffset)] ∧
      s'.file = s.file.change (.resize s'.log.writeOffset)) := by
  unfold openLog at h
  unfold openEffects
  rcases hopened : io.next with ⟨opened, io₁⟩
  simp only [hopened] at h ⊢
  by_cases hfailed : (!opened.succeeds) = true
  · rw [if_pos hfailed] at h
    cases h
  rw [if_neg hfailed] at h ⊢
  rcases hsized : io₁.next with ⟨sized, io₂⟩
  simp only [hsized] at h ⊢
  by_cases hunsized : (!sized.succeeds) = true
  · rw [if_pos hunsized] at h
    cases h
  rw [if_neg hunsized] at h ⊢
  rcases hscan : scanLoop s.file s.file.bytes.length 0
    ⟨true, [], INVALID_LOG_INDEX, INVALID_TERM, 0⟩ io₂ with fault | ⟨⟨ok, pos, log⟩, io₃⟩
  · simp only [hscan] at h
    cases h
  cases ok with
  | false =>
    simp only [hscan] at h
    cases h
  | true =>
    simp only [hscan] at h ⊢
    by_cases hbehind : pos ≠ s.file.bytes.length
    · rw [if_pos hbehind] at h ⊢
      rcases s.file.ftruncate_cases pos io₃ with ⟨hcut, _⟩ | ⟨hcut, heffects⟩
      · rw [hcut] at h
        cases h
      · rw [hcut] at h
        cases h
        exact Or.inr ⟨heffects, rfl⟩
    · rw [if_neg hbehind] at h ⊢
      cases h
      exact Or.inl ⟨rfl, rfl⟩

/-- What programs see of a call on the disk is its effect on the file. -/
theorem visible_effects {s s' : LogState} {call : LogCall × Schedule} {response : LogResponse}
    (h : s.call call = .ok (response, s')) :
    (s.effects call).foldl (Effect.visible File.change) s.file = s'.file := by
  rcases call with ⟨call, io⟩
  cases call with
  | append term payload outIndex =>
    obtain ⟨_, hcall, hreport⟩ := except_bind_eq_ok.mp h
    cases hreport
    exact visible_appendEffects hcall
  | truncateFrom index =>
    obtain ⟨_, hcall, hreport⟩ := except_bind_eq_ok.mp h
    cases hreport
    rcases truncateEffects_cases hcall with ⟨heffects, hfile⟩ | ⟨_, heffects, hfile⟩
    · rw [effects, heffects, hfile]
      rfl
    · rw [effects, heffects, hfile]
      rfl
  | entryAt index out =>
    obtain ⟨_, _, hreport⟩ := except_bind_eq_ok.mp h
    cases hreport
    rfl
  | range fromIndex toIndex =>
    obtain ⟨_, _, hreport⟩ := except_bind_eq_ok.mp h
    cases hreport
    rfl
  | lastIndex =>
    cases h
    rfl
  | lastTerm =>
    cases h
    rfl

end LogState

namespace DiskLog

/-- A call on the disk is the call on the file that programs see. -/
theorem call_of_state {d : DiskLog} {call : LogCall × Schedule} {response : LogResponse}
    {s' : LogState} (h : d.state.call call = .ok (response, s')) :
    ∃ d' : DiskLog, d.call call = .ok (response, d') ∧ d'.state = s' ∧
      d'.disk = d.disk.performAll File.change (d.state.effects call) := by
  refine ⟨⟨s'.log, d.disk.performAll File.change (d.state.effects call)⟩, ?_, ?_, rfl⟩
  · exact except_bind_eq_ok.mpr ⟨_, h, rfl⟩
  · have hvisible := LogState.visible_effects h
    have hseen := Medium.content_performAll File.change d.disk (d.state.effects call)
    exact congrArg (LogState.mk s'.log) (hseen.trans hvisible)

/-- A successful `open` on the disk is one on the file that programs see. -/
theorem openLog_of_state {d : DiskLog} {io : Schedule} {s : LogState}
    (h : d.state.openLog io = .ok (.OK, s)) :
    ∃ d' : DiskLog, d.openLog io = .ok (.OK, d') ∧ d'.state = s ∧
      d'.disk = d.disk.performAll File.change (d.state.openEffects io) := by
  refine ⟨⟨s.log, d.disk.performAll File.change (d.state.openEffects io)⟩, ?_, ?_, rfl⟩
  · exact except_bind_eq_ok.mpr ⟨_, h, rfl⟩
  · have hseen := Medium.content_performAll File.change d.disk (d.state.openEffects io)
    refine congrArg (LogState.mk s.log) (hseen.trans ?_)
    rcases LogState.openEffects_cases h with ⟨heffects, hfile⟩ | ⟨heffects, hfile⟩
    · rw [heffects, hfile]
      rfl
    · rw [heffects, hfile]
      rfl

end DiskLog

end MiniDB.Storage
