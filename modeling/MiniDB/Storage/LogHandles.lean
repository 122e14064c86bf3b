import MiniDB.Library.Heap
import MiniDB.Storage.LogLifetime
import Mathlib.Logic.Function.Basic

/-!
# Logs that are moved

A program has several log objects over several files, each with a file descriptor of its own once
it is open. Objects are constructed, moved, opened, called and destroyed in any order. Seen from
outside there is a list of entries for each file.
-/

namespace MiniDB.Storage

open MiniDB.Common ByteSequence Memory Posix Refinement

/-- A `WriteAheadLog` with its path and its descriptor. -/
structure LogHandle where
  /-- Path of the backing file. -/
  path : String
  /-- The file descriptor, unless it is negative. -/
  fd : Option Address
  /-- Byte offset of each entry's frame, by index minus one. -/
  offsetIndex : List ℕ
  /-- Index of the last durable entry. -/
  lastIndex : LogIndex
  /-- Term of the last durable entry. -/
  lastTerm : Term
  /-- Byte offset the next append writes at. -/
  writeOffset : ℕ

namespace LogHandle

/-- `WriteAheadLog(path)`. -/
def new (path : String) : LogHandle := ⟨path, none, [], INVALID_LOG_INDEX, INVALID_TERM, 0⟩

/-- What becomes of a log that is moved from; what is left of its path is not specified. -/
def movedFrom (left : String) : LogHandle :=
  { path := left
    fd := none
    offsetIndex := []
    lastIndex := INVALID_LOG_INDEX
    lastTerm := INVALID_TERM
    writeOffset := 0 }

/-- The in-memory state. -/
def log (h : LogHandle) : WriteAheadLog :=
  ⟨h.fd.isSome, h.offsetIndex, h.lastIndex, h.lastTerm, h.writeOffset⟩

/-- The log with another descriptor and another state. -/
def update (h : LogHandle) (fd : Option Address) (log : WriteAheadLog) : LogHandle :=
  ⟨h.path, fd, log.offsetIndex, log.lastIndex, log.lastTerm, log.writeOffset⟩

/-- The descriptor it holds. -/
def held (h : LogHandle) : List Address := h.fd.toList

/-- `sysClose`, unless the descriptor is negative. The result of `close` is not looked at. -/
def close (h : LogHandle) (descriptors : Heap String) : Except Fault (Heap String) :=
  match h.fd with
  | none => .ok descriptors
  | some fd => descriptors.free fd

end LogHandle

/-- The logs of a program. -/
structure LogProgram (ι : Type) where
  /-- The open descriptors, with the paths they were opened for. -/
  descriptors : Heap String
  /-- The files; one that does not exist yet is empty. -/
  files : String → File
  /-- The logs that are constructed and not yet destroyed. -/
  handles : ι → Option LogHandle

/-- What happens to the logs of a program. A move says what is left of the path. -/
inductive HandleEvent (ι : Type)
  | construct (i : ι) (path : String)
  | moveConstruct (i j : ι) (left : String)
  | moveAssign (i j : ι) (left : String)
  | destroy (i : ι)
  | openLog (i : ι) (io : Schedule)
  | call (i : ι) (request : LogCall) (io : Schedule)

/-- What is seen of an event. -/
inductive HandleOutcome
  | done
  | opened (status : Status)
  | responded (response : LogResponse)

namespace LogProgram

variable {ι : Type}

/-- The program before the first log. -/
def start (files : String → File) : LogProgram ι := ⟨Heap.empty, files, fun _ => none⟩

/-- The descriptors that a log holds, if it exists. -/
def heldBy (h : Option LogHandle) : List Address := (h.map LogHandle.held).getD []

/-- The descriptors that a log of the program holds. -/
def held (p : LogProgram ι) (i : ι) : List Address := heldBy (p.handles i)

variable [DecidableEq ι]

/-- The program with what has become of a log. -/
def set (p : LogProgram ι) (i : ι) (h : Option LogHandle) : LogProgram ι :=
  { p with handles := Function.update p.handles i h }

/-- One event. Using a log that does not exist is undefined, so is constructing one that does, and
so is the use of a descriptor that is not open. -/
def step (p : LogProgram ι) : HandleEvent ι → Except Fault (HandleOutcome × LogProgram ι)
  | .construct i path =>
    match p.handles i with
    | some _ => .error .undefined
    | none => .ok (.done, p.set i (some (LogHandle.new path)))
  | .moveConstruct i j left =>
    match p.handles i, p.handles j with
    | none, some other =>
      .ok (.done, (p.set j (some (LogHandle.movedFrom left))).set i (some other))
    | _, _ => .error .undefined
  | .moveAssign i j left =>
    match p.handles i, p.handles j with
    | some h, some other =>
      if i = j then .ok (.done, p)
      else do
        let descriptors ← h.close p.descriptors
        let p := { p with descriptors }
        return (.done, (p.set j (some (LogHandle.movedFrom left))).set i (some other))
    | _, _ => .error .undefined
  | .destroy i =>
    match p.handles i with
    | none => .error .undefined
    | some h => do
      let descriptors ← h.close p.descriptors
      return (.done, { p with descriptors }.set i none)
  | .openLog i io =>
    match p.handles i with
    | none => .error .undefined
    | some h => do
      let descriptors ← h.close p.descriptors
      let (status, s) ← LogState.openLog ⟨h.log, p.files h.path⟩ io
      let files := Function.update p.files h.path s.file
      if s.log.isOpen then
        let handle := h.update (some descriptors.next) s.log
        return (.opened status,
          { p with descriptors := descriptors.alloc h.path, files }.set i (some handle))
      else return (.opened status, { p with descriptors, files }.set i (some (h.update none s.log)))
  | .call i request io =>
    match p.handles i with
    | none => .error .undefined
    | some h => do
      let path ← match h.fd with
        | none => pure h.path
        | some fd => p.descriptors.read fd
      let (response, s) ← LogState.call ⟨h.log, p.files path⟩ (request, io)
      let files := Function.update p.files path s.file
      return (.responded response, { p with files }.set i (some (h.update h.fd s.log)))

/-- A log is constructed once and used while it exists; no file is opened that another log has
open; payloads fit their frames, and no `open` that succeeds has taken a short read for the end of
the log. -/
def Orderly (p : LogProgram ι) : HandleEvent ι → Prop
  | .construct i _ => p.handles i = none
  | .moveConstruct i j _ => p.handles i = none ∧ (p.handles j).isSome = true
  | .moveAssign i j _ => (p.handles i).isSome = true ∧ (p.handles j).isSome = true
  | .destroy i => (p.handles i).isSome = true
  | .openLog i io => ∃ h, p.handles i = some h ∧
    (∀ j ≠ i, ∀ other, p.handles j = some other → other.fd ≠ none → other.path ≠ h.path) ∧
    ∀ s, LogState.openLog ⟨h.log, p.files h.path⟩ io = .ok (.OK, s) →
      readsFrames (logFraming.scan 1 (p.files h.path).bytes) (io.drop 2) = true
  | .call i request _ => (p.handles i).isSome = true ∧ request.Fits

end LogProgram

/-- What the files of a program hold, and which logs there are, with their paths, and are open. -/
structure Shelf (ι : Type) where
  /-- The entries of each file and the bytes behind their frames. -/
  ledgers : String → Ledger
  /-- The logs. -/
  logs : ι → Option (String × Bool)

namespace Shelf

variable {ι : Type} [DecidableEq ι]

/-- The shelf with what has become of a log. -/
def set (shelf : Shelf ι) (i : ι) (log : Option (String × Bool)) : Shelf ι :=
  { shelf with logs := Function.update shelf.logs i log }

/-- The shelf with what has become of a file. -/
def write (shelf : Shelf ι) (path : String) (ledger : Ledger) : Shelf ι :=
  { shelf with ledgers := Function.update shelf.ledgers path ledger }

/-- The bytes behind the entries are entries as far as they are frames; the rest is cut off. -/
def recover (ledger : Ledger) : Ledger :=
  ⟨ledger.entries ++ logFraming.scan (1 + ledger.entries.length) ledger.leftover, []⟩

/-- What is seen of an event, and what becomes of the shelf. Calls go to the list of the file, if
the log is open; a log that is not open changes nothing. -/
def Answers (shelf : Shelf ι) : HandleEvent ι → HandleOutcome → Shelf ι → Prop
  | .construct i path, outcome, shelf' =>
    outcome = .done ∧ shelf' = shelf.set i (some (path, false))
  | .moveConstruct i j left, outcome, shelf' =>
    outcome = .done ∧ shelf' = (shelf.set j (some (left, false))).set i (shelf.logs j)
  | .moveAssign i j left, outcome, shelf' =>
    outcome = .done ∧ shelf' =
      if i = j then shelf else (shelf.set j (some (left, false))).set i (shelf.logs j)
  | .destroy i, outcome, shelf' => outcome = .done ∧ shelf' = shelf.set i none
  | .openLog i io, outcome, shelf' => ∃ path opened, shelf.logs i = some (path, opened) ∧
    (outcome = .opened .OK ∧
        shelf' = (shelf.write path (recover (shelf.ledgers path))).set i (some (path, true)) ∨
      ¬io.Unfailing ∧ outcome = .opened .IO_ERROR ∧ shelf' = shelf.set i (some (path, false)))
  | .call i request io, outcome, shelf' => ∃ path response, outcome = .responded response ∧
    (shelf.logs i = some (path, true) ∧ (∃ ledger,
        LedgerAnswers (shelf.ledgers path) (request, io) response ledger ∧
          shelf' = shelf.write path ledger) ∨
      shelf.logs i = some (path, false) ∧ shelf' = shelf ∧
        ∀ index, response ≠ .appended .OK index)

end Shelf

end MiniDB.Storage
