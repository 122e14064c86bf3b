import MiniDB.Common.ReadFile
import MiniDB.Common.WriteSite
import MiniDB.Engine.Serializer
import MiniDB.Library.TaskLoop

/-!
# Parallel save and load

`Concurrency.cpp`: `runParallel` puts one task for every table on a pool and keeps the last
status that is not `OK`, in the order of the tables. The tasks share the tables and the file
system. A task takes its turns at system calls and at insertions; what it does in between
concerns its own table.
-/

namespace MiniDB.Engine

open MiniDB.Common MiniDB.Common.FileIO MiniDB.JsonPro MiniDB.Core Memory Posix TaskPool

/-- What the tasks share. -/
structure World where
  /-- The tables in memory. -/
  heap : Heap Table
  /-- The files. -/
  files : FileSystem

/-- How `runParallel` folds the statuses: the last one that is not `OK` stays. -/
def lastNotOk (finalStatus s : Status) : Status := if s ≠ .OK then s else finalStatus

/-- Only successes fold to success. -/
theorem foldl_lastNotOk_eq_ok_iff {statuses : List Status} :
    statuses.foldl lastNotOk .OK = .OK ↔ ∀ s ∈ statuses, s = .OK := by
  induction statuses using List.reverseRecOn with
  | nil => simp
  | append_singleton statuses s ih =>
    rw [List.foldl_append, List.forall_mem_append, ← ih, List.forall_mem_singleton]
    dsimp only [List.foldl, lastNotOk]
    by_cases hs : s = .OK
    · rw [if_neg (not_not.mpr hs), and_iff_left hs]
    · rw [if_pos hs]
      exact ⟨fun h => absurd h hs, fun h => absurd h.2 hs⟩

/-- The file of a table, behind `baseFilename + "_"` or `outputDirectory + "/"`. -/
def tableFile (stem : String) (t : Table) : String := stem ++ t.getName ++ ".json"

section Loading

variable [JsonText]

/-- Where a task of `loadAllTablesParallel` stands. -/
inductive LoadStage
  | naming
  | reading (path : String) (stage : ReadStage)
  | importing (nextId : RecordID) (entries : List Json)
  | ended (r : Except Fault Status)

/-- A task with the outcomes of its next system calls. -/
abbrev LoadTask := Schedule × LoadStage

/-- How a task has ended. -/
def LoadStage.result : LoadStage → Option (Except Fault Status)
  | .ended r => some r
  | _ => none

/-- What `importTableFromJson` does before its loop. -/
def importStart (raw : List UInt8) : LoadStage :=
  match JsonText.parse raw with
  | .error fault => .ended (.error fault)
  | .ok parsed =>
    if parsed.isNull then .ended (.ok .PARSE_ERROR)
    else if !parsed.isArray then .ended (.ok .PARSE_ERROR)
    else match parsed.asArray with
      | .error fault => .ended (.error fault)
      | .ok entries => .importing 0 entries

/-- A turn of a task on its table. -/
def loadTurn [InsertPolicy] (stem : String) (fs : FileSystem) : LoadTask → Table → LoadTask × Table
  | (io, .naming), t => ((io, .reading (tableFile stem t) .sizing), t)
  | (io, .reading _ (.returned .OK raw)), t => ((io, importStart raw), t)
  | (io, .reading _ (.returned s _)), t => ((io, .ended (.ok s)), t)
  | (io, .reading path stage), t =>
    ((io.next.2, .reading path (readStep fs path io.next.1 stage)), t)
  | (io, .importing _ []), t => ((io, .ended (.ok .OK)), t)
  | (io, .importing nextId (entry :: entries)), t =>
    match entryRecord nextId entry with
    | .error fault => ((io, .ended (.error fault)), t)
    | .ok r =>
      if (t.insertRecord r).1 ≠ .OK then
        ((io, .ended (.ok (t.insertRecord r).1)), (t.insertRecord r).2)
      else ((io, .importing (nextId + 1) entries), (t.insertRecord r).2)
  | (io, .ended r), t => ((io, .ended r), t)

/-- A turn of a task. -/
def loadStep [InsertPolicy] (stem : String) (address : Address) (w : World) (task : LoadTask) :
    World × LoadTask :=
  match task.2.result with
  | some _ => (w, task)
  | none =>
    match w.heap.read address with
    | .error fault => (w, (task.1, .ended (.error fault)))
    | .ok t =>
      match w.heap.write address (loadTurn stem w.files task t).2 with
      | .error fault => (w, (task.1, .ended (.error fault)))
      | .ok heap => ({ w with heap := heap }, (loadTurn stem w.files task t).1)

/-- The tasks of `loadAllTablesParallel`. -/
def loadTasks [InsertPolicy] (tables : List Address) (stem : String) :
    Batch Address World LoadTask Fault Status where
  order := tables
  step := loadStep stem
  result task := task.2.result
  initial := .OK
  combine := lastNotOk

/-- `loadAllTablesParallel`, as the batch that `runParallel` puts on the pool. -/
def loadAllTablesParallel [InsertPolicy] (db : Database) (baseFilename : String) :
    Batch Address World LoadTask Fault Status :=
  loadTasks db.tables (baseFilename ++ "_")

/-- The tasks before their first turn. -/
def loadStart (io : Address → Schedule) (address : Address) : LoadTask := (io address, .naming)

/-- The call that a task of `loadAllTablesParallel` makes, for one table. -/
def loadTable [InsertPolicy] (stem : String) (io : Address → Schedule) (address : Address)
    (w : World) : Except Fault Status × World :=
  match w.heap.read address with
  | .error fault => (.error fault, w)
  | .ok t =>
    match importTableFromFile (readFile w.files (tableFile stem t) (io address)) t with
    | .error fault t' =>
      match w.heap.write address t' with
      | .error fault => (.error fault, w)
      | .ok heap => (.error fault, { w with heap := heap })
    | .ok s t' =>
      match w.heap.write address t' with
      | .error fault => (.error fault, w)
      | .ok heap => (.ok s, { w with heap := heap })

end Loading

section Exporting

/-- Where a task of `saveAllTablesParallel` or `exportAllTablesParallel` stands. -/
inductive ExportStage
  | dumping
  | writing (path : String) (content : List UInt8) (stage : WriteStage)
  | failed (fault : Fault)

/-- A task with the outcomes of its next system calls. -/
abbrev ExportTask := Schedule × ExportStage

/-- How a task has ended. -/
def ExportStage.result : ExportStage → Option (Except Fault Status)
  | .dumping => none
  | .writing _ _ stage => writeResult stage
  | .failed fault => some (.error fault)

variable [JsonText]

/-- What a task does before it writes. -/
def dump (stem : String) (heap : Heap Table) (address : Address) : ExportStage :=
  match heap.read address with
  | .error fault => .failed fault
  | .ok t =>
    match exportTableToJson t with
    | .error fault => .failed fault
    | .ok content => .writing (tableFile stem t) content .opening

/-- A turn of a task. -/
def exportStep (stem : String) (address : Address) (w : World) (task : ExportTask) :
    World × ExportTask :=
  match task.2.result with
  | some _ => (w, task)
  | none =>
    match task with
    | (io, .dumping) => (w, (io, dump stem w.heap address))
    | (io, .writing path content stage) =>
      ({ w with files := (writeStep path content io.next.1 w.files stage).1 },
        (io.next.2, .writing path content (writeStep path content io.next.1 w.files stage).2))
    | (io, .failed fault) => (w, (io, .failed fault))

/-- The tasks of `saveAllTablesParallel` and `exportAllTablesParallel`. -/
def exportTasks (tables : List Address) (stem : String) :
    Batch Address World ExportTask Fault Status where
  order := tables
  step := exportStep stem
  result task := task.2.result
  initial := .OK
  combine := lastNotOk

/-- `saveAllTablesParallel`, as the batch that `runParallel` puts on the pool. -/
def saveAllTablesParallel (db : Database) (baseFilename : String) :
    Batch Address World ExportTask Fault Status :=
  exportTasks db.tables (baseFilename ++ "_")

/-- `exportAllTablesParallel`, as the batch that `runParallel` puts on the pool. -/
def exportAllTablesParallel (db : Database) (outputDirectory : String) :
    Batch Address World ExportTask Fault Status :=
  exportTasks db.tables (outputDirectory ++ "/")

/-- The tasks before their first turn. -/
def exportStart (io : Address → Schedule) (address : Address) : ExportTask :=
  (io address, .dumping)

/-- `exportTableToFile`, for one table. -/
def exportTable (stem : String) (io : Address → Schedule) (address : Address) (w : World) :
    Except Fault Status × World :=
  match w.heap.read address with
  | .error fault => (.error fault, w)
  | .ok t =>
    match exportTableToJson t with
    | .error fault => (.error fault, w)
    | .ok content =>
      ((writeFileFully w.files (tableFile stem t) content (io address)).2,
        { w with files := (writeFileFully w.files (tableFile stem t) content (io address)).1 })

end Exporting

end MiniDB.Engine
