import MiniDB.Common.PowerLoss
import MiniDB.Common.ReadFile
import MiniDB.Core.DatabaseIdentity

/-!
# Databases kept in files

A process changes a database, saves it and loads it again with `saveDatabase` and
`loadDatabase` of `StorageEngine.cpp`. System calls may fail, the process may end anywhere, also
within a save, and the power may go. A load still finds a whole database that was saved.
-/

namespace MiniDB.Engine

open MiniDB.Common MiniDB.Common.FileIO MiniDB.JsonPro MiniDB.Core Memory Posix Refinement

/-- The `fullpath` of a file of a storage engine. -/
def fullpath (dataDirectory filename : String) : String := dataDirectory ++ "/" ++ filename

/-- A process and the disk. -/
structure Machine where
  /-- The database of the process. -/
  db : Database
  /-- The disk. -/
  disk : Volume

/-- What happens. A save gets as far as the outcomes of its system calls go. A new process starts
when the one before ended, or when the power went and left the files in some condition. -/
inductive MachineEvent
  | change (call : DatabaseCall)
  | save (io : Schedule)
  | load (io : Schedule)
  | restart (name : String)
  | powerLoss (left : FileSystem) (name : String)

/-- What is reported. -/
inductive MachineResponse
  | change (response : DatabaseResponse)
  | save (stage : WriteStage)
  | load (s : Status)
  | started

section Definitions

variable [JsonText]

/-- `saveDatabase`. -/
def saveDatabase (dataDirectory filename : String) (db : Database) (io : Schedule) (v : Volume) :
    Except Fault (WriteStage × Volume) := do
  let text ← db.saved
  let (v, stage) := diskSteps (fullpath dataDirectory filename) text io (v, .opening)
  return (stage, v)

variable [InsertPolicy]

/-- `loadDatabase`. -/
def loadDatabase (dataDirectory filename : String) (io : Schedule) (v : Volume) :
    EStateM Fault Database Status :=
  Database.load (readFile v.seen (fullpath dataDirectory filename) io)

/-- One event. -/
def Machine.step (dataDirectory filename : String) (m : Machine) :
    MachineEvent → Except Fault (MachineResponse × Machine)
  | .change call => do
    let (response, db) ← m.db.call call
    return (.change response, { m with db })
  | .save io => do
    let (stage, disk) ← saveDatabase dataDirectory filename m.db io m.disk
    return (.save stage, { m with disk })
  | .load io =>
    match loadDatabase dataDirectory filename io m.disk m.db with
    | .ok s db => .ok (.load s, { m with db })
    | .error fault _ => .error fault
  | .restart name => .ok (.started, { m with db := Database.new name })
  | .powerLoss left name => .ok (.started, ⟨Database.new name, .settled left⟩)

omit [InsertPolicy] in
/-- The identifiers of tables and pages are small, and all identifiers are when a database is saved.
Its text is then parsed as what it was made from. The power leaves what the disk may hold. -/
def Machine.Possible (m : Machine) (event : MachineEvent) : Prop :=
  m.db.SmallPageIds ∧
    match event with
    | .save _ => m.db.SmallIds ∧ ∀ envelope, m.db.toJson = .ok envelope →
      JsonText.parse (JsonText.dump envelope) = .ok envelope
    | .powerLoss left _ => m.disk.PowerLoss left
    | _ => True

omit [InsertPolicy] in
/-- A database that was saved, which can be read again from its text. -/
structure SavedDatabase where
  /-- The database. -/
  db : Database
  /-- What was written. -/
  envelope : Json
  /-- The database holds its tables. -/
  consistent : ∃ entries, db.Consistent entries
  /-- Identifiers are small. -/
  small : db.SmallIds
  /-- It was made from the database. -/
  made : db.toJson = .ok envelope
  /-- It is parsed as what it was made from. -/
  parsed : JsonText.parse (JsonText.dump envelope) = .ok envelope

omit [InsertPolicy] in
/-- The text of a saved database. -/
def SavedDatabase.text (saved : SavedDatabase) : List UInt8 := JsonText.dump saved.envelope

omit [InsertPolicy] in
/-- A database and the saved ones. -/
structure Stored where
  /-- The database of the process. -/
  db : Database
  /-- The database in the file, and those that may be there again when the power goes. -/
  file : Versions SavedDatabase

/-- What an event does to a database and the saved ones. A load fails or makes the database the
saved one, reloaded. -/
def Stored.After (a : Stored) : MachineEvent → MachineResponse → Stored → Prop
  | .change call, .change response, a' =>
    a.db.call call = .ok (response, a'.db) ∧ a'.file = a.file
  | .save _, .save stage, a' => a'.db = a.db ∧
    (stage = .returned .OK ∧ (∃ saved, saved.db = a.db ∧ a'.file = a.file.push saved) ∨
      stage ≠ .returned .OK ∧ a'.file = a.file)
  | .load io, .load s, a' => a'.file = a.file ∧
    match a.file.current with
    | none => s = .IO_ERROR ∧ a'.db = a.db
    | some saved => s = .OK ∧ Database.Reloaded saved.db a'.db ∨
      s = .IO_ERROR ∧ a'.db = a.db ∧ ¬io.Unfailing
  | .restart name, .started, a' => a' = { a with db := Database.new name }
  | .powerLoss _ name, .started, a' =>
    a'.db = Database.new name ∧ a'.file.current ∈ a.file.all ∧ a'.file.older = []
  | _, _, _ => False

end Definitions

section Runs

variable [JsonText] [InsertPolicy]

/-- A saved database is loaded from its text into any other. -/
theorem SavedDatabase.load (saved : SavedDatabase) {target : Database} (howned : target.Owned) :
    ∃ db', Database.load (.OK, saved.text) target = .ok .OK db' ∧
      Database.Reloaded saved.db db' ∧ ∃ entries, db'.Consistent entries := by
  obtain ⟨entries, h⟩ := saved.consistent
  obtain ⟨envelope, heap, hwrite, hload, hheap, _⟩ := h.fromJson_written saved.small howned
  rw [saved.made] at hwrite
  cases hwrite
  exact ⟨_, (Database.load_eq_ok saved.parsed).mpr hload, h.reloaded saved.small hheap, _,
    h.reload saved.small hheap⟩

/-- A process with a database that holds its tables, on a disk with the texts of saved ones. -/
structure Keeps (path : String) (m : Machine) (a : Stored) : Prop where
  /-- The database is the same. -/
  db : m.db = a.db
  /-- It holds its tables. -/
  consistent : m.db.SmallPageIds → ∃ entries, m.db.Consistent entries
  /-- The file holds the texts. -/
  file : Holds path m.disk (a.file.map SavedDatabase.text)

namespace Keeps

variable {dataDirectory filename : String} {m : Machine} {a : Stored}

/-- Saving a database. -/
theorem save (h : Keeps (fullpath dataDirectory filename) m a) (io : Schedule)
    (hpossible : m.Possible (.save io)) :
    ∃ response m' a', m.step dataDirectory filename (.save io) = .ok (response, m') ∧
      a.After (.save io) response a' ∧ Keeps (fullpath dataDirectory filename) m' a' := by
  obtain ⟨hpages, hsmall, hparse⟩ := hpossible
  obtain ⟨entries, hconsistent⟩ := h.consistent hpages
  let saved : SavedDatabase :=
    ⟨m.db, _, ⟨entries, hconsistent⟩, hsmall, hconsistent.toJson_eq, hparse _ hconsistent.toJson_eq⟩
  have htext : m.db.saved = .ok saved.text := by
    unfold Database.saved
    rw [saved.made]
    rfl
  obtain ⟨disk, stage, hdisk, _, hcases⟩ := diskSteps_call h.file.2 saved.text io
  have hstep : m.step dataDirectory filename (.save io) =
      .ok (.save stage, { m with disk := disk }) := by
    unfold Machine.step saveDatabase
    dsimp only
    rw [htext]
    change Except.ok (MachineResponse.save
      (diskSteps (fullpath dataDirectory filename) saved.text io (m.disk, .opening)).2,
      { m with disk :=
        (diskSteps (fullpath dataDirectory filename) saved.text io (m.disk, .opening)).1 }) = _
    rw [hdisk]
  rcases hcases with ⟨rfl, hread, hsafe⟩ | ⟨hnot, hread, hsafe⟩
  · exact ⟨_, _, ⟨a.db, a.file.push saved⟩, hstep, ⟨rfl, Or.inl ⟨rfl, saved, h.db, rfl⟩⟩, h.db,
      h.consistent, hread, hsafe⟩
  · exact ⟨_, _, a, hstep, ⟨rfl, Or.inr ⟨hnot, rfl⟩⟩, h.db, h.consistent, hread.trans h.file.1,
      hsafe⟩

/-- Loading a database. -/
theorem load (h : Keeps (fullpath dataDirectory filename) m a) (io : Schedule)
    (hpossible : m.Possible (.load io)) :
    ∃ response m' a', m.step dataDirectory filename (.load io) = .ok (response, m') ∧
      a.After (.load io) response a' ∧ Keeps (fullpath dataDirectory filename) m' a' := by
  obtain ⟨entries, hconsistent⟩ := h.consistent hpossible.1
  have hread := h.file.1
  have hfails : readFile m.disk.seen (fullpath dataDirectory filename) io = (.IO_ERROR, []) →
      m.step dataDirectory filename (.load io) = .ok (.load .IO_ERROR, m) := by
    intro hfailed
    unfold Machine.step loadDatabase
    dsimp only
    rw [hfailed]
    rfl
  cases hcurrent : a.file.current with
  | none =>
    rw [Versions.map, hcurrent] at hread
    refine ⟨_, m, a, hfails (readFile_of_none hread io), ⟨rfl, ?_⟩, h⟩
    rw [hcurrent]
    exact ⟨rfl, rfl⟩
  | some saved =>
    rw [Versions.map, hcurrent] at hread
    rcases readFile_of_read hread io with hok | hfailed
    · obtain ⟨db', hload, hreloaded, hconsistent'⟩ := saved.load hconsistent.owned
      refine ⟨.load .OK, { m with db := db' }, { a with db := db' }, ?_, ⟨rfl, ?_⟩, rfl,
        fun _ => hconsistent', h.file⟩
      · unfold Machine.step loadDatabase
        dsimp only
        rw [hok, hload]
      · rw [hcurrent]
        exact Or.inl ⟨rfl, hreloaded⟩
    · refine ⟨_, m, a, hfails hfailed, ⟨rfl, ?_⟩, h⟩
      rw [hcurrent]
      refine Or.inr ⟨rfl, rfl, fun hio => ?_⟩
      rw [readFile_of_unfailing hread hio] at hfailed
      cases hfailed

end Keeps

end Runs

end MiniDB.Engine
