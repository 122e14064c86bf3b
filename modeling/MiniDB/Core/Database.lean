import MiniDB.Core.Decoding
import MiniDB.Library.Heap

/-!
# Databases

`Database.cpp`: tables in order of creation, held by pointers, with an index from names to
table identifiers and one from identifiers to tables. Decoding builds new tables beside
the old ones and replaces them at the end; tables under construction are abandoned when
an exception passes through.
-/

namespace MiniDB.Core

open MiniDB.Common MiniDB.JsonPro Memory

/-- A database, with the memory its tables live in. -/
structure Database where
  /-- Database name. -/
  name : String
  /-- The tables, in order of creation. -/
  tables : List Address
  /-- The identifier of each table by its name. -/
  index : FiniteMap String TableID
  /-- The table with each identifier. -/
  tableIndex : FiniteMap TableID Address
  /-- The identifier of the next table. -/
  nextTableId : TableID
  /-- Whether the database has unsaved changes. -/
  dirty : Bool
  /-- The memory. -/
  heap : Heap Table

/-- The containers that decoding fills before it touches the database. -/
structure Scratch where
  /-- The tables decoded so far. -/
  tables : List Address
  /-- Their identifiers by name. -/
  index : FiniteMap String TableID
  /-- The tables by identifier. -/
  tableIndex : FiniteMap TableID Address
  /-- The largest identifier so far. -/
  maxTableId : TableID

/-- The containers before the first table. -/
def Scratch.empty : Scratch := ⟨[], FiniteMap.empty, FiniteMap.empty, 0⟩

/-- The containers with one more decoded table. -/
def Scratch.add [InsertPolicy] (scratch : Scratch) (address : Address) (t : Table) : Scratch where
  tables := scratch.tables ++ [address]
  index := scratch.index.insert t.getName t.getID
  tableIndex := scratch.tableIndex.insert t.getID address
  maxTableId := max scratch.maxTableId t.getID

namespace Database

/-- `Database(name)`. -/
def new (name : String) : Database :=
  ⟨name, [], FiniteMap.empty, FiniteMap.empty, 0, false, Heap.empty⟩

/-- `hasTable`. -/
def hasTable (db : Database) (name : String) : Bool := db.index.contains name

/-- `getTable`. -/
def getTable (db : Database) (name : String) : Option Address :=
  match db.index.get? name with
  | none => none
  | some tid => db.tableIndex.get? tid

/-- `tableCount`. -/
def tableCount (db : Database) : ℕ := db.tables.length

/-- `isDirty`. -/
def isDirty (db : Database) : Bool := db.dirty

/-- A call on the table at an address. -/
def onTable {α : Type} (address : Address) (action : EStateM Fault Table α) :
    EStateM Fault Database α := fun db =>
  match db.heap.read address with
  | .error fault => .error fault db
  | .ok t =>
    match action t with
    | .ok value t =>
      match db.heap.write address t with
      | .error fault => .error fault db
      | .ok heap => .ok value { db with heap }
    | .error fault t =>
      match db.heap.write address t with
      | .error _ => .error fault db
      | .ok heap => .error fault { db with heap }

/-- `delete` of a table. -/
def deleteTable (address : Address) : EStateM Fault Database Unit := fun db =>
  match db.heap.free address with
  | .error fault => .error fault db
  | .ok heap => .ok () { db with heap }

/-- `delete` of every table of a vector. -/
def deleteTables : List Address → EStateM Fault Database Unit
  | [] => return
  | address :: addresses => do
    deleteTable address
    deleteTables addresses

/-- `remove_if` as used by `dropTable`: the tables with an identifier are deleted. -/
def removeTables (tid : TableID) : List Address → EStateM Fault Database (List Address)
  | [] => return []
  | address :: addresses => do
    let t ← (← get).heap.read address
    if t.getID = tid then
      deleteTable address
      removeTables tid addresses
    else return address :: (← removeTables tid addresses)

/-- `dropTable`. -/
def dropTable (name : String) : EStateM Fault Database Status := do
  match (← get).index.get? name with
  | none => return .TABLE_NOT_FOUND
  | some tid =>
    let tables ← removeTables tid (← get).tables
    modify fun db => { db with
      tables := tables
      index := db.index.erase name
      tableIndex := db.tableIndex.erase tid
      dirty := true }
    return .OK

/-- `toJson`. -/
def toJson (db : Database) : Except Fault Json := do
  let tables ← db.tables.mapM db.heap.read
  return .object [("__db_name__", .string db.name), ("tables", .array (tables.map Table.toJson))]

/-- What `save` writes to the file. -/
def saved [JsonText] (db : Database) : Except Fault (List UInt8) := do
  return JsonText.dump (← db.toJson)

/-- `save`, given what `writeFileAtomic` returns for the text. -/
def save [JsonText] (writeFileAtomic : List UInt8 → Status) (db : Database) :
    Except Fault Status := do
  return writeFileAtomic (← db.saved)

/-- The loop of `compact`. -/
def compactTables : List Address → EStateM Fault Database Status
  | [] => return .OK
  | address :: addresses => do
    let s ← onTable address fun t =>
      let (s, t) := t.compact
      .ok s t
    if s ≠ .OK then return s
    compactTables addresses

/-- `compact`. -/
def compact : EStateM Fault Database Status := do
  let s ← compactTables (← get).tables
  if s ≠ .OK then return s
  modify fun db => { db with dirty := false }
  return .OK

section Mutation

variable [InsertPolicy]

/-- `nextTableID`: the counter before its increment. -/
def nextTableID (db : Database) : TableID × Database :=
  (db.nextTableId, { db with nextTableId := db.nextTableId + 1 })

/-- `createTable`. -/
def createTable (name : String) (schema : List ColumnDef) (db : Database) : Status × Database :=
  if DBConstants.MAX_TABLES ≤ db.tables.length then (.OUT_OF_MEMORY, db)
  else if db.hasTable name then (.TABLE_ALREADY_EXISTS, db)
  else
    let (tid, db) := db.nextTableID
    (.OK, { db with
      tables := db.tables ++ [db.heap.next]
      index := db.index.insert name tid
      tableIndex := db.tableIndex.insert tid db.heap.next
      dirty := true
      heap := db.heap.alloc (Table.new name tid schema) })

/-- The loop of `fromJson`. -/
def loadTables (scratch : Scratch) : List Json → EStateM Fault Database (Status × Scratch)
  | [] => return (.OK, scratch)
  | tableJson :: tableJsons => do
    let address := (← get).heap.next
    modify fun db =>
      { db with heap := db.heap.alloc (Table.new "" DBConstants.INVALID_TABLE_ID []) }
    let s ← onTable address (Table.fromJson tableJson)
    if s ≠ .OK then
      deleteTable address
      deleteTables scratch.tables
      return (s, scratch)
    let t ← (← get).heap.read address
    loadTables (scratch.add address t) tableJsons

/-- `fromJson`: the old tables are deleted before the name is read. -/
def fromJson (envelope : Json) : EStateM Fault Database Status := do
  if envelope.isNull then return .PARSE_ERROR
  if DBConstants.MAX_TABLES < (← (← envelope.index "tables").asArray).length then
    return .OUT_OF_MEMORY
  let (s, scratch) ← loadTables Scratch.empty (← (← envelope.index "tables").asArray)
  if s ≠ .OK then return s
  deleteTables (← get).tables
  let name ← (← envelope.index "__db_name__").asString
  modify fun db => { db with
    name := name
    tables := scratch.tables
    index := scratch.index
    tableIndex := scratch.tableIndex
    nextTableId := if scratch.tables.isEmpty then 0 else scratch.maxTableId + 1
    dirty := false }
  return .OK

/-- `load`, given what `readFile` returned. -/
def load [JsonText] : Status × List UInt8 → EStateM Fault Database Status
  | (.OK, raw) => catching .PARSE_ERROR do
    let envelope ← JsonText.parse raw
    if envelope.isNull then return .PARSE_ERROR
    fromJson envelope
  | (s, _) => return s

end Mutation

end Database

end MiniDB.Core
