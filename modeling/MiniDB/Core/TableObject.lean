import MiniDB.Core.SchemaValidity
import MiniDB.Library.Heap

/-!
# Tables with their pages behind pointers

`Table.cpp` once more: the pages are created with `new` in a memory that tables share, held by
pointers and deleted with the table. A page under construction is abandoned when an exception
passes through.
-/

namespace MiniDB.Core

open MiniDB.Common MiniDB.JsonPro Memory

/-- A table, with the memory its pages live in. -/
structure TableObject where
  /-- Table name. -/
  name : String
  /-- Table identifier. -/
  id : TableID
  /-- Column schema. -/
  schema : List ColumnDef
  /-- The pages, in order of creation. -/
  pages : List Address
  /-- The page of each live record. -/
  index : FiniteMap RecordID PageID
  /-- The page with each identifier. -/
  pageIndex : FiniteMap PageID Address
  /-- The identifier of the next page. -/
  nextPageId : PageID
  /-- Whether the table has unsaved changes. -/
  dirty : Bool
  /-- The memory. -/
  heap : Heap Page

/-- What a move leaves in the members of a table that hold no pointers; it is not specified. -/
structure Remains where
  /-- What is left of the name. -/
  name : String
  /-- What is left of the schema. -/
  schema : List ColumnDef
  /-- What is left of the index. -/
  index : FiniteMap RecordID PageID

namespace TableObject

/-- `Table(name, id, schema)`. -/
def new (name : String) (id : TableID) (schema : List ColumnDef) (heap : Heap Page) : TableObject :=
  ⟨name, id, schema, [], FiniteMap.empty, FiniteMap.empty, 0, false, heap⟩

/-- A call on the page at an address. -/
def onPage {α : Type} (page : Address) (action : EStateM Fault Page α) :
    EStateM Fault TableObject α := fun t =>
  match t.heap.read page with
  | .error fault => .error fault t
  | .ok p =>
    match action p with
    | .ok value p =>
      match t.heap.write page p with
      | .error fault => .error fault t
      | .ok heap => .ok value { t with heap }
    | .error fault p =>
      match t.heap.write page p with
      | .error _ => .error fault t
      | .ok heap => .error fault { t with heap }

/-- `delete` of a page. -/
def deletePage (page : Address) : EStateM Fault TableObject Unit := fun t =>
  match t.heap.free page with
  | .error fault => .error fault t
  | .ok heap => .ok () { t with heap }

/-- `delete` of every page of a vector. -/
def deletePages : List Address → EStateM Fault TableObject Unit
  | [] => return
  | page :: pages => do
    deletePage page
    deletePages pages

/-- `~Table()`. -/
def destroy : EStateM Fault TableObject Unit := do deletePages (← get).pages

/-- What becomes of a table that is moved from: no page is left to it. -/
def movedFrom (other : TableObject) (left : Remains) : TableObject :=
  { other with
    name := left.name
    id := DBConstants.INVALID_TABLE_ID
    schema := left.schema
    pages := []
    index := left.index
    pageIndex := FiniteMap.empty
    nextPageId := 0
    dirty := false }

/-- `Table(Table&&)`: the new table, and what becomes of the other one. -/
def moveConstruct (other : TableObject) (left : Remains) : TableObject × TableObject :=
  (other, other.movedFrom left)

/-- `operator=(Table&&)` from another table, and what becomes of that one. -/
def moveAssign (other : TableObject) (left : Remains) : EStateM Fault TableObject TableObject := do
  deletePages (← get).pages
  modify fun t => { other with heap := t.heap }
  return other.movedFrom left

/-- `findPageByID`. -/
def findPageByID (t : TableObject) (id : PageID) : Option Address := t.pageIndex.get? id

/-- `getRecord`; `out` is overwritten on success. -/
def getRecord (t : TableObject) (id : RecordID) (out : Record) :
    Except Fault (Status × Record) := do
  match t.index.get? id with
  | none => return (.NOT_FOUND, out)
  | some pid =>
    match t.findPageByID pid with
    | none => return (.NOT_FOUND, out)
    | some page =>
      match (← t.heap.read page).getRecord id with
      | none => return (.NOT_FOUND, out)
      | some r => return (.OK, r)

/-- `updateRecord`. -/
def updateRecord (record : Record) : EStateM Fault TableObject Status := do
  match record.validate (← get).schema with
  | .OK =>
    match (← get).index.get? record.getID with
    | none => return .NOT_FOUND
    | some pid =>
      match (← get).findPageByID pid with
      | none => return .NOT_FOUND
      | some page =>
        let s ← onPage page (modifyGet fun p => p.updateRecord record)
        if s ≠ .OK then return s
        modify fun t => { t with dirty := true }
        return .OK
  | s => return s

/-- `deleteRecord`. -/
def deleteRecord (id : RecordID) : EStateM Fault TableObject Status := do
  match (← get).index.get? id with
  | none => return .NOT_FOUND
  | some pid =>
    match (← get).findPageByID pid with
    | none => return .NOT_FOUND
    | some page =>
      let s ← onPage page (modifyGet fun p => p.deleteRecord id)
      if s ≠ .OK then return s
      modify fun t => { t with index := t.index.erase id, dirty := true }
      return .OK

/-- The loop of `compact`. -/
def compactPages : List Address → EStateM Fault TableObject Status
  | [] => return .OK
  | page :: pages => do
    let s ← onPage page (modifyGet Page.compact)
    if s ≠ .OK then return s
    compactPages pages

/-- `compact`. -/
def compact : EStateM Fault TableObject Status := do
  let s ← compactPages (← get).pages
  if s ≠ .OK then return s
  modify fun t => { t with dirty := false }
  return .OK

/-- `toJson`. -/
def toJson (t : TableObject) : Except Fault Json := do
  let pages ← t.pages.mapM t.heap.read
  return .object [("__table_id___", .ofInt (toInt32 t.id.toNat)), ("__name__", .string t.name),
    ("schema", .array (t.schema.map Table.columnToJson)), ("page", .array (pages.map Page.toJson))]

/-- The loop of `fromJson` over the columns. -/
def loadColumns : List Json → EStateM Fault TableObject Unit
  | [] => return
  | col :: cols => do
    let name ← (← col.index "name").asString
    let ⟨type, htype⟩ ← (← (← col.index "type").asNumber).toInt
    let nullable ← (← col.index "nullable").asBool
    modify fun t => { t with schema := t.schema ++ [⟨name, ColumnType.ofInt type htype, nullable⟩] }
    loadColumns cols

section Mutation

variable [InsertPolicy]

/-- `nextPageID`: the counter before its increment. -/
def nextPageID (t : TableObject) : PageID × TableObject :=
  (t.nextPageId, { t with nextPageId := t.nextPageId + 1 })

/-- The loop of `findPageWithSlot`. -/
def firstPageWithSlot : List Address → EStateM Fault TableObject (Option Address)
  | [] => return none
  | page :: pages => do
    if !(← (← get).heap.read page).isFull then return some page
    firstPageWithSlot pages

/-- `findPageWithSlot`: the first page that is not full, or a new page behind the others. -/
def findPageWithSlot : EStateM Fault TableObject Address := do
  match ← firstPageWithSlot (← get).pages with
  | some page => return page
  | none =>
    let id ← modifyGet nextPageID
    let page := (← get).heap.next
    modify fun t => { t with heap := t.heap.alloc (Page.new id), pages := t.pages ++ [page] }
    let p ← (← get).heap.read page
    modify fun t => { t with pageIndex := t.pageIndex.insert p.getID page }
    return page

/-- `insertRecord`. -/
def insertRecord (record : Record) : EStateM Fault TableObject Status := do
  match record.validate (← get).schema with
  | .OK =>
    if (← get).index.contains record.getID then return .DUPLICATE_KEY
    let page ← findPageWithSlot
    let s ← onPage page (modifyGet fun p => p.addRecord record)
    if s ≠ .OK then return s
    let p ← (← get).heap.read page
    modify fun t => { t with index := t.index.insert record.getID p.getID, dirty := true }
    return .OK
  | s => return s

/-- The outer loop of `rebuildIndex`. -/
def indexPages : List Address → EStateM Fault TableObject Unit
  | [] => return
  | page :: pages => do
    let p ← (← get).heap.read page
    modify fun t => { t with
      pageIndex := t.pageIndex.insert p.getID page
      index := Table.indexRecords p.getID t.index p.records }
    indexPages pages

/-- `rebuildIndex`. -/
def rebuildIndex : EStateM Fault TableObject Status := do
  modify fun t => { t with index := FiniteMap.empty, pageIndex := FiniteMap.empty }
  indexPages (← get).pages
  return .OK

/-- The loop of `fromJson` over the pages and what follows it; `maxPageId` is the largest
page identifier so far. An exception passes by the `delete`. -/
def loadPages (maxPageId : PageID) : List Json → EStateM Fault TableObject Status
  | [] => do
    modify fun t => { t with nextPageId := if t.pages.isEmpty then 0 else maxPageId + 1 }
    rebuildIndex
  | pageJson :: pageJsons => do
    let page := (← get).heap.next
    modify fun t => { t with heap := t.heap.alloc (Page.new DBConstants.INVALID_PAGE_ID) }
    let s ← onPage page (Page.fromJson pageJson)
    if s ≠ .OK then
      deletePage page
      return s
    let p ← (← get).heap.read page
    modify fun t => { t with pages := t.pages ++ [page] }
    loadPages (max maxPageId p.getID) pageJsons

/-- `fromJson`: the decoded pages are added to those of the table. -/
def fromJson (envelope : Json) : EStateM Fault TableObject Status := do
  if envelope.isNull then return .PARSE_ERROR
  let id ← (← (← envelope.index "__table_id___").asNumber).toUInt32
  modify fun t => { t with id }
  let name ← (← envelope.index "__name__").asString
  modify fun t => { t with name, schema := [] }
  loadColumns (← (← envelope.index "schema").asArray)
  loadPages 0 (← (← envelope.index "page").asArray)

/-- One call that is no load. -/
def call : TableCall → EStateM Fault TableObject TableResponse
  | .insertRecord record => return .status (← insertRecord record)
  | .updateRecord record => return .status (← updateRecord record)
  | .deleteRecord id => return .status (← deleteRecord id)
  | .getRecord id out => do
    let (s, out) ← (← get).getRecord id out
    return .record s out
  | .compact => return .status (← compact)
  | .rebuildIndex => return .status (← rebuildIndex)

/-- `deserialize`. -/
def deserialize [JsonText] (raw : List UInt8) : EStateM Fault TableObject Status :=
  catching .PARSE_ERROR do
    let envelope ← JsonText.parse raw
    if envelope.isNull then return .PARSE_ERROR
    fromJson envelope

/-- What a decoding call leaves to its caller. -/
def loadResponse : EStateM.Result Fault TableObject Status →
    Except Fault (StoreResponse × TableObject)
  | .ok s t => .ok (.status s, t)
  | .error .exception t => .ok (.exception, t)
  | .error .undefined _ => .error .undefined

/-- One call. -/
def storeCall [JsonText] (t : TableObject) :
    StoreCall → Except Fault (StoreResponse × TableObject)
  | .table c =>
    match call c t with
    | .ok response t => .ok (.table response, t)
    | .error fault _ => .error fault
  | .fromJson envelope => loadResponse (fromJson envelope t)
  | .deserialize raw => loadResponse (deserialize raw t)

end Mutation

end TableObject

end MiniDB.Core
