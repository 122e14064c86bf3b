import MiniDB.Core.Page
import MiniDB.Library.FiniteMap

/-!
# Tables

`Table.cpp`: pages in order of creation, an index from live record identifiers to page
identifiers, and an index from page identifiers to pages. A pointer to a page of the table
is its position in the page vector, from which pages are never removed.
-/

namespace MiniDB.Core

open MiniDB.Common MiniDB.JsonPro Memory

/-- A table. -/
structure Table where
  /-- Table name. -/
  name : String
  /-- Table identifier. -/
  id : TableID
  /-- Column schema. -/
  schema : List ColumnDef
  /-- The pages, in order of creation. -/
  pages : List Page
  /-- The page of each live record. -/
  index : FiniteMap RecordID PageID
  /-- The page with each identifier. -/
  pageIndex : FiniteMap PageID ℕ
  /-- The identifier of the next page. -/
  nextPageId : PageID
  /-- Whether the table has unsaved changes. -/
  dirty : Bool

namespace Table

/-- `Table(name, id, schema)`. -/
def new (name : String) (id : TableID) (schema : List ColumnDef) : Table :=
  ⟨name, id, schema, [], FiniteMap.empty, FiniteMap.empty, 0, false⟩

/-- `getName`. -/
def getName (t : Table) : String := t.name

/-- `getID`. -/
def getID (t : Table) : TableID := t.id

/-- `getSchema`. -/
def getSchema (t : Table) : List ColumnDef := t.schema

/-- `getPages`. -/
def getPages (t : Table) : List Page := t.pages

/-- `isDirty`. -/
def isDirty (t : Table) : Bool := t.dirty

/-- `recordCount`: the counts of the pages added up. -/
def recordCount (t : Table) : ℕ := t.pages.foldl (fun count p => count + p.recordCount) 0

/-- The table with the page at a position replaced. -/
def setPage (t : Table) (position : ℕ) (page : Page) : Table :=
  { t with pages := t.pages.set position page }

/-- `findPageByID`: the position of the page and the page itself. -/
def findPageByID (t : Table) (id : PageID) : Option (ℕ × Page) :=
  match t.pageIndex.get? id with
  | none => none
  | some position => t.pages[position]?.map fun page => (position, page)

section Mutation

variable [InsertPolicy]

/-- `nextPageID`: the counter before its increment. -/
def nextPageID (t : Table) : PageID × Table :=
  (t.nextPageId, { t with nextPageId := t.nextPageId + 1 })

/-- `findPageWithSlot`: the first page that is not full, or a new page behind the others. -/
def findPageWithSlot (t : Table) : ℕ × Table :=
  match t.pages.findIdx? fun p => !p.isFull with
  | some position => (position, t)
  | none =>
    let (id, t) := t.nextPageID
    (t.pages.length, { t with
      pages := t.pages ++ [Page.new id]
      pageIndex := t.pageIndex.insert id t.pages.length })

/-- `insertRecord`. -/
def insertRecord (t : Table) (record : Record) : Status × Table :=
  match record.validate t.schema with
  | .OK =>
    if t.index.contains record.getID then (.DUPLICATE_KEY, t)
    else
      let (position, t) := t.findPageWithSlot
      match t.pages[position]? with
      | none => (.OUT_OF_MEMORY, t)
      | some page =>
        match page.addRecord record with
        | (.OK, page) =>
          (.OK, { t.setPage position page with
            index := t.index.insert record.getID page.getID
            dirty := true })
        | (s, page) => (s, t.setPage position page)
  | s => (s, t)

/-- `getRecord`; `out` is overwritten on success. -/
def getRecord (t : Table) (id : RecordID) (out : Record) : Status × Record :=
  match t.index.get? id with
  | none => (.NOT_FOUND, out)
  | some pid =>
    match t.findPageByID pid with
    | none => (.NOT_FOUND, out)
    | some (_, page) =>
      match page.getRecord id with
      | none => (.NOT_FOUND, out)
      | some r => (.OK, r)

/-- `updateRecord`. -/
def updateRecord (t : Table) (record : Record) : Status × Table :=
  match record.validate t.schema with
  | .OK =>
    match t.index.get? record.getID with
    | none => (.NOT_FOUND, t)
    | some pid =>
      match t.findPageByID pid with
      | none => (.NOT_FOUND, t)
      | some (position, page) =>
        match page.updateRecord record with
        | (.OK, page) => (.OK, { t.setPage position page with dirty := true })
        | (s, page) => (s, t.setPage position page)
  | s => (s, t)

/-- `deleteRecord`. -/
def deleteRecord (t : Table) (id : RecordID) : Status × Table :=
  match t.index.get? id with
  | none => (.NOT_FOUND, t)
  | some pid =>
    match t.findPageByID pid with
    | none => (.NOT_FOUND, t)
    | some (position, page) =>
      match page.deleteRecord id with
      | (.OK, page) =>
        (.OK, { t.setPage position page with index := t.index.erase id, dirty := true })
      | (s, page) => (s, t.setPage position page)

/-- The loop of `compact`. -/
def compactPages : List Page → Status × List Page
  | [] => (.OK, [])
  | page :: pages =>
    match page.compact with
    | (.OK, page) =>
      let (s, pages) := compactPages pages
      (s, page :: pages)
    | (s, page) => (s, page :: pages)

/-- `compact`. -/
def compact (t : Table) : Status × Table :=
  match compactPages t.pages with
  | (.OK, pages) => (.OK, { t with pages, dirty := false })
  | (s, pages) => (s, { t with pages })

/-- The inner loop of `rebuildIndex`: the live records of one page. -/
def indexRecords (pid : PageID) (index : FiniteMap RecordID PageID) :
    List Record → FiniteMap RecordID PageID
  | [] => index
  | r :: records =>
    indexRecords pid (if !r.isDeleted then index.insert r.getID pid else index) records

/-- The outer loop of `rebuildIndex`, from the page at `position` on. -/
def indexPages (position : ℕ) (index : FiniteMap RecordID PageID)
    (pageIndex : FiniteMap PageID ℕ) :
    List Page → FiniteMap RecordID PageID × FiniteMap PageID ℕ
  | [] => (index, pageIndex)
  | page :: pages =>
    indexPages (position + 1) (indexRecords page.getID index page.records)
      (pageIndex.insert page.getID position) pages

/-- `rebuildIndex`. -/
def rebuildIndex (t : Table) : Status × Table :=
  let (index, pageIndex) := indexPages 0 FiniteMap.empty FiniteMap.empty t.pages
  (.OK, { t with index, pageIndex })

end Mutation

/-- One column of `toJson`. -/
def columnToJson (col : ColumnDef) : Json :=
  .object [("name", .string col.name), ("type", .ofInt col.type.toInt),
    ("nullable", .bool col.nullable)]

/-- `toJson`. -/
def toJson (t : Table) : Json :=
  .object [("__table_id___", .ofInt (toInt32 t.id.toNat)), ("__name__", .string t.name),
    ("schema", .array (t.schema.map columnToJson)), ("page", .array (t.pages.map Page.toJson))]

/-- The loop of `fromJson` over the columns. -/
def loadColumns : List Json → EStateM Fault Table Unit
  | [] => return
  | col :: cols => do
    let name ← (← col.index "name").asString
    let type ← (← (← col.index "type").asNumber).toInt
    let nullable ← (← col.index "nullable").asBool
    modify fun t =>
      { t with schema := t.schema ++ [⟨name, ColumnType.ofInt type.val type.property, nullable⟩] }
    loadColumns cols

section Loading

variable [InsertPolicy]

/-- The loop of `fromJson` over the pages and what follows it; `maxPageId` is the largest
page identifier so far. A page whose decoding fails is not added. -/
def loadPages (maxPageId : PageID) : List Json → EStateM Fault Table Status
  | [] => do
    modify fun t => { t with nextPageId := if t.pages.isEmpty then 0 else maxPageId + 1 }
    let (s, t) := (← get).rebuildIndex
    set t
    return s
  | pageJson :: pageJsons => do
    match Page.fromJson pageJson (Page.new DBConstants.INVALID_PAGE_ID) with
    | .ok .OK p =>
      modify fun t => { t with pages := t.pages ++ [p] }
      loadPages (max maxPageId p.getID) pageJsons
    | .ok s _ => return s
    | .error fault _ => throw fault

/-- `fromJson`: the decoded pages are added to those of the table. -/
def fromJson (envelope : Json) : EStateM Fault Table Status := do
  if envelope.isNull then return .PARSE_ERROR
  let id ← (← (← envelope.index "__table_id___").asNumber).toUInt32
  modify fun t => { t with id }
  let name ← (← envelope.index "__name__").asString
  modify fun t => { t with name, schema := [] }
  loadColumns (← (← envelope.index "schema").asArray)
  loadPages 0 (← (← envelope.index "page").asArray)

section Text

variable [JsonText]

/-- `serialize`. -/
def serialize (t : Table) : List UInt8 := JsonText.dump t.toJson

/-- `deserialize`. -/
def deserialize (raw : List UInt8) : EStateM Fault Table Status :=
  catching .PARSE_ERROR do
    let envelope ← JsonText.parse raw
    if envelope.isNull then return .PARSE_ERROR
    fromJson envelope

end Text

end Loading

end Table

end MiniDB.Core
