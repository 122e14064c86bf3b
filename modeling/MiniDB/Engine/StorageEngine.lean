import MiniDB.Common.FileIO
import MiniDB.Core.RoundTrip
import MiniDB.Library.LruCache

/-!
# The page cache

`StorageEngine.cpp`: pages in slots of per-table files behind a least-recently-used cache.
Storing a page into the full cache drops the page used least recently; only `flushPage`
and `evictPage` write. A pointer to a page is valid while the page stays in the cache.
-/

namespace MiniDB.Engine

open MiniDB.Common MiniDB.Common.FileIO MiniDB.JsonPro MiniDB.Core Memory Posix

/-- A storage engine, with the files it works on. -/
structure StorageEngine where
  /-- Root directory of all files. -/
  dataDirectory : String
  /-- The cached pages. -/
  pageCache : LruCache String Page DBConstants.LRU_CACHE_CAP
  /-- The file system. -/
  files : Files

namespace StorageEngine

/-- `StorageEngine(dataDirectory)`. -/
def new (dataDirectory : String) (files : Files) : StorageEngine :=
  ⟨dataDirectory, LruCache.empty, files⟩

/-- `pageFilePath`. -/
def pageFilePath (s : StorageEngine) (tableName : String) : String :=
  s.dataDirectory ++ "/" ++ tableName ++ ".pages"

/-- `cacheKey`. -/
def cacheKey (tableName : String) (id : PageID) : String := tableName ++ "#" ++ toString id.toNat

/-- `isCached`. -/
def isCached (s : StorageEngine) (tableName : String) (id : PageID) : Bool :=
  s.pageCache.contains (cacheKey tableName id)

/-- `getCachedPage`: what the returned pointer points to. -/
def getCachedPage (s : StorageEngine) (tableName : String) (id : PageID) :
    Option Page × StorageEngine :=
  let (page, pageCache) := s.pageCache.get (cacheKey tableName id)
  (page, { s with pageCache })

/-- `cachePage`. -/
def cachePage (s : StorageEngine) (tableName : String) (page : Page) : StorageEngine :=
  { s with pageCache := s.pageCache.put (cacheKey tableName page.getID) page }

section Disk

variable [JsonText]

/-- `writePage`: the status, and the files after the write. -/
def writePage (s : StorageEngine) (tableName : String) (page : Page) (io : Schedule) :
    Except Fault (Status × Files) :=
  writeSlot s.files (s.pageFilePath tableName) page.getID.toUInt64
    (UInt32.ofNat DBConstants.PAGE_SIZE) page.serialize io

/-- `readPageFromDisk`. -/
def readPageFromDisk (s : StorageEngine) (tableName : String) (id : PageID) (out : Page)
    (io : Schedule) : Except Fault (Status × Page) := do
  let (status, payload) ← readSlot s.files (s.pageFilePath tableName) id.toUInt64
    (UInt32.ofNat DBConstants.PAGE_SIZE) io
  if status ≠ .OK then return (status, out)
  match out.deserialize payload with
  | .ok status out => return (status, out)
  | .error fault _ => throw fault

/-- `fetchPage`: what the returned pointer points to. -/
def fetchPage (s : StorageEngine) (tableName : String) (id : PageID) (io : Schedule) :
    Except Fault (Option Page × StorageEngine) := do
  if s.isCached tableName id then return s.getCachedPage tableName id
  let (status, loaded) ← s.readPageFromDisk tableName id (Page.new id) io
  if status ≠ .OK then return (none, s)
  let pageCache := s.pageCache.put (cacheKey tableName id) loaded
  return { s with pageCache }.getCachedPage tableName id

/-- `flushPage`. -/
def flushPage (s : StorageEngine) (tableName : String) (id : PageID) (io : Schedule) :
    Except Fault (Status × StorageEngine) :=
  match s.getCachedPage tableName id with
  | (none, s) => return (.NOT_FOUND, s)
  | (some cached, s) => do
    if !cached.dirty then return (.OK, s)
    let (status, files) ← s.writePage tableName cached io
    if status ≠ .OK then return (status, { s with files })
    return (.OK, { s with
      files
      pageCache := s.pageCache.modify (cacheKey tableName id) fun page =>
        { page with dirty := false } })

/-- `evictPage`. -/
def evictPage (s : StorageEngine) (tableName : String) (id : PageID) (io : Schedule) :
    Except Fault (Status × StorageEngine) := do
  let (status, s) ← s.flushPage tableName id io
  if status = .NOT_FOUND then return (.OK, s)
  if status ≠ .OK then return (status, s)
  return (.OK, { s with pageCache := s.pageCache.erase (cacheKey tableName id) })

end Disk

/-- The operations of a page that change it. -/
inductive PageOp
  | addRecord (record : Record)
  | updateRecord (record : Record)
  | deleteRecord (id : RecordID)
  | compact

/-- What an operation returns and makes of a page. -/
def PageOp.apply : PageOp → Page → Status × Page
  | .addRecord record, page => page.addRecord record
  | .updateRecord record, page => page.updateRecord record
  | .deleteRecord id, page => page.deleteRecord id
  | .compact, page => page.compact

/-- An operation on a page through a pointer into the cache. -/
def onPage (s : StorageEngine) (tableName : String) (id : PageID) (op : PageOp) :
    Except Fault (Status × StorageEngine) :=
  match s.pageCache.peek (cacheKey tableName id) with
  | none => .error .undefined
  | some page => .ok ((op.apply page).1, { s with
      pageCache := s.pageCache.modify (cacheKey tableName id) fun page => (op.apply page).2 })

end StorageEngine

end MiniDB.Engine
