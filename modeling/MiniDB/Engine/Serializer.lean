import MiniDB.Core.Database
import MiniDB.Core.TableOperations

/-!
# Export and import of tables

`Serializer.cpp`: a table is exported as one flat array of its live records' data, each
with its identifier added under the key `id`. Importing inserts the entries one after the
other; an entry without a number under `id` is numbered by its position.
-/

namespace MiniDB.Engine

open MiniDB.Common MiniDB.JsonPro MiniDB.Core Memory

/-- One exported entry: the data with the identifier stored under `id`. -/
def exportEntry (r : Record) : Except Fault Json := r.data.set "id" (.ofInt (toInt32 r.getID.toNat))

/-- The loop of `exportTableToJson`. -/
def exportRecords : List Record → Except Fault (List Json)
  | [] => return []
  | r :: records => do
    if r.isDeleted then exportRecords records
    else
      let entry ← exportEntry r
      return entry :: (← exportRecords records)

/-- `exportTableToJson`. -/
def exportTableToJson [JsonText] (t : Table) : Except Fault (List UInt8) := do
  return JsonText.dump (.array (← exportRecords (t.getPages.flatMap Page.records)))

/-- The loop of `exportDatabaseToJson` over the tables. -/
def exportTables (envelope : Json) : List Table → Except Fault Json
  | [] => return envelope
  | t :: tables => do
    let entries ← exportRecords (t.getPages.flatMap Page.records)
    exportTables (← envelope.set t.getName (.array entries)) tables

/-- What `exportDatabaseToJson` writes to the file. -/
def exportDatabaseToJson [JsonText] (db : Database) : Except Fault (List UInt8) := do
  return JsonText.dump (← exportTables Json.emptyObject (← db.tables.mapM db.heap.read))

/-- The record of one imported entry: a number under `id` is taken out as the identifier. -/
def entryRecord (nextId : RecordID) (entry : Json) : Except Fault Record :=
  match entry.member? "id" with
  | some (.number value) => do
    let id ← value.toUInt64
    return Record.new id (← entry.eraseMember "id")
  | _ => .ok (Record.new nextId entry)

section Importing

variable [InsertPolicy]

/-- The loop of `importTableFromJson`; `nextId` numbers the entries by position. -/
def importEntries (nextId : RecordID) : List Json → EStateM Fault Table Status
  | [] => return .OK
  | entry :: entries => do
    let r ← entryRecord nextId entry
    let s ← modifyGet fun t => t.insertRecord r
    if s ≠ .OK then return s
    importEntries (nextId + 1) entries

/-- `importTableFromJson` of a parsed value. -/
def importTable (parsed : Json) : EStateM Fault Table Status := do
  if parsed.isNull then return .PARSE_ERROR
  if !parsed.isArray then return .PARSE_ERROR
  importEntries 0 (← parsed.asArray)

/-- `importTableFromJson` of a text. -/
def importTableFromJson [JsonText] (json : List UInt8) : EStateM Fault Table Status := do
  let parsed ← JsonText.parse json
  importTable parsed

/-- `importTableFromFile`, given what `readFile` returned. -/
def importTableFromFile [JsonText] : Status × List UInt8 → EStateM Fault Table Status
  | (.OK, raw) => importTableFromJson raw
  | (s, _) => return s

/-- The loop of `importDatabaseFromJson`; names without a table are skipped. -/
def importTables : List (String × Json) → EStateM Fault Database Status
  | [] => return .OK
  | (tableName, tableData) :: members => do
    if !(← get).hasTable tableName then importTables members
    else
      match (← get).getTable tableName with
      | none => importTables members
      | some address =>
        let s ← Database.onTable address (importTable tableData)
        if s ≠ .OK then return s
        importTables members

/-- `importDatabaseFromJson`, given what `readFile` returned. -/
def importDatabaseFromJson [JsonText] : Status × List UInt8 → EStateM Fault Database Status
  | (.OK, raw) => do
    let envelope ← JsonText.parse raw
    if envelope.isNull then return .PARSE_ERROR
    importTables (← envelope.asObject)
  | (s, _) => return s

end Importing

/-- The data that an import after an export stores: no member is left under `id`. -/
def withoutId : Json → Json
  | .object members => .object (members.filter fun member => member.1 ≠ "id")
  | other => other

/-- A stored member is found. -/
theorem lookup_setMember (key : String) (value : Json) (members : List (String × Json)) :
    (Json.setMember key value members).lookup key = some value := by
  induction members with
  | nil => simp [Json.setMember]
  | cons member members ih =>
    obtain ⟨name, old⟩ := member
    unfold Json.setMember
    by_cases hname : name = key
    · rw [if_pos hname]
      simp
    · have hne : (key == name) = false := by
        simpa using fun heq : key = name => hname heq.symm
      rw [if_neg hname, List.lookup_cons, hne]
      exact ih

/-- Erasing a key undoes storing under it. -/
theorem filter_setMember (key : String) (value : Json) (members : List (String × Json)) :
    ((Json.setMember key value members).filter fun member => member.1 ≠ key) =
      members.filter fun member => member.1 ≠ key := by
  induction members with
  | nil => simp [Json.setMember]
  | cons member members ih =>
    obtain ⟨name, old⟩ := member
    unfold Json.setMember
    by_cases hname : name = key
    · rw [if_pos hname, List.filter_cons_of_neg (by simp),
        List.filter_cons_of_neg (by simp [hname])]
    · rw [if_neg hname, List.filter_cons_of_pos (by simpa using hname),
        List.filter_cons_of_pos (by simpa using hname), ih]

/-- Only the data of objects can be exported. -/
theorem isObject_of_exportEntry {r : Record} {entry : Json} (h : exportEntry r = .ok entry) :
    r.data.isObject = true := by
  unfold exportEntry Json.set at h
  cases hdata : r.data with
  | object members => rfl
  | _ =>
    rw [hdata] at h
    cases h

/-- The record of an exported entry has the identifier that its reduction to an `int` is read
back as. -/
theorem entryRecord_exportEntry {r : Record} (hobject : r.data.isObject = true) :
    ∃ entry, exportEntry r = .ok entry ∧ ∀ nextId, entryRecord nextId entry =
      (Double.ofInt (toInt32 r.id.toNat)).toUInt64.map fun id =>
        Record.new id (withoutId r.data) := by
  cases hdata : r.data with
  | object members =>
    refine ⟨.object (Json.setMember "id" (.ofInt (toInt32 r.id.toNat)) members), ?_, ?_⟩
    · unfold exportEntry Json.set
      rw [hdata]
      rfl
    · intro nextId
      have hmember : (Json.object
          (Json.setMember "id" (.ofInt (toInt32 r.id.toNat)) members)).member? "id" =
            some (.number (Double.ofInt (toInt32 r.id.toNat))) :=
        lookup_setMember "id" _ members
      unfold entryRecord
      rw [hmember]
      dsimp only
      cases (Double.ofInt (toInt32 r.id.toNat)).toUInt64 with
      | error fault => rfl
      | ok id =>
        have herase : (Json.object
            (Json.setMember "id" (.ofInt (toInt32 r.id.toNat)) members)).eraseMember "id" =
              .ok (withoutId (.object members)) :=
          congrArg (fun kept => Except.ok (Json.object kept)) (filter_setMember "id" _ members)
        rw [herase]
        rfl
  | _ =>
    rw [hdata] at hobject
    cases hobject

/-- Exporting succeeds exactly if every live record can be exported, and yields their entries
in order. -/
theorem exportRecords_eq (records : List Record) :
    exportRecords records = (records.filter fun r => !r.isDeleted).mapM exportEntry := by
  induction records with
  | nil => rfl
  | cons r records ih =>
    unfold exportRecords
    cases hdeleted : r.isDeleted with
    | true => rw [if_pos rfl, List.filter_cons_of_neg (by simp [hdeleted]), ih]
    | false =>
      rw [if_neg Bool.false_ne_true, List.filter_cons_of_pos (by simp [hdeleted]),
        List.mapM_cons, ih]

/-- Exporting a table exports its live records. -/
theorem exportRecords_pages (t : Table) :
    exportRecords (t.getPages.flatMap Page.records) = t.liveRecords.mapM exportEntry := by
  rw [exportRecords_eq, List.filter_flatMap]
  rfl

end MiniDB.Engine
