import MiniDB.Core.Table
import MiniDB.Library.Traversal

/-!
# What envelopes decode to

Decoding a page or a table writes it in place, field by field, and can stop anywhere. For
a new page or table this amounts to a partial function of the envelope: decoding succeeds
exactly if every field is present with the right kind, every number is in range and no
page holds more records than it has slots.
-/

namespace MiniDB.Core

open MiniDB.Common MiniDB.JsonPro Memory Traversal

namespace Page

/-- A page whose slots all hold the given records, if there are enough slots. -/
def filled? (id : PageID) (records : List Record) : Option Page :=
  if h : records.length ≤ DBConstants.MAX_RECORDS_PAGE then
    some ⟨id, false, records, ⟨records.length, h⟩, le_rfl⟩
  else none

/-- What an envelope decodes to. -/
def ofEnvelope? (envelope : Json) : Option Page :=
  match envelope.member? "__page_id__", envelope.member? "records" with
  | some (.number id), some (.array entries) =>
    id.toUInt32.toOption.bind fun id =>
      (entries.mapM Record.ofEnvelope?).bind fun records => filled? id records
  | _, _ => none

/-- Pages agree if their observable fields and the number of their slots in use do. -/
theorem eq_of_fields {p p' : Page} (hid : p.id = p'.id) (hdirty : p.dirty = p'.dirty)
    (hrecords : p.records = p'.records) (hused : p.pool.used = p'.pool.used) : p = p' := by
  obtain ⟨id, dirty, records, ⟨used, hle⟩, hrecordsLe⟩ := p
  obtain ⟨id', dirty', records', ⟨used', hle'⟩, hrecordsLe'⟩ := p'
  dsimp only at hid hdirty hrecords hused
  subst hid hdirty hrecords hused
  rfl

/-- A page that decodes is clean, and all of its slots hold records. -/
theorem filled?_eq_some {id : PageID} {records : List Record} {p : Page} :
    filled? id records = some p ↔
      p.id = id ∧ p.dirty = false ∧ p.records = records ∧ p.Exact := by
  unfold filled? Exact
  constructor
  · intro h
    split at h
    · cases h
      exact ⟨rfl, rfl, rfl, rfl⟩
    · cases h
  · rintro ⟨rfl, hdirty, rfl, hused⟩
    rw [dif_pos (hused ▸ p.pool.used_le)]
    exact congrArg some (eq_of_fields rfl hdirty.symm rfl hused.symm)

/-- One entry is decoded into a newly created slot. -/
theorem loadRecords_cons (entry : Json) (entries : List Json) (p : Page) :
    loadRecords (entry :: entries) p =
      match p.pool.create with
      | none => .ok .OUT_OF_MEMORY p
      | some next =>
        match Record.fromJson entry Record.default with
        | .ok .OK slot => loadRecords entries (p.push slot next)
        | .ok status _ => .ok status p
        | .error fault _ => .error fault (p.lose next) := by
  rw [loadRecords]
  change EStateM.bind get _ p = _
  unfold EStateM.bind
  dsimp only [get, getThe, MonadStateOf.get, EStateM.get]
  cases p.pool.create with
  | none => rfl
  | some next =>
    dsimp only
    cases Record.fromJson entry Record.default with
    | error fault slot => rfl
    | ok status slot =>
      cases status with
      | _ => rfl

/-- Entries that decode are added to the page if it has enough free slots. -/
private theorem loadRecords_of_mapM {entries : List Json} {records : List Record}
    (h : entries.mapM Record.ofEnvelope? = some records) {p : Page}
    (hroom : p.pool.used + records.length ≤ DBConstants.MAX_RECORDS_PAGE) :
    ∃ p', loadRecords entries p = .ok .OK p' ∧ p'.id = p.id ∧ p'.dirty = false ∧
      p'.records = p.records ++ records ∧ p'.pool.used = p.pool.used + records.length := by
  induction entries generalizing records p with
  | nil =>
    cases h
    exact ⟨{ p with dirty := false }, rfl, rfl, rfl, (List.append_nil _).symm, rfl⟩
  | cons entry entries ih =>
    obtain ⟨record, rest, hrecord, hrest, rfl⟩ := mapM_cons_eq_some.mp h
    rw [List.length_cons] at hroom
    have hcreate : p.pool.create = some ⟨⟨p.pool.used + 1, by omega⟩, rfl⟩ :=
      dif_pos (by omega)
    obtain ⟨p', hload, hid, hdirty, hrecords, hused⟩ := @ih rest hrest
      (p.push record ⟨⟨p.pool.used + 1, by omega⟩, rfl⟩) (by
        rw [push_used]
        omega)
    refine ⟨p', ?_, hid, hdirty, ?_, ?_⟩
    · rw [loadRecords_cons, hcreate]
      dsimp only
      rw [Record.fromJson_of_some hrecord]
      exact hload
    · rw [hrecords]
      unfold push
      rw [List.append_assoc, List.singleton_append]
    · rw [hused, List.length_cons, push_used]
      omega

/-- Entries that are added to a page decode, and the page had enough free slots. -/
private theorem mapM_of_loadRecords {entries : List Json} {p p' : Page}
    (h : loadRecords entries p = .ok .OK p') :
    ∃ records, entries.mapM Record.ofEnvelope? = some records ∧
      p.pool.used + records.length ≤ DBConstants.MAX_RECORDS_PAGE := by
  induction entries generalizing p with
  | nil => exact ⟨[], rfl, p.pool.used_le⟩
  | cons entry entries ih =>
    rw [loadRecords_cons] at h
    cases hcreate : p.pool.create with
    | none =>
      rw [hcreate] at h
      cases h
    | some next =>
      rw [hcreate] at h
      dsimp only at h
      split at h
      · rename_i record hrecord
        obtain ⟨records, hrecords, hroom⟩ := ih h
        refine ⟨record :: records, ?_, ?_⟩
        · exact mapM_cons_eq_some.mpr
            ⟨record, records, Record.ofEnvelope?_of_fromJson hrecord, hrecords, rfl⟩
        · rw [push_used] at hroom
          rw [List.length_cons]
          omega
      · cases h
        contradiction
      · cases h

/-- Decoding an envelope into a page succeeds exactly if the envelope describes a page whose
records find free slots. They are added to those the page holds. -/
theorem fromJson_into {envelope : Json} {p p' : Page} :
    fromJson envelope p = .ok .OK p' ↔
      ∃ decoded, ofEnvelope? envelope = some decoded ∧
        p.pool.used + decoded.records.length ≤ DBConstants.MAX_RECORDS_PAGE ∧
        p'.id = decoded.id ∧ p'.dirty = false ∧ p'.records = p.records ++ decoded.records ∧
        p'.pool.used = p.pool.used + decoded.records.length := by
  unfold ofEnvelope?
  constructor
  · intro h
    unfold fromJson at h
    split at h
    · cases h
    · obtain ⟨idField, hidField, h⟩ := lift_bind_eq_ok h
      obtain ⟨number, hnumber, h⟩ := lift_bind_eq_ok h
      obtain ⟨pid, hpid, h⟩ := lift_bind_eq_ok h
      rw [modify_bind] at h
      obtain ⟨recordsField, hrecordsField, h⟩ := lift_bind_eq_ok h
      obtain ⟨entries, hentries, h⟩ := lift_bind_eq_ok h
      rw [Json.index_eq_ok] at hidField hrecordsField
      rw [Json.asNumber_eq_ok] at hnumber
      rw [Json.asArray_eq_ok] at hentries
      subst hnumber hentries
      obtain ⟨records, hmapM, hroom⟩ := mapM_of_loadRecords h
      obtain ⟨p₁, hload, hid, hdirty, hrecords, hused⟩ := loadRecords_of_mapM hmapM hroom
      change loadRecords entries _ = _ at h
      rw [hload] at h
      cases h
      change p.pool.used + records.length ≤ _ at hroom
      have hfilled := (@filled?_eq_some pid records ⟨pid, false, records, ⟨records.length,
        by omega⟩, le_rfl⟩).mpr ⟨rfl, rfl, rfl, rfl⟩
      refine ⟨⟨pid, false, records, ⟨records.length, by omega⟩, le_rfl⟩, ?_, hroom, hid, hdirty,
        hrecords, hused⟩
      rw [hidField, hrecordsField]
      dsimp only
      rw [hpid, hmapM, Except.toOption, Option.bind_some, Option.bind_some, hfilled]
  · rintro ⟨decoded, h, hroom, hid, hdirty, hrecords, hused⟩
    split at h
    · rename_i number entries hidField hrecordsField
      cases hpid : number.toUInt32 with
      | error fault =>
        rw [hpid] at h
        cases h
      | ok pid =>
        rw [hpid, Except.toOption, Option.bind_some, Option.bind_eq_some_iff] at h
        obtain ⟨records, hmapM, hfilled⟩ := h
        obtain ⟨hdecodedId, _, hdecodedRecords, _⟩ := filled?_eq_some.mp hfilled
        rw [hdecodedRecords] at hroom hrecords hused
        obtain ⟨p₁, hload, hid₁, hdirty₁, hrecords₁, hused₁⟩ :=
          @loadRecords_of_mapM _ _ hmapM { p with id := pid } hroom
        have hp : p₁ = p' := eq_of_fields (hid₁.trans (hdecodedId.symm.trans hid.symm))
          (hdirty₁.trans hdirty.symm) (hrecords₁.trans hrecords.symm) (hused₁.trans hused.symm)
        unfold fromJson
        rw [if_neg (by rw [Json.isNull_of_member? hidField]; exact Bool.false_ne_true),
          lift_bind_of_ok (Json.index_eq_ok.mpr hidField),
          lift_bind_of_ok (Json.asNumber_eq_ok.mpr rfl), lift_bind_of_ok hpid, modify_bind,
          lift_bind_of_ok (Json.index_eq_ok.mpr hrecordsField),
          lift_bind_of_ok (Json.asArray_eq_ok.mpr rfl), ← hp]
        exact hload
    · cases h

/-- What an envelope describes is clean, and all of its slots hold records. -/
theorem ofEnvelope?_clean {envelope : Json} {decoded : Page}
    (h : ofEnvelope? envelope = some decoded) : decoded.dirty = false ∧ decoded.Exact := by
  unfold ofEnvelope? at h
  split at h
  · obtain ⟨pid, _, h⟩ := Option.bind_eq_some_iff.mp h
    obtain ⟨records, _, h⟩ := Option.bind_eq_some_iff.mp h
    obtain ⟨_, hdirty, _, hexact⟩ := filled?_eq_some.mp h
    exact ⟨hdirty, hexact⟩
  · cases h

/-- A new page decodes an envelope exactly to what the envelope describes. -/
theorem fromJson_eq_ok {envelope : Json} {id : PageID} {p : Page} :
    fromJson envelope (Page.new id) = .ok .OK p ↔ ofEnvelope? envelope = some p := by
  rw [fromJson_into]
  have hnone : (Page.new id).pool.used = 0 := rfl
  constructor
  · rintro ⟨decoded, h, _, hid, hdirty, hrecords, hused⟩
    obtain ⟨hclean, hexact⟩ := ofEnvelope?_clean h
    rw [hnone, Nat.zero_add] at hused
    rw [h, eq_of_fields hid (hdirty.trans hclean.symm) hrecords (hused.trans hexact.symm)]
  · intro h
    obtain ⟨hclean, hexact⟩ := ofEnvelope?_clean h
    have hle := p.pool.used_le
    unfold Exact at hexact
    rw [hnone]
    exact ⟨p, h, by omega, rfl, hclean, rfl, by omega⟩

end Page

namespace Table

/-- What one entry of a schema decodes to. -/
def columnOfJson? (col : Json) : Option ColumnDef :=
  match col.member? "name", col.member? "type", col.member? "nullable" with
  | some (.string name), some (.number type), some (.bool nullable) =>
    type.toInt.toOption.map fun ⟨type, hbounds⟩ => ⟨name, ColumnType.ofInt type hbounds, nullable⟩
  | _, _, _ => none

/-- The accesses that decoding makes to one entry of a schema. -/
def readColumn (col : Json) : Except Fault ColumnDef := do
  let name ← (← col.index "name").asString
  let ⟨type, hbounds⟩ ← (← (← col.index "type").asNumber).toInt
  let nullable ← (← col.index "nullable").asBool
  return ⟨name, ColumnType.ofInt type hbounds, nullable⟩

/-- One column is decoded and added to the schema before the others. -/
theorem loadColumns_cons (col : Json) (cols : List Json) (t : Table) :
    loadColumns (col :: cols) t =
      match readColumn col with
      | .ok first => loadColumns cols { t with schema := t.schema ++ [first] }
      | .error fault => .error fault t := by
  rw [loadColumns]
  unfold readColumn
  simp only [lift_bind, modify_bind]
  cases col.index "name" with
  | error fault => rfl
  | ok nameField =>
    dsimp only [bind, Except.bind]
    cases nameField.asString with
    | error fault => rfl
    | ok name =>
      dsimp only
      cases col.index "type" with
      | error fault => rfl
      | ok typeField =>
        dsimp only
        cases typeField.asNumber with
        | error fault => rfl
        | ok number =>
          dsimp only
          cases number.toInt with
          | error fault => rfl
          | ok type =>
            dsimp only
            cases col.index "nullable" with
            | error fault => rfl
            | ok nullableField =>
              dsimp only
              cases nullableField.asBool with
              | error fault => rfl
              | ok nullable => rfl

/-- The accesses to one entry of a schema succeed exactly if it decodes. -/
theorem readColumn_eq_ok {col : Json} {first : ColumnDef} :
    readColumn col = .ok first ↔ columnOfJson? col = some first := by
  unfold readColumn
  simp only [except_bind_eq_ok, Json.index_eq_ok, Json.asString_eq_ok, Json.asNumber_eq_ok,
    Json.asBool_eq_ok]
  constructor
  · rintro ⟨_, hname, name, rfl, _, htype, number, rfl, type, hvalue, _, hnullable, nullable, rfl,
      hfirst⟩
    unfold columnOfJson?
    rw [hname, htype, hnullable]
    dsimp only
    rw [hvalue]
    cases hfirst
    rfl
  · intro h
    unfold columnOfJson? at h
    split at h
    · rename_i name number nullable hname htype hnullable
      obtain ⟨type, hvalue, rfl⟩ := Option.map_eq_some_iff.mp h
      exact ⟨_, hname, name, rfl, _, htype, number, rfl, type, toOption_eq_some.mp hvalue, _,
        hnullable, nullable, rfl, rfl⟩
    · cases h

/-- The largest identifier of pages, starting from a given one. -/
def maxPageId (start : PageID) (pages : List Page) : PageID :=
  pages.foldl (fun largest p => max largest p.getID) start

section Loading

variable [InsertPolicy]

/-- The table with given fields, a page counter above its pages, and rebuilt indices. -/
def loaded (name : String) (id : TableID) (schema : List ColumnDef) (pages : List Page) : Table :=
  (rebuildIndex { Table.new name id schema with
    pages := pages
    nextPageId := if pages.isEmpty then 0 else maxPageId 0 pages + 1 }).2

/-- What an envelope decodes to. -/
def ofEnvelope? (envelope : Json) : Option Table :=
  match envelope.member? "__table_id___", envelope.member? "__name__", envelope.member? "schema",
    envelope.member? "page" with
  | some (.number id), some (.string name), some (.array cols), some (.array pageJsons) =>
    id.toUInt32.toOption.bind fun id =>
      (cols.mapM columnOfJson?).bind fun schema =>
        (pageJsons.mapM Page.ofEnvelope?).map fun pages => loaded name id schema pages
  | _, _, _, _ => none

end Loading

/-- Columns that decode are added to the schema. -/
private theorem loadColumns_of_mapM {cols : List Json} {schema : List ColumnDef}
    (h : cols.mapM columnOfJson? = some schema) (t : Table) :
    loadColumns cols t = .ok ⟨⟩ { t with schema := t.schema ++ schema } := by
  induction cols generalizing schema t with
  | nil =>
    rw [mapM_nil_eq_some.mp h, List.append_nil]
    rfl
  | cons col cols ih =>
    obtain ⟨first, rest, hfirst, hrest, rfl⟩ := mapM_cons_eq_some.mp h
    rw [loadColumns_cons, readColumn_eq_ok.mpr hfirst]
    dsimp only
    rw [ih hrest, List.append_assoc, List.singleton_append]

/-- Columns that are added to the schema decode. -/
private theorem mapM_of_loadColumns {cols : List Json} {t t' : Table}
    (h : loadColumns cols t = .ok ⟨⟩ t') : ∃ schema, cols.mapM columnOfJson? = some schema := by
  induction cols generalizing t with
  | nil => exact ⟨[], rfl⟩
  | cons col cols ih =>
    rw [loadColumns_cons] at h
    cases hread : readColumn col with
    | error fault =>
      rw [hread] at h
      cases h
    | ok first =>
      rw [hread] at h
      obtain ⟨schema, hschema⟩ := ih h
      exact ⟨first :: schema,
        mapM_cons_eq_some.mpr ⟨first, schema, readColumn_eq_ok.mp hread, hschema, rfl⟩⟩

section Loading

variable [InsertPolicy]

/-- Pages that decode are added to the table, whose counter and indices then follow. -/
private theorem loadPages_of_mapM {pageJsons : List Json} {pages : List Page}
    (h : pageJsons.mapM Page.ofEnvelope? = some pages) (start : PageID) (t : Table) :
    loadPages start pageJsons t = .ok .OK (rebuildIndex { t with
      pages := t.pages ++ pages
      nextPageId := if (t.pages ++ pages).isEmpty then 0 else maxPageId start pages + 1 }).2 := by
  induction pageJsons generalizing pages start t with
  | nil =>
    rw [mapM_nil_eq_some.mp h, List.append_nil]
    rfl
  | cons pageJson pageJsons ih =>
    obtain ⟨first, rest, hfirst, hrest, rfl⟩ := mapM_cons_eq_some.mp h
    rw [loadPages, Page.fromJson_eq_ok.mpr hfirst]
    dsimp only
    rw [modify_bind, ih hrest]
    simp only [List.append_assoc, List.singleton_append]
    rfl

/-- Pages that are added to a table decode. -/
private theorem mapM_of_loadPages {pageJsons : List Json} {start : PageID} {t t' : Table}
    (h : loadPages start pageJsons t = .ok .OK t') :
    ∃ pages, pageJsons.mapM Page.ofEnvelope? = some pages := by
  induction pageJsons generalizing start t with
  | nil => exact ⟨[], rfl⟩
  | cons pageJson pageJsons ih =>
    rw [loadPages] at h
    cases hdecode : Page.fromJson pageJson (Page.new DBConstants.INVALID_PAGE_ID) with
    | error fault p =>
      rw [hdecode] at h
      cases h
    | ok status p =>
      rw [hdecode] at h
      by_cases hstatus : status = .OK
      · subst hstatus
        dsimp only at h
        rw [modify_bind] at h
        obtain ⟨pages, hpages⟩ := ih h
        refine ⟨p :: pages, mapM_cons_eq_some.mpr ⟨p, pages, ?_, hpages, rfl⟩⟩
        exact Page.fromJson_eq_ok.mp hdecode
      · cases status with
        | OK => contradiction
        | _ => cases h

/-- The table with the fields of a decoded one, whose pages are added to its own. -/
def into (t decoded : Table) : Table :=
  (rebuildIndex { t with
    id := decoded.id
    name := decoded.name
    schema := decoded.schema
    pages := t.pages ++ decoded.pages
    nextPageId := if (t.pages ++ decoded.pages).isEmpty then 0
      else maxPageId 0 decoded.pages + 1 }).2

/-- Decoding an envelope into a table succeeds exactly if the envelope describes one, whose
pages are then added to those the table has. -/
theorem fromJson_into {envelope : Json} {t t' : Table} :
    fromJson envelope t = .ok .OK t' ↔
      ∃ decoded, ofEnvelope? envelope = some decoded ∧ t' = t.into decoded := by
  unfold ofEnvelope?
  constructor
  · intro h
    unfold fromJson at h
    split at h
    · cases h
    · obtain ⟨idField, hidField, h⟩ := lift_bind_eq_ok h
      obtain ⟨number, hnumber, h⟩ := lift_bind_eq_ok h
      obtain ⟨tid, htid, h⟩ := lift_bind_eq_ok h
      rw [modify_bind] at h
      obtain ⟨nameField, hnameField, h⟩ := lift_bind_eq_ok h
      obtain ⟨newName, hnewName, h⟩ := lift_bind_eq_ok h
      rw [modify_bind] at h
      obtain ⟨schemaField, hschemaField, h⟩ := lift_bind_eq_ok h
      obtain ⟨cols, hcols, h⟩ := lift_bind_eq_ok h
      obtain ⟨_, t₁, hcolumns, h⟩ := bind_eq_ok h
      obtain ⟨pageField, hpageField, h⟩ := lift_bind_eq_ok h
      obtain ⟨pageJsons, hpageJsons, h⟩ := lift_bind_eq_ok h
      rw [Json.index_eq_ok] at hidField hnameField hschemaField hpageField
      rw [Json.asNumber_eq_ok] at hnumber
      rw [Json.asString_eq_ok] at hnewName
      rw [Json.asArray_eq_ok] at hcols hpageJsons
      subst hnumber hnewName hcols hpageJsons
      obtain ⟨schema, hschema⟩ := mapM_of_loadColumns hcolumns
      obtain ⟨pages, hpages⟩ := mapM_of_loadPages h
      rw [loadColumns_of_mapM hschema] at hcolumns
      cases hcolumns
      change loadPages 0 pageJsons _ = _ at h
      rw [loadPages_of_mapM hpages] at h
      cases h
      refine ⟨loaded newName tid schema pages, ?_, rfl⟩
      rw [hidField, hnameField, hschemaField, hpageField]
      dsimp only
      rw [htid, hschema, hpages]
      rfl
  · rintro ⟨decoded, h, rfl⟩
    split at h
    · rename_i number newName cols pageJsons hidField hnameField hschemaField hpageField
      cases htid : number.toUInt32 with
      | error fault =>
        rw [htid] at h
        cases h
      | ok tid =>
        rw [htid, Except.toOption, Option.bind_some, Option.bind_eq_some_iff] at h
        obtain ⟨schema, hschema, h⟩ := h
        rw [Option.map_eq_some_iff] at h
        obtain ⟨pages, hpages, rfl⟩ := h
        unfold fromJson
        rw [if_neg (by rw [Json.isNull_of_member? hidField]; exact Bool.false_ne_true),
          lift_bind_of_ok (Json.index_eq_ok.mpr hidField),
          lift_bind_of_ok (Json.asNumber_eq_ok.mpr rfl), lift_bind_of_ok htid, modify_bind,
          lift_bind_of_ok (Json.index_eq_ok.mpr hnameField),
          lift_bind_of_ok (Json.asString_eq_ok.mpr rfl), modify_bind,
          lift_bind_of_ok (Json.index_eq_ok.mpr hschemaField),
          lift_bind_of_ok (Json.asArray_eq_ok.mpr rfl), bind_of_ok (loadColumns_of_mapM hschema _),
          lift_bind_of_ok (Json.index_eq_ok.mpr hpageField),
          lift_bind_of_ok (Json.asArray_eq_ok.mpr rfl), loadPages_of_mapM hpages]
        rfl
    · cases h

/-- Decoding into a new table gives the decoded one. -/
theorem into_new {envelope : Json} {decoded : Table} (h : ofEnvelope? envelope = some decoded)
    (name : String) (id : TableID) (columns : List ColumnDef) :
    (Table.new name id columns).into decoded = decoded := by
  unfold ofEnvelope? at h
  split at h
  · obtain ⟨tid, _, h⟩ := Option.bind_eq_some_iff.mp h
    obtain ⟨schema, _, h⟩ := Option.bind_eq_some_iff.mp h
    obtain ⟨pages, _, rfl⟩ := Option.map_eq_some_iff.mp h
    rfl
  · cases h

/-- A new table decodes an envelope exactly to what the envelope describes. -/
theorem fromJson_eq_ok {envelope : Json} {name : String} {id : TableID}
    {columns : List ColumnDef} {t : Table} :
    fromJson envelope (Table.new name id columns) = .ok .OK t ↔
      ofEnvelope? envelope = some t := by
  rw [fromJson_into]
  constructor
  · rintro ⟨decoded, h, rfl⟩
    rw [into_new h, h]
  · intro h
    exact ⟨t, h, (into_new h name id columns).symm⟩

end Loading

end Table

end MiniDB.Core
