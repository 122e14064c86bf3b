import MiniDB.Core.DatabaseIdentity
import MiniDB.Core.Document
import MiniDB.Core.TableWiring

/-!
# What a load establishes

A load builds pages, tables and their indices side by side and compares nothing. What it
leaves is a tree whose lookups find what its scans see if and only if the names and the
identifiers that the document gives are distinct wherever the tree needs them to be.
-/

namespace MiniDB.Core

open MiniDB.Common MiniDB.JsonPro Memory Traversal

namespace Table

/-- The live record with an identifier that a scan of the pages finds. -/
def scan (t : Table) (id : RecordID) : Option Record := t.liveRecords.find? fun r => r.id = id

/-- The pages of a table and the live records on them are distinct, and looking a record up
finds exactly what a scan of the pages does. -/
structure Resolved (t : Table) : Prop where
  /-- No page identifier is used twice. -/
  pageIds : (t.pages.map Page.id).Nodup
  /-- No two live records share an identifier. -/
  recordIds : (t.liveRecords.map Record.id).Nodup
  /-- The lookup agrees with the scan. -/
  getRecord : ∀ id out, t.getRecord id out =
    match t.scan id with
    | some r => (.OK, r)
    | none => (.NOT_FOUND, out)

variable [InsertPolicy]

/-- Lookups through rebuilt indices agree with scans if pages and live records are
distinct. -/
theorem rebuildIndex_resolved {t : Table} (hpages : (t.pages.map Page.id).Nodup)
    (hrecords : (t.liveRecords.map Record.id).Nodup) : t.rebuildIndex.2.Resolved where
  pageIds := hpages
  recordIds := hrecords
  getRecord := (rebuildIndex_mapped hpages hrecords).getRecord

end Table

/-- The identifiers of the live records that a document gives to a table. -/
def liveIdsOf (tableJson : Json) : List RecordID :=
  (itemsOf "page" tableJson).flatMap fun pageJson =>
    (itemsOf "records" pageJson).filterMap liveIdOf?

/-- A document names each table once, and gives no two tables, no two pages of a table and
no two live records of a table the same identifier. -/
structure DistinctDocument (envelope : Json) : Prop where
  /-- Table names are distinct. -/
  names : ((itemsOf "tables" envelope).map tableNameOf?).Nodup
  /-- Table identifiers are distinct. -/
  tableIds : ((itemsOf "tables" envelope).map tableIdOf?).Nodup
  /-- Page identifiers are distinct in each table. -/
  pageIds : ∀ tableJson ∈ itemsOf "tables" envelope,
    ((itemsOf "page" tableJson).map pageIdOf?).Nodup
  /-- Identifiers of live records are distinct in each table. -/
  recordIds : ∀ tableJson ∈ itemsOf "tables" envelope, (liveIdsOf tableJson).Nodup

/-- What every item decodes to has the key that the item gives it. -/
private theorem map_of_mapM {α κ : Type} {decode : Json → Option α} {key : α → κ}
    {keyOf? : Json → Option κ} (hkey : ∀ {item result}, decode item = some result →
      keyOf? item = some (key result)) {items : List Json} {results : List α}
    (h : items.mapM decode = some results) :
    items.map keyOf? = (results.map key).map some := by
  induction items generalizing results with
  | nil =>
    rw [mapM_nil_eq_some.mp h]
    rfl
  | cons item items ih =>
    obtain ⟨first, rest, hfirst, hrest, rfl⟩ := mapM_cons_eq_some.mp h
    rw [List.map_cons, List.map_cons, List.map_cons, hkey hfirst, ih hrest]

/-- A document gives a record that it decodes to its identifier unless the record is
deleted. -/
private theorem liveIdOf?_of_some {entry : Json} {r : Record}
    (h : Record.ofEnvelope? entry = some r) :
    liveIdOf? entry = if r.isDeleted then none else some r.id := by
  unfold Record.ofEnvelope? at h
  split at h
  · rename_i id deleted data hid hdeleted hdata
    obtain ⟨value, hvalue, rfl⟩ := Option.map_eq_some_iff.mp h
    unfold liveIdOf? numberOf? Record.isDeleted
    rw [hdeleted, hid]
    cases deleted with
    | true => rfl
    | false => exact hvalue
  · cases h

/-- The live identifiers of a document's records are those of the records. -/
private theorem filterMap_liveIdOf? {entries : List Json} {records : List Record}
    (h : entries.mapM Record.ofEnvelope? = some records) :
    entries.filterMap liveIdOf? = (records.filter fun r => !r.isDeleted).map Record.id := by
  induction entries generalizing records with
  | nil =>
    rw [mapM_nil_eq_some.mp h]
    rfl
  | cons entry entries ih =>
    obtain ⟨first, rest, hfirst, hrest, rfl⟩ := mapM_cons_eq_some.mp h
    have hhead := liveIdOf?_of_some hfirst
    cases hdeleted : first.isDeleted with
    | true =>
      rw [hdeleted, if_pos rfl] at hhead
      rw [List.filterMap_cons_none hhead, List.filter_cons_of_neg (by simp [hdeleted]), ih hrest]
    | false =>
      rw [hdeleted, if_neg Bool.false_ne_true] at hhead
      rw [List.filterMap_cons_some hhead, List.filter_cons_of_pos (by simp [hdeleted]), ih hrest,
        List.map_cons]

/-- What a document says about a page that it decodes to. -/
private theorem pageJson_of_some {pageJson : Json} {p : Page}
    (h : Page.ofEnvelope? pageJson = some p) :
    pageIdOf? pageJson = some p.id ∧
      (itemsOf "records" pageJson).filterMap liveIdOf? = p.live.map Record.id := by
  unfold Page.ofEnvelope? at h
  split at h
  · rename_i number entries hid hrecords
    obtain ⟨id, hvalue, h⟩ := Option.bind_eq_some_iff.mp h
    obtain ⟨records, hentries, h⟩ := Option.bind_eq_some_iff.mp h
    obtain ⟨rfl, _, rfl, _⟩ := Page.filled?_eq_some.mp h
    unfold pageIdOf? numberOf? itemsOf
    rw [hid, hrecords]
    exact ⟨hvalue, filterMap_liveIdOf? hentries⟩
  · cases h

/-- The live identifiers that a document gives to pages are those of the pages. -/
private theorem flatMap_pageJsons {pageJsons : List Json} {pages : List Page}
    (h : pageJsons.mapM Page.ofEnvelope? = some pages) :
    (pageJsons.flatMap fun pageJson => (itemsOf "records" pageJson).filterMap liveIdOf?) =
      (pages.flatMap Page.live).map Record.id := by
  induction pageJsons generalizing pages with
  | nil =>
    rw [mapM_nil_eq_some.mp h]
    rfl
  | cons pageJson pageJsons ih =>
    obtain ⟨first, rest, hfirst, hrest, rfl⟩ := mapM_cons_eq_some.mp h
    rw [List.flatMap_cons, List.flatMap_cons, List.map_append, ih hrest,
      (pageJson_of_some hfirst).2]

variable [InsertPolicy]

/-- What a document says about a table that it decodes to, and what lookups in that table
find. -/
private theorem tableJson_of_some {tableJson : Json} {t : Table}
    (h : Table.ofEnvelope? tableJson = some t) :
    tableNameOf? tableJson = some t.name ∧ tableIdOf? tableJson = some t.id ∧
      (t.Resolved ↔ ((itemsOf "page" tableJson).map pageIdOf?).Nodup ∧
        (liveIdsOf tableJson).Nodup) := by
  unfold Table.ofEnvelope? at h
  split at h
  · rename_i number name cols pageJsons hid hname _ hpages
    obtain ⟨id, hvalue, h⟩ := Option.bind_eq_some_iff.mp h
    obtain ⟨schema, _, h⟩ := Option.bind_eq_some_iff.mp h
    obtain ⟨pages, hdecoded, rfl⟩ := Option.map_eq_some_iff.mp h
    unfold tableNameOf? tableIdOf? numberOf? liveIdsOf itemsOf
    rw [hname, hid, hpages]
    refine ⟨rfl, hvalue, ?_⟩
    dsimp only
    rw [map_of_mapM (fun hpage => (pageJson_of_some hpage).1) hdecoded,
      List.nodup_map_iff (Option.some_injective _)]
    have hlive := flatMap_pageJsons hdecoded
    unfold itemsOf at hlive
    rw [hlive]
    constructor
    · intro hresolved
      exact ⟨hresolved.pageIds, hresolved.recordIds⟩
    · rintro ⟨hpageIds, hrecordIds⟩
      exact Table.rebuildIndex_resolved hpageIds hrecordIds
  · cases h

/-- A table decoded from distinct pages and records resolves them. -/
theorem Table.resolved_of_items {tableJson : Json} {t : Table}
    (h : Table.ofEnvelope? tableJson = some t)
    (hpages : ((itemsOf "page" tableJson).map pageIdOf?).Nodup)
    (hrecords : (liveIdsOf tableJson).Nodup) : t.Resolved :=
  (tableJson_of_some h).2.2.mpr ⟨hpages, hrecords⟩

/-- Tables decoded from distinct names and identifiers have distinct ones. -/
theorem nodup_of_items {tableJsons : List Json} {tables : List Table}
    (h : tableJsons.mapM Table.ofEnvelope? = some tables)
    (hnames : (tableJsons.map tableNameOf?).Nodup) (hids : (tableJsons.map tableIdOf?).Nodup) :
    (tables.map Table.name).Nodup ∧ (tables.map Table.id).Nodup := by
  rw [map_of_mapM (fun h => (tableJson_of_some h).1) h] at hnames
  rw [map_of_mapM (fun h => (tableJson_of_some h).2.1) h] at hids
  exact ⟨List.Nodup.of_map _ hnames, List.Nodup.of_map _ hids⟩

namespace Database

/-- The tables that a database holds. -/
def livingTables (db : Database) : List Table := db.tables.filterMap db.heap.get?

/-- Every table is alive and found under its name, names and identifiers are distinct, and
in every table lookups agree with scans. -/
structure Coherent (db : Database) : Prop where
  /-- The tables are alive. -/
  alive : ∀ address ∈ db.tables, ∃ t, db.heap.get? address = some t
  /-- No name is used twice. -/
  names : (db.livingTables.map Table.getName).Nodup
  /-- No table identifier is used twice. -/
  ids : (db.livingTables.map Table.getID).Nodup
  /-- Looking up the name of a table leads to that very table. -/
  getTable : ∀ address ∈ db.tables, ∀ t, db.heap.get? address = some t →
    db.getTable t.getName = some address
  /-- Lookups in tables agree with scans. -/
  resolved : ∀ t ∈ db.livingTables, t.Resolved

/-- A load that succeeds leaves the tables that its document decodes to. -/
theorem eq_reload_of_fromJson {db db' : Database} (howned : db.Owned) {envelope : Json}
    (h : fromJson envelope db = .ok .OK db') :
    ∃ tables name heap, (itemsOf "tables" envelope).mapM Table.ofEnvelope? = some tables ∧
      tables.length ≤ DBConstants.MAX_TABLES ∧ db' = reload name db.heap.next tables heap ∧
      ∀ entry ∈ Heap.allocated db.heap.next tables, heap.get? entry.1 = some entry.2 := by
  obtain ⟨tableJsons, hmember⟩ : ∃ tableJsons, envelope.member? "tables" =
      some (.array tableJsons) := by
    unfold fromJson at h
    split at h
    · cases h
    · obtain ⟨field, hfield, h⟩ := lift_bind_eq_ok h
      obtain ⟨tableJsons, hitems, h⟩ := lift_bind_eq_ok h
      rw [Json.asArray_eq_ok] at hitems
      subst hitems
      exact ⟨tableJsons, Json.index_eq_ok.mp hfield⟩
  obtain ⟨tables, htables⟩ := mapM_of_fromJson hmember h
  have hlength : tableJsons.length ≤ DBConstants.MAX_TABLES := by
    by_contra hlong
    unfold fromJson at h
    rw [if_neg (by rw [Json.isNull_of_member? hmember]; exact Bool.false_ne_true),
      lift_bind_of_ok (Json.index_eq_ok.mpr hmember),
      lift_bind_of_ok (Json.asArray_eq_ok.mpr rfl), if_pos (Nat.lt_of_not_le hlong)] at h
    cases h
  obtain ⟨name, hname⟩ : ∃ name, envelope.member? "__db_name__" = some (.string name) := by
    rw [fromJson_of_tables hmember hlength htables] at h
    obtain ⟨_, _, _, h⟩ := bind_eq_ok h
    obtain ⟨_, _, _, h⟩ := bind_eq_ok h
    obtain ⟨field, hfield, h⟩ := lift_bind_eq_ok h
    obtain ⟨name, hstring, h⟩ := lift_bind_eq_ok h
    rw [Json.asString_eq_ok] at hstring
    subst hstring
    exact ⟨name, Json.index_eq_ok.mp hfield⟩
  obtain ⟨heap, hload, hheap⟩ := fromJson_eq_reload howned hmember hlength htables hname
  rw [hload] at h
  cases h
  refine ⟨tables, name, heap, ?_, ?_, rfl, hheap⟩
  · unfold itemsOf
    rw [hmember]
    exact htables
  · rwa [length_of_mapM htables]

omit [InsertPolicy] in
/-- The tables that a reloaded database holds are the decoded ones. -/
theorem livingTables_of_allocated {heap : Heap Table} {address : Address}
    {tables : List Table}
    (hheap : ∀ entry ∈ Heap.allocated address tables, heap.get? entry.1 = some entry.2) :
    ((Heap.allocated address tables).map Prod.fst).filterMap heap.get? = tables := by
  rw [List.filterMap_map, List.filterMap_congr (g := fun entry => some entry.2)]
  · rw [← Heap.map_snd_allocated address tables]
    simp
  · intro entry hentry
    exact hheap entry hentry

/-- What the document says about the names and identifiers of the decoded tables. -/
private theorem distinctDocument_iff {envelope : Json} {tables : List Table}
    (htables : (itemsOf "tables" envelope).mapM Table.ofEnvelope? = some tables) :
    DistinctDocument envelope ↔ (tables.map Table.name).Nodup ∧ (tables.map Table.id).Nodup ∧
      ∀ t ∈ tables, t.Resolved := by
  have hnames := map_of_mapM (fun h => (tableJson_of_some h).1) htables
  have hids := map_of_mapM (fun h => (tableJson_of_some h).2.1) htables
  constructor
  · intro h
    obtain ⟨hdistinct, hdistinctIds⟩ := nodup_of_items htables h.names h.tableIds
    refine ⟨hdistinct, hdistinctIds, ?_⟩
    · refine forall_mem_of_mapM (P := Table.Resolved) htables ?_
      intro tableJson hmem t ht
      exact (tableJson_of_some ht).2.2.mpr ⟨h.pageIds tableJson hmem, h.recordIds tableJson hmem⟩
  · rintro ⟨hdistinct, hdistinctIds, hresolved⟩
    have hjson : ∀ tableJson ∈ itemsOf "tables" envelope,
        ((itemsOf "page" tableJson).map pageIdOf?).Nodup ∧ (liveIdsOf tableJson).Nodup := by
      intro tableJson hmem
      obtain ⟨t, ht, hdecoded⟩ := exists_of_mem_mapM htables hmem
      exact (tableJson_of_some hdecoded).2.2.mp (hresolved t ht)
    refine ⟨?_, ?_, fun tableJson hmem => (hjson tableJson hmem).1,
      fun tableJson hmem => (hjson tableJson hmem).2⟩
    · rw [hnames]
      exact hdistinct.map (Option.some_injective _)
    · rw [hids]
      exact hdistinctIds.map (Option.some_injective _)

/-- A reloaded database is coherent exactly if its tables have distinct names and
identifiers and their lookups agree with scans. -/
private theorem reload_coherent_iff {name : String} {address : Address} {tables : List Table}
    {heap : Heap Table} (hlength : tables.length ≤ DBConstants.MAX_TABLES)
    (hheap : ∀ entry ∈ Heap.allocated address tables, heap.get? entry.1 = some entry.2) :
    (reload name address tables heap).Coherent ↔ (tables.map Table.name).Nodup ∧
      (tables.map Table.id).Nodup ∧ ∀ t ∈ tables, t.Resolved := by
  have hliving : (reload name address tables heap).livingTables = tables :=
    livingTables_of_allocated hheap
  constructor
  · intro h
    have hnames := h.names
    have hids := h.ids
    have hresolved := h.resolved
    rw [hliving] at hnames hids hresolved
    exact ⟨hnames, hids, hresolved⟩
  · rintro ⟨hnames, hids, hresolved⟩
    have hwired : (reload name address tables heap).Wired _ :=
      reload_wired hheap hnames hids hlength
    refine ⟨hwired.owned.alive, hliving.symm ▸ hnames, hliving.symm ▸ hids, ?_,
      hliving.symm ▸ hresolved⟩
    intro other hother t ht
    obtain ⟨entry, hentry, rfl⟩ := List.mem_map.mp hother
    cases (hheap entry hentry).symm.trans ht
    exact hwired.getTable_of_mem hentry

/-- A load that succeeds leaves a coherent database exactly if its document is distinct. -/
theorem loaded_coherent_iff {db db' : Database} (howned : db.Owned) {envelope : Json}
    (h : fromJson envelope db = .ok .OK db') : db'.Coherent ↔ DistinctDocument envelope := by
  obtain ⟨tables, name, heap, htables, hlength, rfl, hheap⟩ := eq_reload_of_fromJson howned h
  rw [reload_coherent_iff hlength hheap, distinctDocument_iff htables]

/-- A document of tables without columns and pages, given their names and identifiers. -/
def bareDocument (tables : List (String × ℤ)) : Json :=
  .object [("__db_name__", .string "shop"), ("tables", .array (tables.map fun table =>
    .object [("__table_id___", .ofInt table.2), ("__name__", .string table.1),
      ("schema", .array []), ("page", .array [])]))]

omit [InsertPolicy] in
/-- A load accepts a document with two tables of one name and leaves a table that its name
does not lead to. -/
theorem load_of_duplicate_name :
    letI : InsertPolicy := ⟨true⟩
    ∃ db', fromJson (bareDocument [("orders", 0), ("orders", 1)]) (Database.new "shop") =
        .ok .OK db' ∧ ¬db'.Coherent := by
  let _ : InsertPolicy := ⟨true⟩
  obtain ⟨heap, hload, hheap⟩ := @fromJson_eq_reload _ (Database.new "shop")
    (Consistent.new "shop").owned (bareDocument [("orders", 0), ("orders", 1)]) _
    [Table.loaded "orders" 0 [] [], Table.loaded "orders" 1 [] []] "shop" rfl (by decide) rfl rfl
  refine ⟨_, hload, ?_⟩
  rw [reload_coherent_iff (by decide) hheap]
  rintro ⟨hnames, _⟩
  change ["orders", "orders"].Nodup at hnames
  exact absurd hnames (by decide)

omit [InsertPolicy] in
/-- A document with two tables of different names is loaded into a coherent database. -/
theorem load_of_distinct_names :
    letI : InsertPolicy := ⟨true⟩
    ∃ db', fromJson (bareDocument [("orders", 0), ("items", 1)]) (Database.new "shop") =
        .ok .OK db' ∧ db'.Coherent := by
  let _ : InsertPolicy := ⟨true⟩
  obtain ⟨heap, hload, _⟩ := @fromJson_eq_reload _ (Database.new "shop")
    (Consistent.new "shop").owned (bareDocument [("orders", 0), ("items", 1)]) _
    [Table.loaded "orders" 0 [] [], Table.loaded "items" 1 [] []] "shop" rfl (by decide) rfl rfl
  refine ⟨_, hload, (loaded_coherent_iff (Consistent.new "shop").owned hload).mpr ?_⟩
  refine ⟨?_, ?_, ?_, ?_⟩
  · decide
  · decide
  · decide
  · decide

end Database

end MiniDB.Core
