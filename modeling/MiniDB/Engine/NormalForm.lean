import MiniDB.Core.LoadIntegrity
import MiniDB.Engine.Compaction

/-!
# Documents in normal form

A database accepts documents of many shapes: with deleted records, with identifiers or names
that occur more than once, with fields in any order. Whatever it accepts, it writes a document
that it accepts again and that stays the same from then on.
-/

namespace MiniDB.Core

open MiniDB.Common MiniDB.JsonPro Memory Traversal

namespace Table

variable [InsertPolicy]

/-- Deleted records are not indexed. -/
theorem indexRecords_live (pid : PageID) (index : FiniteMap RecordID PageID)
    (records : List Record) :
    indexRecords pid index (records.filter fun r => !r.isDeleted) =
      indexRecords pid index records := by
  induction records generalizing index with
  | nil => rfl
  | cons r records ih =>
    cases hdeleted : r.isDeleted with
    | true =>
      rw [List.filter_cons_of_neg (by simp [hdeleted]), ih, indexRecords, hdeleted]
      rfl
    | false =>
      rw [List.filter_cons_of_pos (by simp [hdeleted]), indexRecords, indexRecords, ih]

/-- Compacted pages are indexed as the pages are. -/
theorem indexPages_compact (position : ℕ) (index : FiniteMap RecordID PageID)
    (pageIndex : FiniteMap PageID ℕ) (pages : List Page) :
    indexPages position index pageIndex (pages.map fun p => p.compact.2) =
      indexPages position index pageIndex pages := by
  induction pages generalizing position index pageIndex with
  | nil => rfl
  | cons p pages ih =>
    rw [List.map_cons, indexPages, indexPages, ih]
    congr 1
    exact indexRecords_live p.id index p.records

/-- A table loaded from compacted pages is the compacted table. -/
theorem loaded_compact (name : String) (id : TableID) (schema : List ColumnDef)
    (pages : List Page) :
    loaded name id schema (pages.map fun p => p.compact.2) =
      (loaded name id schema pages).compact.2 := by
  have hlargest : maxPageId 0 (pages.map fun p => p.compact.2) = maxPageId 0 pages := by
    unfold maxPageId
    rw [List.foldl_map]
    rfl
  rw [compact_eq]
  unfold loaded rebuildIndex
  dsimp only
  rw [indexPages_compact, hlargest, List.isEmpty_map]
  rfl

/-- What a loaded table with small identifiers writes is decoded to the compacted table. -/
theorem ofEnvelope?_toJson_of_loaded {envelope : Json} {t : Table}
    (h : ofEnvelope? envelope = some t) (hsmall : t.SmallIds) :
    ofEnvelope? t.toJson = some t.compact.2 := by
  have hexact := exactPages_of_ofEnvelope? h
  have hpages : (t.pages.map Page.toJson).mapM Page.ofEnvelope? =
      some (t.pages.map fun p => p.compact.2) := by
    rw [mapM_map_eq_some]
    intro p hp
    exact Page.ofEnvelope?_toJson_of_small (hexact p hp) (hsmall.pages p hp)
  rw [Table.ofEnvelope?_toJson, toUInt32_toInt32_iff.mpr hsmall.table, hpages]
  change some (loaded t.name t.id t.schema (t.pages.map fun p => p.compact.2)) = _
  rw [loaded_compact]
  unfold ofEnvelope? at h
  split at h
  · obtain ⟨id, _, h⟩ := Option.bind_eq_some_iff.mp h
    obtain ⟨schema, _, h⟩ := Option.bind_eq_some_iff.mp h
    obtain ⟨pages, _, rfl⟩ := Option.map_eq_some_iff.mp h
    rfl
  · cases h

end Table

namespace Database

variable [InsertPolicy]

/-- The table that an identifier leads to in a reloaded database. -/
theorem tableIndex_reload {name : String} {address : Address} {tables : List Table}
    {heap : Heap Table}
    (hheap : ∀ entry ∈ Heap.allocated address tables, heap.get? entry.1 = some entry.2)
    (tid : TableID) :
    ((reload name address tables heap).tableIndex.get? tid).bind heap.get? =
      (FiniteMap.empty.insertAll (tables.map fun t => (t.id, t))).get? tid := by
  have hempty : ∀ key : TableID,
      (FiniteMap.empty : FiniteMap TableID Table).contains key =
          (FiniteMap.empty : FiniteMap TableID Address).contains key ∧
        ((FiniteMap.empty : FiniteMap TableID Address).get? key).bind heap.get? =
          (FiniteMap.empty : FiniteMap TableID Table).get? key := fun _ => ⟨rfl, rfl⟩
  unfold reload
  dsimp only
  rw [← map_allocated (fun t => (t.id, t)) address]
  refine FiniteMap.get?_insertAll_bind ?_ hempty tid
  rw [List.forall₂_map_left_iff, List.forall₂_map_right_iff, List.forall₂_same]
  exact fun entry hentry => ⟨rfl, hheap entry hentry⟩

/-- A name leads to the compacted table of the one that it led to. -/
theorem getTable_reload {name : String} {address address' : Address} {tables : List Table}
    {heap heap' : Heap Table}
    (hheap : ∀ entry ∈ Heap.allocated address tables, heap.get? entry.1 = some entry.2)
    (hheap' : ∀ entry ∈ Heap.allocated address' (tables.map fun t => t.compact.2),
      heap'.get? entry.1 = some entry.2) (tableName : String) :
    ((reload name address' (tables.map fun t => t.compact.2) heap').getTable tableName).bind
        heap'.get? =
      (((reload name address tables heap).getTable tableName).bind heap.get?).map
        fun t => t.compact.2 := by
  have hindex : (reload name address' (tables.map fun t => t.compact.2) heap').index =
      (reload name address tables heap).index := by
    have hkeys : (tables.map fun t => t.compact.2).map (fun t => (t.name, t.id)) =
        tables.map fun t => (t.name, t.id) := by
      rw [List.map_map]
      refine List.map_congr_left fun t _ => ?_
      rw [Function.comp_apply, t.compact_name, t.compact_id]
    unfold reload
    dsimp only
    rw [map_allocated (fun t => (t.name, t.id)), map_allocated (fun t => (t.name, t.id)), hkeys]
  have hcompacted : ∀ tid, ((FiniteMap.empty.insertAll (tables.map fun t => (t.id, t))).get?
      tid).map (fun t => t.compact.2) =
        (FiniteMap.empty.insertAll ((tables.map fun t => t.compact.2).map
          fun t => (t.id, t))).get? tid := by
    intro tid
    have hempty : ∀ key : TableID,
        (FiniteMap.empty : FiniteMap TableID Table).contains key =
            (FiniteMap.empty : FiniteMap TableID Table).contains key ∧
          ((FiniteMap.empty : FiniteMap TableID Table).get? key).bind
              (some ∘ fun t => t.compact.2) =
            (FiniteMap.empty : FiniteMap TableID Table).get? key := fun _ => ⟨rfl, rfl⟩
    rw [Option.map_eq_bind]
    refine FiniteMap.get?_insertAll_bind ?_ hempty tid
    rw [List.map_map, List.forall₂_map_left_iff, List.forall₂_map_right_iff, List.forall₂_same]
    exact fun t _ => ⟨t.compact_id, rfl⟩
  unfold getTable
  rw [hindex]
  cases (reload name address tables heap).index.get? tableName with
  | none => rfl
  | some tid =>
    dsimp only
    rw [tableIndex_reload hheap, tableIndex_reload hheap', hcompacted]

end Database

end MiniDB.Core

namespace MiniDB.Engine

open MiniDB.Common MiniDB.JsonPro MiniDB.Core Memory Traversal

variable [InsertPolicy] [StdSort]

/-- One database holds the tables of another one without their deleted records. -/
structure HoldsCompacted (db db' : Database) : Prop where
  /-- The name is the same. -/
  name : db'.name = db.name
  /-- The tables are in the same order, mean the same and are compact. -/
  tables : List.Forall₂ (fun address address' => ∃ t t', db.heap.get? address = some t ∧
    db'.heap.get? address' = some t' ∧ SameMeaning t t' ∧ t'.compact = (.OK, t'))
    db.tables db'.tables
  /-- Every name leads to tables that mean the same. -/
  getTable : ∀ name, Option.Rel SameMeaning ((db.getTable name).bind db.heap.get?)
    ((db'.getTable name).bind db'.heap.get?)

/-- A database that was reloaded from tables, and one reloaded from the compacted tables. -/
theorem holdsCompacted_reload {name : String} {address address' : Address} {tables : List Table}
    {heap heap' : Heap Table}
    (hheap : ∀ entry ∈ Heap.allocated address tables, heap.get? entry.1 = some entry.2)
    (hheap' : ∀ entry ∈ Heap.allocated address' (tables.map fun t => t.compact.2),
      heap'.get? entry.1 = some entry.2) :
    HoldsCompacted (Database.reload name address tables heap)
      (Database.reload name address' (tables.map fun t => t.compact.2) heap') where
  name := rfl
  tables := by
    unfold Database.reload
    dsimp only
    induction tables generalizing address address' with
    | nil => exact List.Forall₂.nil
    | cons t tables ih =>
      rw [List.map_cons, Heap.allocated, List.forall_mem_cons] at hheap'
      rw [Heap.allocated, List.forall_mem_cons] at hheap
      refine List.Forall₂.cons ?_ (ih hheap.2 hheap'.2)
      exact ⟨t, _, hheap.1, hheap'.1, sameMeaning_compact t, t.compact_compact⟩
  getTable tableName := by
    have hsame := @Database.getTable_reload _ name _ _ _ _ _ hheap hheap' tableName
    change Option.Rel SameMeaning (Option.bind _ heap.get?) (Option.bind _ heap'.get?)
    rw [hsame]
    cases ((Database.reload name address tables heap).getTable tableName).bind heap.get? with
    | none => exact Option.Rel.none
    | some t => exact Option.Rel.some (sameMeaning_compact t)

/-- Whatever document a database accepts, if all identifiers are small it writes a document in
normal form: every database accepts it, holds the same tables without their deleted records, on
which all queries return the same, and writes the same document again. -/
theorem accepted_document_normalizes {envelope : Json} {db db₁ : Database} (howned : db.Owned)
    (h : Database.fromJson envelope db = .ok .OK db₁) (hsmall : db₁.SmallIds) :
    ∃ normal, db₁.toJson = .ok normal ∧ ∀ target : Database, target.Owned →
      ∃ db₂, Database.fromJson normal target = .ok .OK db₂ ∧ HoldsCompacted db₁ db₂ ∧
        db₂.toJson = .ok normal := by
  obtain ⟨tables, name, heap, hdecoded, hlength, rfl, hheap⟩ :=
    Database.eq_reload_of_fromJson howned h
  have hsmallTables : ∀ t ∈ tables, t.SmallIds := by
    intro t ht
    rw [← Heap.map_snd_allocated db.heap.next tables] at ht
    obtain ⟨entry, hentry, rfl⟩ := List.mem_map.mp ht
    exact hsmall entry.1 (List.mem_map_of_mem hentry) entry.2 (hheap entry hentry)
  have hwritten : ∀ t ∈ tables, t.SmallIds → Table.ofEnvelope? t.toJson = some t.compact.2 :=
    forall_mem_of_mapM hdecoded fun _ _ _ ht => Table.ofEnvelope?_toJson_of_loaded ht
  have htables : (tables.map Table.toJson).mapM Table.ofEnvelope? =
      some (tables.map fun t => t.compact.2) :=
    mapM_map_eq_some.mpr fun t ht => hwritten t ht (hsmallTables t ht)
  have hmade : ∀ {address : Address} {tables : List Table} {heap : Heap Table},
      (∀ entry ∈ Heap.allocated address tables, heap.get? entry.1 = some entry.2) →
      (Database.reload name address tables heap).toJson = .ok (.object
        [("__db_name__", .string name), ("tables", .array (tables.map Table.toJson))]) := by
    intro address tables heap hheap
    have hjson := Database.map_allocated Table.toJson address tables
    have hmade := @Database.toJson_of_entries (Database.reload name address tables heap) _ rfl hheap
    rwa [hjson] at hmade
  refine ⟨_, hmade hheap, fun target htarget => ?_⟩
  have hcount : (tables.map Table.toJson).length ≤ DBConstants.MAX_TABLES := by
    rw [List.length_map]
    exact hlength
  obtain ⟨heap', hload, hheap'⟩ := @Database.fromJson_eq_reload _ target htarget
    (.object [("__db_name__", .string name), ("tables", .array (tables.map Table.toJson))]) _ _
    name (by simp [Json.member?, List.lookup_cons]) hcount htables rfl
  refine ⟨_, hload, holdsCompacted_reload hheap hheap', ?_⟩
  have hsame : (tables.map fun t => t.compact.2).map Table.toJson = tables.map Table.toJson := by
    rw [List.map_map]
    exact List.map_congr_left fun t _ => t.toJson_compact
  rw [hmade hheap', hsame]

/-- The envelope of a record without data. -/
def recordEnvelope (id : ℤ) (deleted : Bool) : Json :=
  .object [("__deleted__", .bool deleted), ("data", Json.emptyObject), ("__id__", .ofInt id)]

/-- A page with a deleted record and an identifier that occurs twice. -/
def doubledPage : Json :=
  .object [("__page_id__", .ofInt 0), ("records", .array [recordEnvelope 7 false,
    recordEnvelope 8 true, recordEnvelope 7 false])]

/-- A document with that page. -/
def doubledDocument : Json :=
  .object [("tables", .array [.object [("__table_id___", .ofInt 0), ("__name__", .string "orders"),
      ("schema", .array []), ("page", .array [doubledPage])]]),
    ("__db_name__", .string "shop")]

omit [InsertPolicy] [StdSort] in
/-- That document is accepted, and what is written of it stays the same. -/
theorem accepted_document_normalizes_doubled :
    letI : InsertPolicy := ⟨true⟩
    letI : StdSort := ⟨mergeSortOn⟩
    ∃ db₁ normal db₂, Database.fromJson doubledDocument (Database.new "shop") = .ok .OK db₁ ∧
      db₁.toJson = .ok normal ∧ Database.fromJson normal (Database.new "copy") = .ok .OK db₂ ∧
      HoldsCompacted db₁ db₂ ∧ db₂.toJson = .ok normal := by
  let _ : InsertPolicy := ⟨true⟩
  let _ : StdSort := ⟨mergeSortOn⟩
  have howned : ∀ name, (Database.new name).Owned := fun name =>
    (Database.Consistent.new name).owned
  obtain ⟨page, hpage, hid, hids⟩ : ∃ page, Page.ofEnvelope? doubledPage = some page ∧
      page.id = 0 ∧ page.live.map Record.id = [7, 7] := ⟨_, rfl, rfl, rfl⟩
  have htables : [Json.object [("__table_id___", .ofInt 0), ("__name__", .string "orders"),
      ("schema", .array []), ("page", .array [doubledPage])]].mapM Table.ofEnvelope? =
        some [Table.loaded "orders" 0 [] [page]] := by
    have hpages : [doubledPage].mapM Page.ofEnvelope? = some [page] := by
      rw [List.mapM_cons, hpage]
      rfl
    have htable : Table.ofEnvelope? (.object [("__table_id___", .ofInt 0),
        ("__name__", .string "orders"), ("schema", .array []), ("page", .array [doubledPage])]) =
          ([doubledPage].mapM Page.ofEnvelope?).map fun pages =>
            Table.loaded "orders" 0 [] pages := rfl
    rw [List.mapM_cons, htable, hpages]
    rfl
  obtain ⟨heap, hload, hheap⟩ := @Database.fromJson_eq_reload _ (Database.new "shop")
    (howned "shop") doubledDocument _ _ "shop" rfl (by decide) htables rfl
  have hsmall : (Database.reload "shop" 0 [Table.loaded "orders" 0 [] [page]] heap).SmallIds := by
    intro address haddress t ht
    rw [List.mem_singleton.mp haddress] at ht
    cases (hheap _ List.mem_cons_self).symm.trans ht
    refine ⟨show (0 : TableID).toNat < 2 ^ 31 by decide, fun p hp => ?_⟩
    rw [List.mem_singleton.mp hp]
    refine ⟨by rw [hid]; decide, fun r hr => ?_⟩
    have hmem := List.mem_map_of_mem (f := Record.id) hr
    rw [hids] at hmem
    have hseven : r.id = 7 := by simpa using hmem
    rw [hseven]
    decide
  obtain ⟨normal, hmade, hagain⟩ := accepted_document_normalizes (howned "shop") hload hsmall
  obtain ⟨db₂, hload', hholds, hmade'⟩ := hagain (Database.new "copy") (howned "copy")
  exact ⟨_, normal, db₂, hload, hmade, hload', hholds, hmade'⟩

end MiniDB.Engine
