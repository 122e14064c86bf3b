import MiniDB.Core.DatabaseRuns
import MiniDB.Library.IdCounter

/-!
# Persisting and reloading a database

Reloading what a consistent database with small identifiers was written to replaces any
other database by the same tables, each of them compacted.
-/

namespace MiniDB.Core

open MiniDB.Common MiniDB.JsonPro Memory Traversal Refinement

/-- One table is another one compacted: its pages hold the live records and nothing is
marked dirty; the indices lead to every record and every page. -/
structure Compacted (t t' : Table) : Prop where
  /-- The tables agree but for their pages and their marks. -/
  fields : t' = { t with pages := t'.pages, dirty := false }
  /-- The pages agree but for deleted records and dirty marks. -/
  pages : t'.pages.map (fun p => (p.id, p.dirty, p.records)) =
    t.pages.map fun p => (p.id, false, p.live)
  /-- Every live record is found. -/
  index : ∀ r ∈ t'.liveRecords, ∀ out, t'.getRecord r.id out = (.OK, r)
  /-- Every page is found. -/
  pageIndex : ∀ p ∈ t'.pages, ∃ position, t'.findPageByID p.id = some (position, p)

/-- Compacting a consistent table. -/
theorem Table.Consistent.compacted {t : Table} (h : t.Consistent) : Compacted t t.compact.2 := by
  have h' := h.compact
  rw [Table.compact_eq] at h' ⊢
  constructor
  · rfl
  · rw [List.map_map]
    rfl
  · intro r hr out
    rw [h'.wired.mapped.getRecord,
      (KeyedList.lookup_eq_some Record.id h'.nodup).mpr ⟨hr, rfl⟩]
  · intro p hp
    obtain ⟨position, hposition⟩ := List.mem_iff_getElem?.mp hp
    have hlt := (List.getElem?_eq_some_iff.mp hposition).1
    refine ⟨position, ?_⟩
    unfold Table.findPageByID
    rw [h'.pageId hposition, h'.pageIndex, h'.numbered.toNat_ofNat hlt, if_pos hlt]
    dsimp only
    rw [hposition]
    rfl

namespace Database

/-- What a written database is read back as, given the largest table identifier. -/
structure Reloaded (db db' : Database) : Prop where
  /-- The name is the same. -/
  name : db'.name = db.name
  /-- The tables are the same, in the same order, each compacted. -/
  tables : List.Forall₂ (fun address address' => ∃ t t', db.heap.get? address = some t ∧
    db'.heap.get? address' = some t' ∧ Compacted t t') db.tables db'.tables
  /-- The name index resolves the same names to the same identifiers. -/
  index : db'.index = db.index
  /-- The identifier index resolves each identifier to the compacted table. -/
  tableIndex : ∀ tid, (db'.tableIndex.get? tid).bind db'.heap.get? =
    ((db.tableIndex.get? tid).bind db.heap.get?).map fun t => t.compact.2
  /-- Without tables the counter starts again. -/
  counter_empty : db.tables = [] → db'.nextTableId = 0
  /-- Otherwise the counter is one above the largest identifier. -/
  counter : db.tables ≠ [] → ∃ address ∈ db'.tables, ∃ t, db'.heap.get? address = some t ∧
    db'.nextTableId.toNat = t.id.toNat + 1 ∧
    ∀ other ∈ db'.tables, ∀ t', db'.heap.get? other = some t' → t'.id.toNat ≤ t.id.toNat
  /-- The database is not dirty. -/
  dirty : db'.dirty = false

/-- Reading all tables through their pointers. -/
theorem mapM_read {heap : Heap Table} {entries : List Entry}
    (h : ∀ entry ∈ entries, heap.get? entry.1 = some entry.2) :
    (entries.map Prod.fst).mapM heap.read = .ok (entries.map Prod.snd) := by
  induction entries with
  | nil => rfl
  | cons entry entries ih =>
    rw [List.forall_mem_cons] at h
    rw [List.map_cons, List.mapM_cons, Heap.read_eq_ok.mpr h.1, ih h.2]
    rfl

/-- What a database is written to, given its tables. -/
theorem toJson_of_entries {db : Database} {entries : List Entry}
    (htables : db.tables = entries.map Prod.fst)
    (hheap : ∀ entry ∈ entries, db.heap.get? entry.1 = some entry.2) :
    db.toJson = .ok (.object [("__db_name__", .string db.name),
      ("tables", .array (entries.map fun entry => entry.2.toJson))]) := by
  unfold Database.toJson
  rw [htables, mapM_read hheap]
  change Except.ok _ = _
  rw [List.map_map]
  rfl

/-- What a consistent database is written to. -/
theorem Consistent.toJson_eq {db : Database} {entries : List Entry} (h : db.Consistent entries) :
    db.toJson = .ok (.object [("__db_name__", .string db.name),
      ("tables", .array (entries.map fun entry => entry.2.toJson))]) :=
  toJson_of_entries h.tables fun _ hentry => h.heap hentry

/-- The largest identifier of tables, starting from a given one. -/
def maxTableId (start : TableID) (tables : List Table) : TableID :=
  tables.foldl (fun largest t => max largest t.getID) start

/-- The counter above the identifiers of all tables. -/
def counterAbove (tables : List Table) : TableID :=
  if tables.isEmpty then 0 else maxTableId 0 tables + 1

/-- The counter above small identifiers is one above the largest. -/
theorem counterAbove_spec {tables : List Table} (hne : tables ≠ [])
    (hsmall : ∀ t ∈ tables, t.id.toNat < 2 ^ 31) :
    ∃ t ∈ tables, (counterAbove tables).toNat = t.id.toNat + 1 ∧
      ∀ t' ∈ tables, t'.id.toNat ≤ t.id.toNat := by
  obtain ⟨_, hall, hattained⟩ := IdCounter.largest_spec Table.id tables 0
  change (∀ t ∈ tables, t.id.toNat ≤ (maxTableId 0 tables).toNat) at hall
  change maxTableId 0 tables = 0 ∨ ∃ t ∈ tables, maxTableId 0 tables = t.id at hattained
  have hcounter : counterAbove tables = maxTableId 0 tables + 1 := by
    apply if_neg
    rw [List.isEmpty_iff]
    exact hne
  obtain ⟨t, ht, heq⟩ : ∃ t ∈ tables, (maxTableId 0 tables).toNat = t.id.toNat := by
    rcases hattained with hzero | ⟨t, ht, heq⟩
    · obtain ⟨t, ht⟩ := List.exists_mem_of_ne_nil tables hne
      refine ⟨t, ht, ?_⟩
      have hle := hall t ht
      rw [hzero] at hle ⊢
      exact (Nat.le_zero.mp hle).symm
    · exact ⟨t, ht, congrArg UInt32.toNat heq⟩
  have hone : (1 : UInt32).toNat = 1 := rfl
  have hlt := hsmall t ht
  refine ⟨t, ht, ?_, fun t' ht' => heq ▸ hall t' ht'⟩
  rw [hcounter, UInt32.toNat_add, heq, hone]
  omega

variable [InsertPolicy]

/-- The database that reloading leaves, given its tables and the address of the first. -/
def reload (name : String) (address : Address) (tables : List Table) (heap : Heap Table) :
    Database where
  name := name
  tables := (Heap.allocated address tables).map Prod.fst
  index := FiniteMap.empty.insertAll
    ((Heap.allocated address tables).map fun entry => (entry.2.name, entry.2.id))
  tableIndex := FiniteMap.empty.insertAll
    ((Heap.allocated address tables).map fun entry => (entry.2.id, entry.1))
  nextTableId := counterAbove tables
  dirty := false
  heap := heap

/-- What decoding tables leaves in the containers. -/
private theorem addAll_eq (scratch : Scratch) (address : Address) (tables : List Table) :
    scratch.addAll address tables = {
      tables := scratch.tables ++ (Heap.allocated address tables).map Prod.fst
      index := scratch.index.insertAll
        ((Heap.allocated address tables).map fun entry => (entry.2.name, entry.2.id))
      tableIndex := scratch.tableIndex.insertAll
        ((Heap.allocated address tables).map fun entry => (entry.2.id, entry.1))
      maxTableId := maxTableId scratch.maxTableId tables } := by
  induction tables generalizing scratch address with
  | nil =>
    unfold Scratch.addAll Heap.allocated
    rw [List.map_nil, List.append_nil]
    rfl
  | cons t tables ih =>
    unfold Scratch.addAll Heap.allocated
    rw [ih]
    unfold Scratch.add maxTableId
    simp only [List.map_cons, List.foldl_cons, List.append_assoc, List.singleton_append,
      FiniteMap.insertAll, Table.getName, Table.getID]

/-- A load whose tables all decode and that has a name leaves the reloaded database. -/
theorem fromJson_eq_reload {db : Database} (howned : db.Owned) {envelope : Json}
    {tableJsons : List Json} {tables : List Table} {name : String}
    (hmember : envelope.member? "tables" = some (.array tableJsons))
    (hlength : tableJsons.length ≤ DBConstants.MAX_TABLES)
    (htables : tableJsons.mapM Table.ofEnvelope? = some tables)
    (hname : envelope.member? "__db_name__" = some (.string name)) :
    ∃ heap, fromJson envelope db = .ok .OK (reload name db.heap.next tables heap) ∧
      ∀ entry ∈ Heap.allocated db.heap.next tables, heap.get? entry.1 = some entry.2 := by
  obtain ⟨heap, hload, hget⟩ := fromJson_of_named howned hmember hlength htables hname
  refine ⟨heap, ?_, ?_⟩
  · rw [hload, addAll_eq]
    cases tables with
    | nil => rfl
    | cons t tables => rfl
  · intro entry hentry
    rw [hget, if_neg, Heap.get?_of_mem_allocated hentry]
    intro hold
    obtain ⟨t, ht⟩ := howned.alive _ hold
    have hlt := Heap.lt_next ht
    have hle := Heap.le_of_mem_allocated (List.mem_map_of_mem hentry)
    exact absurd hlt (Nat.not_lt.mpr hle)

omit [InsertPolicy] in
/-- New tables stand for the old ones, position by position. -/
private theorem forall₂_compacted {heap heap' : Heap Table} {entries : List Entry}
    {address : Address}
    (h : ∀ entry ∈ entries, heap.get? entry.1 = some entry.2 ∧ entry.2.Consistent)
    (h' : ∀ entry ∈ Heap.allocated address (entries.map fun entry => entry.2.compact.2),
      heap'.get? entry.1 = some entry.2) :
    List.Forall₂ (fun address address' => ∃ t t', heap.get? address = some t ∧
        heap'.get? address' = some t' ∧ Compacted t t') (entries.map Prod.fst)
      ((Heap.allocated address (entries.map fun entry => entry.2.compact.2)).map Prod.fst) := by
  induction entries generalizing address with
  | nil => exact List.Forall₂.nil
  | cons entry entries ih =>
    rw [List.forall_mem_cons] at h
    rw [List.map_cons, Heap.allocated, List.forall_mem_cons] at h'
    rw [List.map_cons, List.map_cons, Heap.allocated, List.map_cons]
    exact List.Forall₂.cons ⟨entry.2, entry.2.compact.2, h.1.1, h'.1, h.1.2.compacted⟩
      (ih h.2 h'.2)

omit [InsertPolicy] in
/-- Keys of allocated tables are keys of the tables. -/
theorem map_allocated {κ : Type} (key : Table → κ) (address : Address) (tables : List Table) :
    (Heap.allocated address tables).map (fun entry => key entry.2) = tables.map key := by
  conv_rhs => rw [← Heap.map_snd_allocated address tables, List.map_map]
  rfl

/-- Reloading tables with distinct names and identifiers leaves a wired database. -/
theorem reload_wired {name : String} {address : Address} {tables : List Table} {heap : Heap Table}
    (hheap : ∀ entry ∈ Heap.allocated address tables, heap.get? entry.1 = some entry.2)
    (hnames : (tables.map Table.name).Nodup) (hids : (tables.map Table.id).Nodup)
    (hlength : tables.length ≤ DBConstants.MAX_TABLES) :
    (reload name address tables heap).Wired (Heap.allocated address tables) := by
  rw [← map_allocated Table.name address] at hnames
  rw [← map_allocated Table.id address] at hids
  constructor
  · rfl
  · exact Heap.nodup_allocated address tables
  · intro other t hentry
    exact hheap (other, t) hentry
  · exact hnames
  · exact hids
  · exact FiniteMap.indexes_insertAll hnames
  · exact FiniteMap.indexes_insertAll hids
  · have hcount := congrArg List.length (Heap.map_snd_allocated address tables)
    rw [List.length_map] at hcount
    rw [hcount]
    exact hlength

/-- Reloading tables with distinct names and small distinct identifiers leaves a consistent
database. -/
theorem reload_consistent {name : String} {address : Address} {tables : List Table}
    {heap : Heap Table}
    (hheap : ∀ entry ∈ Heap.allocated address tables, heap.get? entry.1 = some entry.2)
    (hconsistent : ∀ t ∈ tables, t.Consistent) (hnames : (tables.map Table.name).Nodup)
    (hids : (tables.map Table.id).Nodup) (hsmall : ∀ t ∈ tables, t.id.toNat < 2 ^ 31)
    (hlength : tables.length ≤ DBConstants.MAX_TABLES) :
    (reload name address tables heap).Consistent (Heap.allocated address tables) := by
  have hmem : ∀ {entry}, entry ∈ Heap.allocated address tables → entry.2 ∈ tables := by
    intro entry hentry
    have hsnd := List.mem_map_of_mem (f := Prod.snd) hentry
    rwa [Heap.map_snd_allocated] at hsnd
  refine ⟨⟨reload_wired hheap hnames hids hlength, ?_⟩, ?_⟩
  · intro entry hentry
    have ht := hmem hentry
    obtain ⟨t, _, hcounter, hlargest⟩ := counterAbove_spec (List.ne_nil_of_mem ht) hsmall
    change entry.2.id.toNat < (counterAbove tables).toNat
    rw [hcounter]
    exact Nat.lt_succ_of_le (hlargest entry.2 ht)
  · intro entry hentry
    exact hconsistent entry.2 (hmem hentry)

section Compacting

variable {db : Database} {entries : List Entry} {address : Address} {heap : Heap Table}

/-- The compacted tables of a database. -/
abbrev compactedTables (entries : List Entry) : List Table :=
  entries.map fun entry => entry.2.compact.2

omit [InsertPolicy] in
/-- What is true of new tables, entry by entry, is true of the compacted ones. -/
private theorem map_compacted {β : Type} (f : Table → β) :
    (Heap.allocated address (compactedTables entries)).map (fun entry => f entry.2) =
      entries.map fun entry => f entry.2.compact.2 := by
  have hsnd := congrArg (List.map f) (Heap.map_snd_allocated address (compactedTables entries))
  rw [List.map_map, List.map_map] at hsnd
  exact hsnd

omit [InsertPolicy] in
/-- The new tables are the compacted ones. -/
private theorem mem_compacted {t : Table} :
    t ∈ compactedTables entries ↔
      ∃ entry ∈ Heap.allocated address (compactedTables entries), entry.2 = t := by
  conv_lhs => rw [← Heap.map_snd_allocated address (compactedTables entries)]
  exact List.mem_map

omit [InsertPolicy] in
/-- Compacted tables are consistent, and their identifiers stay small. -/
private theorem Consistent.compacted (h : db.Consistent entries) (hsmall : db.SmallIds) :
    ∀ t ∈ compactedTables entries, t.Consistent ∧ t.id.toNat < 2 ^ 31 := by
  intro t ht
  obtain ⟨entry, hentry, rfl⟩ := List.mem_map.mp ht
  rw [Table.compact_id]
  exact ⟨(h.consistent hentry).compact, (h.smallIds_iff.mp hsmall entry hentry).table⟩

/-- Reloading the compacted tables of a consistent database leaves a consistent one. -/
theorem Consistent.reload (h : db.Consistent entries) (hsmall : db.SmallIds)
    (hheap : ∀ entry ∈ Heap.allocated address (compactedTables entries),
      heap.get? entry.1 = some entry.2) :
    (reload db.name address (compactedTables entries) heap).Consistent
      (Heap.allocated address (compactedTables entries)) := by
  have hcompacted := h.compacted hsmall
  have hnames : (compactedTables entries).map Table.name =
      entries.map fun entry => entry.2.name := by
    rw [List.map_map]
    exact List.map_congr_left fun entry _ => entry.2.compact_name
  have hids : (compactedTables entries).map Table.id = entries.map fun entry => entry.2.id := by
    rw [List.map_map]
    exact List.map_congr_left fun entry _ => entry.2.compact_id
  apply reload_consistent hheap fun t ht => (hcompacted t ht).1
  · rw [hnames]
    exact h.names
  · rw [hids]
    exact h.ids
  · exact fun t ht => (hcompacted t ht).2
  · rw [List.length_map]
    exact h.length_le

/-- The identifier index of the reloaded database resolves to the compacted tables. -/
private theorem reload_tableIndex (h : db.Consistent entries) (hsmall : db.SmallIds)
    (hheap : ∀ entry ∈ Heap.allocated address (compactedTables entries),
      heap.get? entry.1 = some entry.2) (tid : TableID) :
    ((reload db.name address (compactedTables entries) heap).tableIndex.get? tid).bind heap.get? =
      ((db.tableIndex.get? tid).bind db.heap.get?).map fun t => t.compact.2 := by
  have h' := h.reload hsmall hheap
  cases hget : db.tableIndex.get? tid with
  | none =>
    have hnone : (reload db.name address (compactedTables entries) heap).tableIndex.get? tid =
        none := by
      apply h'.tableIndex.get?_eq_none.mpr
      intro entry' hentry'
      obtain ⟨entry, hentry, heq⟩ := List.mem_map.mp (mem_compacted.mpr ⟨entry', hentry', rfl⟩)
      rw [← heq, Table.compact_id]
      exact h.tableIndex.get?_eq_none.mp hget entry hentry
    rw [hnone]
    rfl
  | some old =>
    obtain ⟨entry, hentry, hid, rfl⟩ := (h.tableIndex tid old).mp hget
    obtain ⟨entry', hentry', heq⟩ := mem_compacted.mp (List.mem_map_of_mem hentry)
    have hid' : entry'.2.id = tid := by
      rw [heq, Table.compact_id]
      exact hid
    have hfound := (h'.tableIndex tid entry'.1).mpr ⟨entry', hentry', hid', rfl⟩
    rw [hfound, Option.bind_some, Option.bind_some, h.heap hentry, Option.map_some, ← heq]
    exact hheap entry' hentry'

/-- Reloading the compacted tables of a consistent database reloads the database. -/
theorem Consistent.reloaded (h : db.Consistent entries) (hsmall : db.SmallIds)
    (hheap : ∀ entry ∈ Heap.allocated address (compactedTables entries),
      heap.get? entry.1 = some entry.2) :
    Reloaded db (Database.reload db.name address (compactedTables entries) heap) where
  name := rfl
  tables := by
    rw [h.tables]
    apply forall₂_compacted _ hheap
    rintro ⟨address, t⟩ hentry
    exact ⟨h.heap hentry, h.consistent hentry⟩
  index := by
    apply (h.reload hsmall hheap).index.unique h.index
    rw [map_compacted fun t => (t.name, t.id)]
    apply List.map_congr_left
    intro entry _
    rw [Table.compact_name, Table.compact_id]
  tableIndex := reload_tableIndex h hsmall hheap
  counter_empty := by
    intro hempty
    rw [h.tables, List.map_eq_nil_iff] at hempty
    subst hempty
    rfl
  counter := by
    intro hne
    have hne' : compactedTables entries ≠ [] := by
      rw [h.tables] at hne
      rw [ne_eq, List.map_eq_nil_iff] at hne ⊢
      exact hne
    obtain ⟨t, ht, hcounter, hlargest⟩ :=
      counterAbove_spec hne' fun t ht => (h.compacted hsmall t ht).2
    obtain ⟨entry, hentry, rfl⟩ := mem_compacted.mp ht
    refine ⟨entry.1, List.mem_map_of_mem hentry, entry.2, hheap entry hentry, hcounter, ?_⟩
    intro other hother t' ht'
    obtain ⟨entry', hentry', rfl⟩ := List.mem_map.mp hother
    have hsame := Option.some.inj ((hheap entry' hentry').symm.trans ht')
    exact hlargest t' (mem_compacted.mpr ⟨entry', hentry', hsame⟩)
  dirty := rfl

/-- What a consistent database with small identifiers was written to is decoded to its
compacted tables. -/
theorem Consistent.fromJson_written (h : db.Consistent entries) (hsmall : db.SmallIds)
    {target : Database} (howned : target.Owned) :
    ∃ envelope heap, db.toJson = .ok envelope ∧
      fromJson envelope target = .ok .OK (Database.reload db.name target.heap.next
        (compactedTables entries) heap) ∧
      (∀ entry ∈ Heap.allocated target.heap.next (compactedTables entries),
        heap.get? entry.1 = some entry.2) ∧
      (Database.reload db.name target.heap.next (compactedTables entries) heap).toJson =
        .ok envelope := by
  have htables : (entries.map fun entry => entry.2.toJson).mapM Table.ofEnvelope? =
      some (compactedTables entries) := by
    rw [mapM_map_eq_some]
    intro entry hentry
    exact (h.consistent hentry).ofEnvelope?_toJson (h.smallIds_iff.mp hsmall entry hentry)
  have hlength : (entries.map fun entry => entry.2.toJson).length ≤ DBConstants.MAX_TABLES := by
    rw [List.length_map]
    exact h.length_le
  obtain ⟨heap, hload, hheap⟩ := @fromJson_eq_reload _ target howned
    (.object [("__db_name__", .string db.name),
      ("tables", .array (entries.map fun entry => entry.2.toJson))]) _ _ db.name
    (by simp [Json.member?, List.lookup_cons]) hlength htables rfl
  refine ⟨_, heap, h.toJson_eq, hload, hheap, ?_⟩
  have hsame : (entries.map fun entry => entry.2.compact.2.toJson) =
      entries.map fun entry => entry.2.toJson :=
    List.map_congr_left fun entry _ => entry.2.toJson_compact
  rw [(h.reload hsmall hheap).toJson_eq, map_compacted Table.toJson, hsame]
  rfl

/-- Reloading what a consistent database with small identifiers was written to succeeds. -/
theorem Consistent.fromJson_toJson (h : db.Consistent entries) (hsmall : db.SmallIds)
    {target : Database} (howned : target.Owned) :
    ∃ envelope target', db.toJson = .ok envelope ∧
      fromJson envelope target = .ok .OK target' ∧ Reloaded db target' ∧
      target'.toJson = .ok envelope := by
  obtain ⟨envelope, heap, hwrite, hload, hheap, hagain⟩ := h.fromJson_written hsmall howned
  exact ⟨envelope, _, hwrite, hload, h.reloaded hsmall hheap, hagain⟩

end Compacting

/-- Every run from an empty database throughout which the identifiers of tables and pages are small
completes. If the identifiers that it leaves are all small, what it leaves can be written and
reloaded into any other database, which then holds the same tables compacted and is written the
same way. -/
theorem run_reloads (name : String) (calls : List DatabaseCall)
    (hsmall : Throughout Database.call SmallPageIds (Database.new name) calls) :
    ∃ responses db, run Database.call (Database.new name) calls = .ok (responses, db) ∧
      (db.SmallIds → ∀ target : Database, target.Owned → ∃ envelope target',
        db.toJson = .ok envelope ∧ fromJson envelope target = .ok .OK target' ∧
          Reloaded db target' ∧ target'.toJson = .ok envelope) := by
  obtain ⟨responses, db, hrun, entries, h⟩ := run_consistent name calls hsmall
  exact ⟨responses, db, hrun, fun hfinal target howned => h.fromJson_toJson hfinal howned⟩

omit [InsertPolicy] in
/-- The calls that fill a page and begin another one, and delete a record of the first. -/
def fillTwoPages : List DatabaseCall :=
  .createTable "orders" [] ::
    (List.range 65).map (fun i =>
      .onTable "orders" (.insertRecord (Record.new (UInt64.ofNat i) Json.emptyObject))) ++
    [.onTable "orders" (.deleteRecord 7)]

omit [InsertPolicy] in
/-- A table with two pages, from which a record was deleted, is reloaded into a new database. -/
theorem run_reloads_twoPages :
    letI : InsertPolicy := ⟨true⟩
    ∃ responses db t envelope target',
      run Database.call (Database.new "shop") fillTwoPages = .ok (responses, db) ∧
      db.tables = [0] ∧ db.heap.get? 0 = some t ∧
      t.pages.map (fun page => page.live.length) = [63, 1] ∧
      db.toJson = .ok envelope ∧ fromJson envelope (Database.new "copy") = .ok .OK target' ∧
      Reloaded db target' := by
  let _ : InsertPolicy := ⟨true⟩
  obtain ⟨responses, db, hrun, hreload⟩ := run_reloads "shop" fillTwoPages (by decide +kernel)
  have hleft : ∀ result ∈ (run Database.call (Database.new "shop") fillTwoPages).toOption,
      result.2.SmallIds ∧ result.2.tables = [0] ∧ ∃ t ∈ result.2.heap.get? 0,
        t.pages.map (fun page => page.live.length) = [63, 1] := by decide +kernel
  obtain ⟨hfinal, htables, t, ht, hpages⟩ := hleft (responses, db) (by rw [hrun]; rfl)
  obtain ⟨envelope, target', hwrite, hread, hreloaded, _⟩ :=
    hreload hfinal (Database.new "copy") (Consistent.new "copy").owned
  exact ⟨responses, db, t, envelope, target', hrun, htables, ht, hpages, hwrite, hread, hreloaded⟩

end Database

end MiniDB.Core
