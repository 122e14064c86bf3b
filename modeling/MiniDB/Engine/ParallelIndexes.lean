import MiniDB.Core.DatabaseConsistency
import MiniDB.Engine.Concurrency
import MiniDB.Library.OwnObjects

/-!
# Rebuilding indexes in parallel

`rebuildAllIndexesParallel` of `Concurrency.cpp`: one task for every table, with a turn for every
page and for every record that it indexes. The tasks clear both indexes of their tables first, so
between its turns a table cannot find all of its records; behind the batch it can.
-/

namespace MiniDB.Engine

open MiniDB.Common MiniDB.JsonPro MiniDB.Core Memory TaskPool Interleaving

section Rebuilding

variable [InsertPolicy]

/-- Where `rebuildIndex` stands: before both indexes are cleared, before a page of its outer loop
or before a slot of its inner loop. -/
inductive RebuildStage
  | clearing
  | page (position : ℕ)
  | record (position slot : ℕ)
  | ended (r : Except Fault Status)

/-- How a task has ended. -/
def RebuildStage.result : RebuildStage → Option (Except Fault Status)
  | .ended r => some r
  | _ => none

/-- A turn of `rebuildIndex`. -/
def rebuildTurn : RebuildStage → Table → RebuildStage × Table
  | .clearing, t => (.page 0, { t with index := FiniteMap.empty, pageIndex := FiniteMap.empty })
  | .page position, t =>
    match t.pages[position]? with
    | none => (.ended (.ok .OK), t)
    | some page =>
      (.record position 0, { t with pageIndex := t.pageIndex.insert page.getID position })
  | .record position slot, t =>
    match t.pages[position]? with
    | none => (.page (position + 1), t)
    | some page =>
      match page.records[slot]? with
      | none => (.page (position + 1), t)
      | some r =>
        if !r.isDeleted then
          (.record position (slot + 1), { t with index := t.index.insert r.getID page.getID })
        else (.record position (slot + 1), t)
  | .ended r, t => (.ended r, t)

/-- The task of a table. -/
def rebuildTask : ObjectTask Table RebuildStage Status where
  turn := rebuildTurn
  result := RebuildStage.result
  failed fault := .ended (.error fault)

/-- `rebuildAllIndexesParallel`, as the batch that `runParallel` puts on the pool. -/
def rebuildAllIndexesParallel (db : Database) :
    Batch Address (Heap Table) RebuildStage Fault Status :=
  rebuildTask.batch db.tables .OK lastNotOk

/-- The inner loop indexes the records that are left of a page. -/
theorem reaches_indexRecords {t : Table} {position : ℕ} {page : Page}
    (hpage : t.pages[position]? = some page) {records : List Record} {slot : ℕ}
    (hrecords : page.records.drop slot = records) (index : FiniteMap RecordID PageID) :
    Reaches rebuildTask.alone (.record position slot, some { t with index := index })
      (.page (position + 1),
        some { t with index := Table.indexRecords page.getID index records }) := by
  -- induction on the records that are left; every turn passes over one slot
  induction records generalizing slot index with
  | nil =>
    have hend : page.records[slot]? = none :=
      List.getElem?_eq_none (List.drop_eq_nil_iff.mp hrecords)
    have hturn : rebuildTask.alone (.record position slot, some { t with index := index }) =
        (.page (position + 1), some { t with index := index }) := by
      unfold ObjectTask.alone rebuildTask rebuildTurn
      dsimp only [RebuildStage.result]
      rw [hpage]
      dsimp only
      rw [hend]
    exact Reaches.next (hturn ▸ .refl _ _)
  | cons r records ih =>
    have hget : page.records[slot]? = some r := by
      rw [← List.head?_drop, hrecords, List.head?_cons]
    have hrest : page.records.drop (slot + 1) = records := by
      rw [← List.tail_drop, hrecords, List.tail_cons]
    have hturn : rebuildTask.alone (.record position slot, some { t with index := index }) =
        (.record position (slot + 1), some { t with
          index := if !r.isDeleted then index.insert r.getID page.getID else index }) := by
      unfold ObjectTask.alone rebuildTask rebuildTurn
      dsimp only [RebuildStage.result]
      rw [hpage]
      dsimp only
      rw [hget]
      dsimp only
      cases r.isDeleted with
      | true => rfl
      | false => rfl
    apply Reaches.next
    rw [hturn]
    exact ih hrest _

/-- The outer loop indexes the pages that are left. -/
theorem reaches_indexPages {t : Table} {pages : List Page} {position : ℕ}
    (hpages : t.pages.drop position = pages) (index : FiniteMap RecordID PageID)
    (pageIndex : FiniteMap PageID ℕ) :
    Reaches rebuildTask.alone
      (.page position, some { t with index := index, pageIndex := pageIndex })
      (.ended (.ok .OK), some { t with
        index := (Table.indexPages position index pageIndex pages).1
        pageIndex := (Table.indexPages position index pageIndex pages).2 }) := by
  induction pages generalizing position index pageIndex with
  | nil =>
    have hend : t.pages[position]? = none :=
      List.getElem?_eq_none (List.drop_eq_nil_iff.mp hpages)
    have hturn : rebuildTask.alone
        (.page position, some { t with index := index, pageIndex := pageIndex }) =
        (.ended (.ok .OK), some { t with index := index, pageIndex := pageIndex }) := by
      unfold ObjectTask.alone rebuildTask rebuildTurn
      dsimp only [RebuildStage.result]
      rw [hend]
    exact Reaches.next (hturn ▸ .refl _ _)
  | cons page pages ih =>
    have hget : t.pages[position]? = some page := by
      rw [← List.head?_drop, hpages, List.head?_cons]
    have hrest : t.pages.drop (position + 1) = pages := by
      rw [← List.tail_drop, hpages, List.tail_cons]
    have hturn : rebuildTask.alone
        (.page position, some { t with index := index, pageIndex := pageIndex }) =
        (.record position 0, some { t with
          index := index, pageIndex := pageIndex.insert page.getID position }) := by
      unfold ObjectTask.alone rebuildTask rebuildTurn
      dsimp only [RebuildStage.result]
      rw [hget]
    apply Reaches.next
    rw [hturn]
    have hrecords := @reaches_indexRecords _
      { t with pageIndex := pageIndex.insert page.getID position } position page hget
      page.records 0 rfl index
    exact hrecords.trans (ih hrest _ _)

/-- A task that is left alone does what `rebuildIndex` does. -/
theorem reaches_rebuildIndex (t : Table) :
    Reaches rebuildTask.alone (.clearing, some t)
      (.ended (.ok t.rebuildIndex.1), some t.rebuildIndex.2) :=
  Reaches.next (reaches_indexPages (t := t) rfl FiniteMap.empty FiniteMap.empty)

/-- Whatever the schedule, rebuilding all indexes in parallel ends and returns `OK`. Every table
ends as `rebuildIndex` alone leaves it, and nothing else is touched: it keeps its pages, and if the
identifiers on them are distinct it finds exactly its live records, whatever its indexes were. A
table whose indexes were right is unchanged. -/
theorem rebuilds_as_loop {db : Database} (howned : db.Owned) {pool : TaskPool.Pool}
    (hthreads : 0 < pool.threads) :
    EndsIn (rebuildAllIndexesParallel db) pool db.heap (fun _ => .clearing) fun s =>
      s.caller = .returned .OK ∧
      (∀ address, address ∉ db.tables → s.shared.get? address = db.heap.get? address) ∧
      ∀ address ∈ db.tables, ∀ t, db.heap.get? address = some t →
        ∃ t', s.shared.get? address = some t' ∧ t' = t.rebuildIndex.2 ∧ t'.pages = t.pages ∧
          (t.Wired → t' = t) ∧
          ((t.pages.map Page.id).Nodup → (t.liveRecords.map Record.id).Nodup → ∀ id out,
            t'.getRecord id out =
              match KeyedList.lookup Record.id t.liveRecords id with
              | some r => (.OK, r)
              | none => (.NOT_FOUND, out)) := by
  have hcall : ∀ t : Table, ∃ stage, Reaches rebuildTask.alone (.clearing, some t)
      (stage, some t.rebuildIndex.2) ∧ rebuildTask.result stage = some (.ok t.rebuildIndex.1) :=
    fun t => ⟨_, reaches_rebuildIndex t, rfl⟩
  have halive : ∀ address ∈ db.tables, ∃ t value, db.heap.get? address = some t ∧
      (Except.ok t.rebuildIndex.1 : Except Fault Status) = .ok value := by
    intro address haddress
    obtain ⟨t, ht⟩ := howned.alive address haddress
    exact ⟨t, _, ht, rfl⟩
  have hends := @ObjectTask.endsIn _ _ _ rebuildTask db.tables .OK lastNotOk db.heap .clearing
    (fun t => (.ok t.rebuildIndex.1, t.rebuildIndex.2)) hcall howned.nodup pool hthreads halive
  refine ⟨hends.1, fun moves s hrun => ⟨(hends.2 moves s hrun).1, fun hback => ?_⟩⟩
  obtain ⟨⟨values, hvalues, hreturned⟩, hinside, houtside, _⟩ := (hends.2 moves s hrun).2 hback
  have hok : ∀ value ∈ values, value = .OK := by
    intro value hvalue
    obtain ⟨i, hi, rfl⟩ := List.mem_iff_getElem.mp hvalue
    have hpair := (List.forall₂_iff_get.mp hvalues).2 i
      (by rw [hvalues.length_eq]; exact hi) hi
    obtain ⟨t, _, hstatus⟩ := hpair
    exact (Except.ok.inj hstatus).symm
  refine ⟨?_, houtside, fun address haddress t ht => ?_⟩
  · rw [hreturned, foldl_lastNotOk_eq_ok_iff.mpr hok]
  · refine ⟨t.rebuildIndex.2, hinside address haddress t ht, rfl, rfl, fun hwired => ?_,
      fun hpages hrecords id out => ?_⟩
    · rw [hwired.rebuildIndex]
    · exact (Table.rebuildIndex_mapped hpages hrecords).getRecord id out

end Rebuilding

/-- A table of one record that has lost its indexes. -/
def lostIndexes [InsertPolicy] (name : String) (id : TableID) (record : Record) : Table :=
  { ((Table.new name id []).insertRecord record).2 with
    index := FiniteMap.empty, pageIndex := FiniteMap.empty }

/-- A database of two such tables. -/
def unindexed [InsertPolicy] : Database :=
  { Database.new "shop" with
    tables := [0, 1]
    heap := (Heap.empty.alloc (lostIndexes "people" 0 (.new 7 Json.emptyObject))).alloc
      (lostIndexes "pets" 1 (.new 8 Json.emptyObject)) }

/-- The records that the tables of that database cannot find are found behind every complete run,
however the two tasks take turns. -/
theorem rebuilds_unindexed :
    letI : InsertPolicy := ⟨true⟩
    (∀ t, unindexed.heap.get? 0 = some t → (t.getRecord 7 Record.default).1 = .NOT_FOUND) ∧
    (∀ t, unindexed.heap.get? 1 = some t → (t.getRecord 8 Record.default).1 = .NOT_FOUND) ∧
    EndsIn (rebuildAllIndexesParallel unindexed) ⟨2, true⟩ unindexed.heap (fun _ => .clearing)
      fun s => ∃ people pets, s.shared.get? 0 = some people ∧ s.shared.get? 1 = some pets ∧
        people.getRecord 7 Record.default = (.OK, .new 7 Json.emptyObject) ∧
        pets.getRecord 8 Record.default = (.OK, .new 8 Json.emptyObject) := by
  let _ : InsertPolicy := ⟨true⟩
  have howned : unindexed.Owned := by
    refine ⟨by decide, fun address haddress => ?_⟩
    rcases List.mem_pair.mp haddress with rfl | rfl
    · exact ⟨_, rfl⟩
    · exact ⟨_, rfl⟩
  refine ⟨?_, ?_, ?_⟩
  · rintro t ⟨⟩
    rfl
  · rintro t ⟨⟩
    rfl
  · obtain ⟨hbound, hends⟩ :=
      rebuilds_as_loop howned (show 0 < (⟨2, true⟩ : TaskPool.Pool).threads by decide)
    refine ⟨hbound, fun moves s hrun => ⟨(hends moves s hrun).1, fun hback => ?_⟩⟩
    obtain ⟨_, _, htables⟩ := (hends moves s hrun).2 hback
    obtain ⟨people, hpeople, _, _, _, hfindsPeople⟩ := htables 0 (by decide) _ rfl
    obtain ⟨pets, hpets, _, _, _, hfindsPets⟩ := htables 1 (by decide) _ rfl
    refine ⟨people, pets, hpeople, hpets, ?_, ?_⟩
    · rw [hfindsPeople (by decide) (by decide)]
      rfl
    · rw [hfindsPets (by decide) (by decide)]
      rfl

end MiniDB.Engine
