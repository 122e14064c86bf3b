import MiniDB.Core.TableIndex
import MiniDB.Library.TwoLevelIndex

/-!
# Tables with any page identifiers

A loaded table may number its pages in any way. As long as its pages and its live records
are distinct and both indices lead to them, every operation keeps it so, except that a new
page needs an identifier that no page has.
-/

namespace MiniDB.Core

open MiniDB.Common MiniDB.JsonPro Memory TwoLevelIndex

namespace Table

/-- The pages and the live records of a table are distinct, and its indices lead to them. -/
def Mapped (t : Table) : Prop := Indexed (t.pages.map Page.ids) t.index t.pageIndex

/-- A table whose indices and slots are right. -/
structure Wired (t : Table) : Prop where
  /-- Every used slot of a page holds a listed record. -/
  exact : ∀ page ∈ t.pages, page.Exact
  /-- The indices lead to the pages and to the live records. -/
  mapped : t.Mapped

/-- The names of the shelves are the identifiers of the pages. -/
theorem map_fst_ids (pages : List Page) :
    (pages.map Page.ids).map Prod.fst = pages.map Page.id := by
  rw [List.map_map]
  rfl

/-- The keys on the shelves are the identifiers of the live records. -/
theorem flatMap_snd_ids (pages : List Page) :
    (pages.map Page.ids).flatMap Prod.snd = (pages.flatMap Page.live).map Record.id := by
  rw [List.flatMap_map, List.map_flatMap]
  rfl

/-- A new table has nothing to index. -/
theorem wired_new (name : String) (id : TableID) (schema : List ColumnDef) :
    (Table.new name id schema).Wired where
  exact _ h := absurd h List.not_mem_nil
  mapped := indexed_nil

/-- No page was added or renamed, and the schema is the same. -/
structure KeepsPages (t t' : Table) : Prop where
  /-- The pages have the identifiers that they had. -/
  pageIds : t'.pages.map Page.id = t.pages.map Page.id
  /-- No identifier was issued. -/
  nextPageId : t'.nextPageId = t.nextPageId
  /-- The schema is the same. -/
  schema : t'.schema = t.schema

/-- A page with the next identifier was added, and the schema is the same. -/
structure AddsPage (t t' : Table) : Prop where
  /-- The new page is behind the others. -/
  pageIds : t'.pages.map Page.id = t.pages.map Page.id ++ [t.nextPageId]
  /-- One identifier was issued. -/
  nextPageId : t'.nextPageId = t.nextPageId + 1
  /-- The schema is the same. -/
  schema : t'.schema = t.schema

theorem KeepsPages.refl (t : Table) : t.KeepsPages t := ⟨rfl, rfl, rfl⟩

namespace Mapped

variable {t : Table}

/-- No page identifier is used twice. -/
theorem pageIds (h : t.Mapped) : (t.pages.map Page.id).Nodup := by
  rw [← map_fst_ids]
  exact Indexed.shelves h

/-- No two live records share an identifier. -/
theorem recordIds (h : t.Mapped) : (t.liveRecords.map Record.id).Nodup := by
  unfold liveRecords
  rw [← flatMap_snd_ids]
  exact Indexed.keys h

/-- The record index knows exactly the identifiers of live records. -/
theorem index_eq_none (h : t.Mapped) {id : RecordID} :
    t.index.get? id = none ↔ id ∉ t.liveRecords.map Record.id := by
  unfold liveRecords
  rw [Indexed.index_eq_none h, flatMap_snd_ids]

/-- The page of a live record is found. -/
theorem findPageByID (h : t.Mapped) {id : RecordID} {pid : PageID}
    (hindex : t.index.get? id = some pid) :
    ∃ position page, t.findPageByID pid = some (position, page) ∧
      t.pages[position]? = some page ∧ page.id = pid ∧ id ∈ page.live.map Record.id := by
  obtain ⟨position, keys, hshelf, hlayout, hkey⟩ := Indexed.find h hindex
  rw [List.getElem?_map, Option.map_eq_some_iff] at hlayout
  obtain ⟨page, hpage, hids⟩ := hlayout
  obtain ⟨rfl, rfl⟩ := Prod.mk.inj hids
  refine ⟨position, page, ?_, hpage, rfl, hkey⟩
  unfold Table.findPageByID
  rw [hshelf]
  dsimp only
  rw [hpage]
  rfl

/-- A live record is located. -/
theorem locate_of_mem (h : t.Mapped) {id : RecordID} (hmem : id ∈ t.liveRecords.map Record.id) :
    ∃ position page r, t.locate id = some (position, page, r) := by
  cases hindex : t.index.get? id with
  | none => exact absurd hmem (h.index_eq_none.mp hindex)
  | some pid =>
    obtain ⟨position, page, hfind, _, _, hlive⟩ := h.findPageByID hindex
    obtain ⟨r, hrecord⟩ := Page.exists_getRecord hlive
    refine ⟨position, page, r, ?_⟩
    unfold locate
    rw [hindex, Option.bind_some, hfind, Option.bind_some, hrecord]
    rfl

/-- Nothing is located under an identifier that is not live. -/
theorem locate_of_notMem (h : t.Mapped) {id : RecordID}
    (hmem : id ∉ t.liveRecords.map Record.id) : t.locate id = none := by
  unfold locate
  rw [h.index_eq_none.mpr hmem]
  rfl

/-- Whether the record index knows an identifier. -/
theorem contains_index (h : t.Mapped) {id : RecordID} :
    t.index.contains id = true ↔ id ∈ t.liveRecords.map Record.id := by
  unfold FiniteMap.contains
  rw [Option.isSome_iff_ne_none, ne_eq, h.index_eq_none, not_not]

/-- A live record is found; no other record is. -/
theorem getRecord (h : t.Mapped) (id : RecordID) (out : Record) :
    t.getRecord id out =
      match KeyedList.lookup Record.id t.liveRecords id with
      | some r => (.OK, r)
      | none => (.NOT_FOUND, out) := by
  rw [getRecord_eq_locate]
  by_cases hmem : id ∈ t.liveRecords.map Record.id
  · obtain ⟨position, page, r, hlocate⟩ := h.locate_of_mem hmem
    have hid : r.id = id := id_of_locate hlocate
    have hlookup : KeyedList.lookup Record.id t.liveRecords id = some r := by
      rw [KeyedList.lookup_eq_some Record.id h.recordIds]
      exact ⟨mem_of_locate hlocate, hid⟩
    rw [hlocate, hlookup]
  · rw [h.locate_of_notMem hmem, (KeyedList.lookup_eq_none Record.id).mpr hmem]

end Mapped

/-- Rebuilt indices lead to the pages and to the live records if these are distinct. -/
theorem rebuildIndex_mapped [InsertPolicy] {t : Table} (hpages : (t.pages.map Page.id).Nodup)
    (hrecords : (t.liveRecords.map Record.id).Nodup) : t.rebuildIndex.2.Mapped where
  shelves := by
    rw [map_fst_ids]
    exact hpages
  keys := by
    rw [flatMap_snd_ids]
    exact hrecords
  shelfIndex pid position := by
    have hitems : ((t.pages.zipIdx 0).map fun item => item.1.id) = t.pages.map Page.id := by
      conv_rhs => rw [← List.zipIdx_map_fst 0 t.pages, List.map_map]
      rfl
    have hindexes : t.rebuildIndex.2.pageIndex.Indexes (fun item : Page × ℕ => item.1.id) Prod.snd
        (t.pages.zipIdx 0) := by
      unfold rebuildIndex
      dsimp only
      rw [indexPages_pageIndex_eq]
      exact FiniteMap.indexes_insertAll (hitems ▸ hpages)
    rw [hindexes pid position, map_fst_ids, List.getElem?_map, Option.map_eq_some_iff]
    constructor
    · rintro ⟨item, hitem, hid, rfl⟩
      exact ⟨item.1, List.mk_mem_zipIdx_iff_getElem?.mp hitem, hid⟩
    · rintro ⟨page, hpage, hid⟩
      exact ⟨(page, position), List.mk_mem_zipIdx_iff_getElem?.mpr hpage, hid, rfl⟩
  index id pid := by
    unfold rebuildIndex
    dsimp only
    rw [indexPages_index hrecords (fun _ _ => rfl), FiniteMap.get?_empty]
    constructor
    · rintro (hnone | ⟨page, hpage, rfl, hid⟩)
      · cases hnone
      · exact ⟨_, List.mem_map_of_mem hpage, hid⟩
    · rintro ⟨keys, hmem, hid⟩
      obtain ⟨page, hpage, hids⟩ := List.mem_map.mp hmem
      obtain ⟨rfl, rfl⟩ := Prod.mk.inj hids
      exact Or.inr ⟨page, hpage, rfl, hid⟩

namespace Wired

variable {t : Table}

/-- A page may be replaced by one with the same identifier if the record index follows. -/
theorem replacePage (h : t.Wired) {position : ℕ} {replacement : Page}
    (hexact : replacement.Exact) {index : FiniteMap RecordID PageID} (dirty : Bool)
    (hindexed : Indexed ((t.pages.map Page.ids).set position replacement.ids) index t.pageIndex) :
    Wired { t.setPage position replacement with index, dirty } where
  exact := ExactPages.set h.exact position hexact
  mapped := by
    unfold Mapped setPage
    dsimp only
    rw [List.map_set]
    exact hindexed

/-- An update of a live record that passes validation changes its data, and nothing else. -/
theorem updateRecord (h : t.Wired) {record : Record} (hvalid : record.validate t.schema = .OK)
    (hlive : record.id ∈ t.liveRecords.map Record.id) :
    ∃ t', t.updateRecord record = (.OK, t') ∧ t'.Wired ∧ t.KeepsPages t' ∧
      t'.liveRecords = t.liveRecords.map fun r =>
        if r.id = record.id then { r with data := record.data } else r := by
  obtain ⟨position, page, r, hlocate⟩ := h.mapped.locate_of_mem hlive
  obtain ⟨hpage, hrecord⟩ := locate_eq_some hlocate
  have hexact := (h.exact page (List.mem_of_getElem? hpage)).change record.id
    fun existing => { existing with data := record.data }
  have hmapped : Indexed ((t.pages.map Page.ids).set position (page.change record.id
      fun existing => { existing with data := record.data }).ids) t.index t.pageIndex := by
    rw [← List.map_set, map_set_of_eq hpage (Page.ids_update hrecord record.data)]
    exact h.mapped
  refine ⟨_, ?_, h.replacePage hexact true hmapped, ⟨map_set_of_eq hpage rfl, rfl, rfl⟩,
    liveRecords_update_eq h.mapped.recordIds hlocate record.data⟩
  rw [updateRecord_eq_locate hvalid, hlocate]
  rfl

/-- A deletion of a live record removes it, and nothing else. -/
theorem deleteRecord (h : t.Wired) {id : RecordID} (hlive : id ∈ t.liveRecords.map Record.id) :
    ∃ t', t.deleteRecord id = (.OK, t') ∧ t'.Wired ∧ t.KeepsPages t' ∧
      t'.liveRecords = t.liveRecords.filter fun r => r.id ≠ id := by
  obtain ⟨position, page, r, hlocate⟩ := h.mapped.locate_of_mem hlive
  obtain ⟨hpage, hrecord⟩ := locate_eq_some hlocate
  have hexact := (h.exact page (List.mem_of_getElem? hpage)).change id Record.markDeleted
  have hlayout : (t.pages.map Page.ids)[position]? = some (page.id, page.live.map Record.id) := by
    rw [List.getElem?_map, hpage]
    rfl
  have hremoved := Indexed.removeKey h.mapped hlayout
    (List.mem_map.mpr ⟨r, Page.mem_live_of_getRecord hrecord, Page.id_of_getRecord hrecord⟩)
  rw [← Page.ids_delete hrecord (page_nodup h.mapped.recordIds hpage)] at hremoved
  refine ⟨_, ?_, h.replacePage hexact true hremoved, ⟨map_set_of_eq hpage rfl, rfl, rfl⟩,
    liveRecords_delete_eq h.mapped.recordIds hlocate⟩
  rw [deleteRecord_eq_locate, hlocate]

/-- Compacting keeps the live records where they are. -/
theorem compact (h : t.Wired) : t.compact.2.Wired ∧ t.KeepsPages t.compact.2 := by
  have hids : ((t.pages.map fun page => page.compact.2).map Page.ids) = t.pages.map Page.ids := by
    rw [List.map_map]
    apply List.map_congr_left
    intro page _
    exact congrArg (fun records => (page.id, records.map Record.id)) page.live_compact
  have hexact : t.compact.2.ExactPages := ExactPages.compact h.exact
  rw [compact_eq] at hexact ⊢
  refine ⟨⟨hexact, ?_⟩, ⟨?_, rfl, rfl⟩⟩
  · unfold Mapped
    dsimp only
    rw [hids]
    exact h.mapped
  · dsimp only
    rw [← map_fst_ids, hids, map_fst_ids]

end Wired

section Mutation

variable [InsertPolicy]

/-- A page with an identifier that no page has may be put behind the others. -/
theorem Wired.withNewPage {t : Table} (h : t.Wired) (hfresh : t.nextPageId ∉ t.pages.map Page.id) :
    t.withNewPage.Wired where
  exact := ExactPages.withNewPage h.exact
  mapped := by
    have hadded := Indexed.addShelf h.mapped (by rwa [map_fst_ids])
    rw [List.length_map] at hadded
    unfold Table.withNewPage Mapped
    dsimp only
    rw [List.map_append]
    exact hadded

/-- A record under a fresh identifier may be stored on a page with a free slot. -/
theorem Wired.storeRecord {t : Table} (h : t.Wired) {position : ℕ} {page page' : Page}
    (hpage : t.pages[position]? = some page) {record : Record} (hexact : page'.Exact)
    (hid : page'.id = page.id)
    (hlive : page'.live = page.live ++ [Record.new record.id record.data])
    (hfresh : record.id ∉ t.liveRecords.map Record.id) :
    Wired { t.setPage position page' with
      index := t.index.insert record.id page'.id, dirty := true } := by
  have hids : page'.ids = (page.id, page.live.map Record.id ++ [record.id]) := by
    unfold Page.ids
    rw [hid, hlive, List.map_append]
    rfl
  have hlayout : (t.pages.map Page.ids)[position]? = some (page.id, page.live.map Record.id) := by
    rw [List.getElem?_map, hpage]
    rfl
  have hadded := Indexed.addKey h.mapped hlayout (by rwa [flatMap_snd_ids])
  rw [← hids, ← hid] at hadded
  exact h.replacePage hexact true hadded

/-- A valid record with a fresh identifier is stored, on a new page if all are full. -/
theorem Wired.insertRecord {t : Table} (h : t.Wired) {record : Record}
    (hvalid : record.validate t.schema = .OK) (hnotLive : record.id ∉ t.liveRecords.map Record.id)
    (hfresh : t.NeedsPage record → t.nextPageId ∉ t.pages.map Page.id) :
    ∃ t' left right, t.insertRecord record = (.OK, t') ∧ t'.Wired ∧
      (¬t.NeedsPage record ∧ t.KeepsPages t' ∨ t.NeedsPage record ∧ t.AddsPage t') ∧
      t.liveRecords = left ++ right ∧
      t'.liveRecords = left ++ Record.new record.id record.data :: right := by
  have hcontains : t.index.contains record.id = false :=
    Bool.eq_false_iff.mpr (mt h.mapped.contains_index.mp hnotLive)
  obtain ⟨t₁, position, page, page', hoffers, hexact, hid, hlive, hinsert⟩ :=
    ExactPages.insertRecord_eq h.exact hvalid hcontains
  obtain ⟨left, right, hbefore, hafter⟩ := liveRecords_store hoffers.atPosition hlive
  have hids : (t₁.pages.set position page').map Page.id = t₁.pages.map Page.id :=
    map_set_of_eq hoffers.atPosition hid
  have hwired : t₁.Wired ∧ (¬t.NeedsPage record ∧ t.KeepsPages (t₁.setPage position page') ∨
      t.NeedsPage record ∧ t.AddsPage (t₁.setPage position page')) := by
    rcases hoffers.table with ⟨hroom, rfl⟩ | ⟨hneeds, rfl⟩
    · exact ⟨h, Or.inl ⟨hroom, hids, rfl, rfl⟩⟩
    · exact ⟨h.withNewPage (hfresh hneeds), Or.inr ⟨hneeds, hids.trans List.map_append, rfl, rfl⟩⟩
  rw [← hoffers.liveRecords] at hnotLive
  refine ⟨_, left, right, hinsert,
    hwired.1.storeRecord hoffers.atPosition hexact hid hlive hnotLive, ?_,
    hoffers.liveRecords ▸ hbefore, hafter⟩
  rcases hwired.2 with ⟨hroom, hkept⟩ | ⟨hneeds, hadded⟩
  · exact Or.inl ⟨hroom, hkept.pageIds, hkept.nextPageId, hkept.schema⟩
  · exact Or.inr ⟨hneeds, hadded.pageIds, hadded.nextPageId, hadded.schema⟩

omit [InsertPolicy] in
/-- A record that has to be put on a new page is valid and has a fresh identifier. -/
theorem Mapped.notMem_of_needsPage {t : Table} (h : t.Mapped) {record : Record}
    (hneeds : t.NeedsPage record) :
    record.validate t.schema = .OK ∧ record.id ∉ t.liveRecords.map Record.id := by
  obtain ⟨hvalid, hcontains, _⟩ := hneeds
  rw [← h.index_eq_none]
  unfold FiniteMap.contains at hcontains
  exact ⟨hvalid, Option.isNone_iff_eq_none.mp (Option.isSome_eq_false_iff.mp hcontains)⟩

/-- A record that has to be put on a new page is stored, whatever the identifier of the page. -/
theorem insertRecord_of_needsPage {t : Table} {record : Record} (hneeds : t.NeedsPage record) :
    (t.insertRecord record).1 = .OK := by
  obtain ⟨hvalid, hcontains, hfull⟩ := hneeds
  obtain ⟨t₁, position, page, hoffers, ⟨s, hs, hadd, _⟩ | ⟨_, _, _, _, hinsert⟩⟩ :=
    insertRecord_cases hvalid hcontains
  · have hpage : page ∈ t.pages ++ [Page.new t.nextPageId] := by
      rcases hoffers.table with ⟨hroom, _⟩ | ⟨_, rfl⟩
      · exact absurd ⟨hvalid, hcontains, hfull⟩ hroom
      · exact List.mem_of_getElem? hoffers.atPosition
    rcases List.mem_append.mp hpage with hold | hnew
    · have hroom := hoffers.room
      rw [hfull page hold] at hroom
      cases hroom
    · have hexact : page.Exact := List.mem_singleton.mp hnew ▸ Page.exact_new _
      obtain ⟨page', hadded, _⟩ := Page.addRecord_of_room hexact hoffers.room record
      rw [hadd] at hadded
      exact absurd (congrArg Prod.fst hadded) hs
  · rw [hinsert]

/-- Rebuilding the indices of a wired table changes nothing. -/
theorem Wired.rebuildIndex {t : Table} (h : t.Wired) : t.rebuildIndex = (.OK, t) := by
  have hrebuilt := rebuildIndex_mapped h.mapped.pageIds h.mapped.recordIds
  obtain ⟨hindex, hpageIndex⟩ := Indexed.unique hrebuilt h.mapped
  unfold Table.rebuildIndex at hindex hpageIndex ⊢
  dsimp only at hindex hpageIndex ⊢
  rw [hindex, hpageIndex]

end Mutation

end Table

end MiniDB.Core
