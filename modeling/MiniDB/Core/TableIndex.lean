import MiniDB.Core.TableOperations

/-!
# Rebuilding and compacting a table

The rebuilt record index resolves an identifier to the page that holds it live, the rebuilt
page index a page identifier to its position, as long as no identifier occurs twice.
Compacting touches no index and leaves the live records as they are.
-/

namespace MiniDB.Core

open MiniDB.Common MiniDB.JsonPro Memory

namespace Table

section Rebuilding

variable [InsertPolicy]

/-- The records of one page are resolved to the page, on top of what was known before. -/
private theorem indexRecords_get? (pid : PageID) {records : List Record}
    {index : FiniteMap RecordID PageID}
    (hnodup : ((records.filter fun r => !r.isDeleted).map Record.id).Nodup)
    (hfresh : ∀ id ∈ (records.filter fun r => !r.isDeleted).map Record.id, index.get? id = none)
    (id : RecordID) :
    (indexRecords pid index records).get? id =
      if id ∈ (records.filter fun r => !r.isDeleted).map Record.id then some pid
      else index.get? id := by
  induction records generalizing index with
  | nil => simp [indexRecords]
  | cons r records ih =>
    unfold indexRecords
    cases hdeleted : r.isDeleted with
    | true =>
      rw [List.filter_cons_of_neg (by simp [hdeleted])] at hnodup hfresh ⊢
      exact ih hnodup hfresh
    | false =>
      rw [List.filter_cons_of_pos (by simp [hdeleted]), List.map_cons] at hnodup hfresh ⊢
      rw [List.nodup_cons] at hnodup
      rw [Bool.not_false, if_pos rfl]
      have hinsert := FiniteMap.get?_insert (hfresh r.id List.mem_cons_self) pid
      have hrest : ∀ other ∈ (records.filter fun r => !r.isDeleted).map Record.id,
          (index.insert r.getID pid).get? other = none := by
        intro other hother
        unfold Record.getID
        rw [hinsert, if_neg (by rintro rfl; exact hnodup.1 hother)]
        exact hfresh other (List.mem_cons_of_mem _ hother)
      rw [ih hnodup.2 hrest, Record.getID, hinsert]
      simp only [List.mem_cons]
      by_cases hid : id = r.id
      · simp [hid]
      · simp only [hid, false_or, if_false]

/-- The rebuilt record index resolves an identifier to the page that holds it live. -/
theorem indexPages_index {position : ℕ} {pages : List Page}
    {index : FiniteMap RecordID PageID} {pageIndex : FiniteMap PageID ℕ}
    (hnodup : ((pages.flatMap Page.live).map Record.id).Nodup)
    (hfresh : ∀ id ∈ (pages.flatMap Page.live).map Record.id, index.get? id = none)
    {id : RecordID} {pid : PageID} :
    (indexPages position index pageIndex pages).1.get? id = some pid ↔
      index.get? id = some pid ∨ ∃ page ∈ pages, page.id = pid ∧ id ∈ page.live.map Record.id := by
  induction pages generalizing position index pageIndex with
  | nil => simp [indexPages]
  | cons page pages ih =>
    rw [List.flatMap_cons, List.map_append] at hnodup hfresh
    obtain ⟨hpage, hpages, hdisjoint⟩ := List.nodup_append.mp hnodup
    have hrecords : ∀ id, (indexRecords page.getID index page.records).get? id =
        if id ∈ page.live.map Record.id then some page.getID else index.get? id :=
      indexRecords_get? page.getID hpage fun id hid => hfresh id (List.mem_append_left _ hid)
    have hrest : ∀ other ∈ (pages.flatMap Page.live).map Record.id,
        (indexRecords page.getID index page.records).get? other = none := by
      intro other hother
      rw [hrecords, if_neg (fun hmem => hdisjoint other hmem other hother rfl)]
      exact hfresh other (List.mem_append_right _ hother)
    unfold indexPages
    rw [ih hpages hrest, hrecords]
    constructor
    · rintro (hfound | ⟨other, hother, hid, hlive⟩)
      · split at hfound
        · rename_i hmem
          right
          exact ⟨page, List.mem_cons_self, Option.some.inj hfound, hmem⟩
        · left
          exact hfound
      · right
        exact ⟨other, List.mem_cons_of_mem _ hother, hid, hlive⟩
    · rintro (hfound | ⟨other, hother, hid, hlive⟩)
      · left
        rw [if_neg]
        · exact hfound
        · intro hmem
          rw [hfresh id (List.mem_append_left _ hmem)] at hfound
          cases hfound
      · rcases List.mem_cons.mp hother with rfl | hother
        · left
          rw [if_pos hlive]
          exact congrArg some hid
        · right
          exact ⟨other, hother, hid, hlive⟩

/-- The rebuilt page index is filled page by page. -/
theorem indexPages_pageIndex_eq (position : ℕ)
    (index : FiniteMap RecordID PageID) (pageIndex : FiniteMap PageID ℕ) (pages : List Page) :
    (indexPages position index pageIndex pages).2 =
      pageIndex.insertAll ((pages.zipIdx position).map fun item => (item.1.id, item.2)) := by
  induction pages generalizing position index pageIndex with
  | nil => rfl
  | cons page pages ih =>
    unfold indexPages
    rw [ih, List.zipIdx_cons, List.map_cons, FiniteMap.insertAll]
    rfl

end Rebuilding

/-- Compacting the pages one after the other never fails. -/
theorem compactPages_eq (pages : List Page) :
    compactPages pages = (.OK, pages.map fun page => page.compact.2) := by
  induction pages with
  | nil => rfl
  | cons page pages ih =>
    unfold compactPages
    rw [show page.compact = (.OK, page.compact.2) from rfl, ih]
    rfl

/-- Compacting a table compacts its pages and clears its dirty mark. -/
theorem compact_eq (t : Table) :
    t.compact =
      (.OK, { t with pages := t.pages.map fun page => page.compact.2, dirty := false }) := by
  unfold compact
  rw [compactPages_eq]

@[simp] theorem compact_name (t : Table) : t.compact.2.name = t.name := by rw [compact_eq]

@[simp] theorem compact_id (t : Table) : t.compact.2.id = t.id := by rw [compact_eq]

@[simp] theorem compact_schema (t : Table) : t.compact.2.schema = t.schema := by rw [compact_eq]

/-- Compacting a table keeps its live records. -/
@[simp] theorem liveRecords_compact (t : Table) : t.compact.2.liveRecords = t.liveRecords := by
  rw [compact_eq]
  unfold liveRecords
  rw [List.flatMap_map]
  apply List.flatMap_congr
  intro page _
  exact page.live_compact

/-- A compacted table is written to the same envelope. -/
theorem toJson_compact (t : Table) : t.compact.2.toJson = t.toJson := by
  have hpages : (t.pages.map fun p => p.compact.2).map Page.toJson = t.pages.map Page.toJson := by
    rw [List.map_map]
    exact List.map_congr_left fun p _ => p.toJson_compact
  rw [compact_eq]
  unfold toJson
  rw [hpages]

/-- Compacting a table keeps its slots exact. -/
theorem ExactPages.compact {t : Table} (h : t.ExactPages) : t.compact.2.ExactPages := by
  rw [compact_eq]
  intro page hpage
  obtain ⟨original, horiginal, rfl⟩ := List.mem_map.mp hpage
  exact (Page.compact_spec (h original horiginal)).2

end Table

end MiniDB.Core
