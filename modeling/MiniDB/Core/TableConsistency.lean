import MiniDB.Core.TableWiring

/-!
# Consistency of a table

Four structures of a table describe the same records: the slots of its pages, the record
index, the page index and the page counter. They agree in every table that is built by the
table's own operations, as such a table names its pages by their positions and is wired like
any other.
-/

namespace MiniDB.Core

open MiniDB.Common MiniDB.JsonPro Memory TwoLevelIndex

namespace Table

/-- A live record with the identifier lies on the page at the position. -/
def HoldsAt (pages : List Page) (id : RecordID) (position : ℕ) : Prop :=
  ∃ page, pages[position]? = some page ∧ id ∈ page.live.map Record.id

/-- The structures of a table agree. -/
structure Consistent (t : Table) : Prop where
  /-- The page counter has not wrapped around more than once. -/
  pages_le : t.pages.length ≤ 2 ^ 32
  /-- The next page identifier is the number of pages. -/
  nextPageId : t.nextPageId = UInt32.ofNat t.pages.length
  /-- Pages are identified by their position. -/
  pageId : ∀ {position page}, t.pages[position]? = some page → page.id = UInt32.ofNat position
  /-- Every used slot of a page holds a listed record. -/
  exact : ∀ page ∈ t.pages, page.Exact
  /-- The page index resolves exactly the identifiers of pages. -/
  pageIndex : ∀ id : PageID,
    t.pageIndex.get? id = if id.toNat < t.pages.length then some id.toNat else none
  /-- Live records have distinct identifiers. -/
  nodup : (t.liveRecords.map Record.id).Nodup
  /-- The record index resolves exactly the live records. -/
  index : ∀ (id : RecordID) (pid : PageID),
    t.index.get? id = some pid ↔ HoldsAt t.pages id pid.toNat

/-- The pages of a table are named by their positions, and the counter is the next one. -/
structure Numbered (t : Table) : Prop where
  /-- The page counter has not wrapped around more than once. -/
  pages_le : t.pages.length ≤ 2 ^ 32
  /-- The next page identifier is the number of pages. -/
  nextPageId : t.nextPageId = UInt32.ofNat t.pages.length
  /-- Pages are identified by their position. -/
  pageIds : t.pages.map Page.id = (List.range t.pages.length).map UInt32.ofNat

namespace Numbered

variable {t t' : Table}

/-- A position in the page vector is the value of its page identifier. -/
theorem toNat_ofNat (h : t.Numbered) {position : ℕ} (hlt : position < t.pages.length) :
    (UInt32.ofNat position).toNat = position := by
  have hle := h.pages_le
  rw [UInt32.toNat_ofNat', Nat.mod_eq_of_lt (by omega)]

/-- The identifier at a position has the position as its value. -/
theorem getElem?_pageIds (h : t.Numbered) {pid : PageID} {position : ℕ} :
    (t.pages.map Page.id)[position]? = some pid ↔
      position = pid.toNat ∧ pid.toNat < t.pages.length := by
  rw [h.pageIds, List.getElem?_map, Option.map_eq_some_iff]
  constructor
  · rintro ⟨found, hfound, rfl⟩
    obtain ⟨hlt, rfl⟩ := List.getElem?_eq_some_iff.mp hfound
    rw [List.length_range] at hlt
    rw [List.getElem_range, h.toNat_ofNat hlt]
    exact ⟨rfl, hlt⟩
  · rintro ⟨rfl, hlt⟩
    exact ⟨pid.toNat, List.getElem?_range hlt, UInt32.ofNat_toNat⟩

/-- The page at the value of an identifier is the page with that identifier. -/
theorem getElem?_pages (h : t.Numbered) {pid : PageID} {page : Page} :
    t.pages[pid.toNat]? = some page ↔ page ∈ t.pages ∧ page.id = pid := by
  constructor
  · intro hpage
    have hid : (t.pages.map Page.id)[pid.toNat]? = some page.id := by
      rw [List.getElem?_map, hpage]
      rfl
    exact ⟨List.mem_of_getElem? hpage, UInt32.toNat_inj.mp (h.getElem?_pageIds.mp hid).1.symm⟩
  · rintro ⟨hmem, rfl⟩
    obtain ⟨position, hpage⟩ := List.mem_iff_getElem?.mp hmem
    have hid : (t.pages.map Page.id)[position]? = some page.id := by
      rw [List.getElem?_map, hpage]
      rfl
    rw [← (h.getElem?_pageIds.mp hid).1, hpage]

/-- A record lies at the value of the identifier of its page. -/
theorem holdsAt_iff (h : t.Numbered) {id : RecordID} {pid : PageID} :
    HoldsAt t.pages id pid.toNat ↔ ∃ keys, (pid, keys) ∈ t.pages.map Page.ids ∧ id ∈ keys := by
  unfold HoldsAt
  constructor
  · rintro ⟨page, hpage, hid⟩
    obtain ⟨hmem, rfl⟩ := h.getElem?_pages.mp hpage
    exact ⟨_, List.mem_map_of_mem hmem, hid⟩
  · rintro ⟨keys, hmem, hid⟩
    obtain ⟨page, hpage, hids⟩ := List.mem_map.mp hmem
    obtain ⟨rfl, rfl⟩ := Prod.mk.inj hids
    exact ⟨page, h.getElem?_pages.mpr ⟨hpage, rfl⟩, hid⟩

/-- The page index leads from the names of numbered pages to their values. -/
theorem pageIndex_iff (h : t.Numbered) :
    (∀ id : PageID,
      t.pageIndex.get? id = if id.toNat < t.pages.length then some id.toNat else none) ↔
      ∀ pid position, t.pageIndex.get? pid = some position ↔
        ((t.pages.map Page.ids).map Prod.fst)[position]? = some pid := by
  have hvalue : ∀ (pid : PageID) (position : ℕ),
      (if pid.toNat < t.pages.length then some pid.toNat else none) = some position ↔
        ((t.pages.map Page.ids).map Prod.fst)[position]? = some pid := by
    intro pid position
    rw [map_fst_ids, h.getElem?_pageIds]
    split
    · rename_i hlt
      rw [Option.some.injEq, eq_comm, and_iff_left hlt]
    · rename_i hlt
      simp [hlt]
  constructor
  · intro hindex pid position
    rw [hindex, hvalue]
  · intro hindex pid
    apply Option.ext
    intro position
    rw [hindex, hvalue]

/-- The next identifier is fresh as long as identifiers are left. -/
theorem fresh (h : t.Numbered) (hroom : t.pages.length < 2 ^ 32) :
    t.nextPageId ∉ t.pages.map Page.id := by
  intro hmem
  obtain ⟨position, hposition⟩ := List.mem_iff_getElem?.mp hmem
  have hlt := (h.getElem?_pageIds.mp hposition).2
  rw [h.nextPageId, UInt32.toNat_ofNat', Nat.mod_eq_of_lt hroom] at hlt
  omega

/-- Pages that are neither added nor renamed stay numbered. -/
theorem keeps (h : t.Numbered) (hkept : t.KeepsPages t') : t'.Numbered := by
  have hlength : t'.pages.length = t.pages.length := by
    have hlengths := congrArg List.length hkept.pageIds
    rwa [List.length_map, List.length_map] at hlengths
  constructor
  · rw [hlength]
    exact h.pages_le
  · rw [hlength, hkept.nextPageId]
    exact h.nextPageId
  · rw [hlength, hkept.pageIds]
    exact h.pageIds

/-- Pages stay numbered when one is added, as long as identifiers are left. -/
theorem adds (h : t.Numbered) (hroom : t.pages.length < 2 ^ 32) (hadded : t.AddsPage t') :
    t'.Numbered := by
  have hlength : t'.pages.length = t.pages.length + 1 := by
    have hlengths := congrArg List.length hadded.pageIds
    rwa [List.length_append, List.length_map, List.length_map] at hlengths
  constructor
  · rw [hlength]
    exact hroom
  · rw [hlength, hadded.nextPageId, h.nextPageId]
    apply UInt32.toNat_inj.mp
    rw [UInt32.toNat_add, UInt32.toNat_ofNat', UInt32.toNat_ofNat', Nat.mod_eq_of_lt hroom]
    rfl
  · rw [hlength, hadded.pageIds, h.pageIds, List.range_succ, List.map_append, h.nextPageId]
    rfl

/-- Pages stay numbered in a step that keeps them or adds one. -/
theorem step (h : t.Numbered) (hroom : t.pages.length < 2 ^ 32) {adds : Prop}
    (hpages : ¬adds ∧ t.KeepsPages t' ∨ adds ∧ t.AddsPage t') : t'.Numbered := by
  rcases hpages with ⟨_, hkept⟩ | ⟨_, hadded⟩
  · exact h.keeps hkept
  · exact h.adds hroom hadded

/-- A table with numbered pages whose indices are right is consistent. -/
theorem consistent (h : t.Numbered) (hwired : t.Wired) : t.Consistent where
  pages_le := h.pages_le
  nextPageId := h.nextPageId
  pageId := by
    intro position page hpage
    have hid : (t.pages.map Page.id)[position]? = some page.id := by
      rw [List.getElem?_map, hpage]
      rfl
    rw [(h.getElem?_pageIds.mp hid).1, UInt32.ofNat_toNat]
  exact := hwired.exact
  pageIndex := h.pageIndex_iff.mpr hwired.mapped.shelfIndex
  nodup := hwired.mapped.recordIds
  index id pid := by
    rw [hwired.mapped.index, h.holdsAt_iff]

end Numbered

namespace Consistent

variable {t : Table}

/-- A consistent table numbers its pages. -/
theorem numbered (h : t.Consistent) : t.Numbered where
  pages_le := h.pages_le
  nextPageId := h.nextPageId
  pageIds := by
    apply List.ext_getElem
    · rw [List.length_map, List.length_map, List.length_range]
    · intro position hleft hright
      rw [List.length_map] at hleft
      rw [List.getElem_map, List.getElem_map, List.getElem_range]
      exact h.pageId (List.getElem?_eq_getElem hleft)

/-- The indices of a consistent table are right. -/
theorem wired (h : t.Consistent) : t.Wired where
  exact := h.exact
  mapped := {
    shelves := by
      rw [map_fst_ids, h.numbered.pageIds]
      refine List.Nodup.map_on (fun left hleft right hright hsame => ?_) List.nodup_range
      have hvalue := congrArg UInt32.toNat hsame
      rwa [h.numbered.toNat_ofNat (List.mem_range.mp hleft),
        h.numbered.toNat_ofNat (List.mem_range.mp hright)] at hvalue
    keys := by
      rw [flatMap_snd_ids]
      exact h.nodup
    shelfIndex := h.numbered.pageIndex_iff.mp h.pageIndex
    index := by
      intro id pid
      rw [h.index, h.numbered.holdsAt_iff] }

/-- A new table is consistent. -/
theorem new (name : String) (id : TableID) (schema : List ColumnDef) :
    (Table.new name id schema).Consistent :=
  Numbered.consistent ⟨Nat.zero_le _, rfl, rfl⟩ (wired_new name id schema)

/-- Compacting a consistent table keeps it consistent. -/
theorem compact (h : t.Consistent) : t.compact.2.Consistent := by
  obtain ⟨hwired, hkept⟩ := h.wired.compact
  exact (h.numbered.keeps hkept).consistent hwired

end Consistent

end Table

end MiniDB.Core
