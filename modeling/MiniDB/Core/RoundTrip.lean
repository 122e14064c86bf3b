import MiniDB.Core.Decoding
import MiniDB.Core.TableConsistency
import Mathlib.Data.List.Induction

/-!
# Writing and reading back

Identifiers are written as `int`. A page or table reads back with all of its identifiers
if and only if they are below `2 ^ 31`; it then reads back as what compacting makes of it.
-/

namespace MiniDB.Core

open MiniDB.Common MiniDB.JsonPro Memory Traversal TwoLevelIndex

namespace Page

/-- All identifiers of a page are below `2 ^ 31`. -/
structure SmallIds (p : Page) : Prop where
  /-- The identifier of the page. -/
  page : p.id.toNat < 2 ^ 31
  /-- The identifiers of its live records. -/
  records : ∀ r ∈ p.live, r.id.toNat < 2 ^ 31

instance (p : Page) : Decidable p.SmallIds :=
  decidable_of_iff (p.id.toNat < 2 ^ 31 ∧ ∀ r ∈ p.live, r.id.toNat < 2 ^ 31)
    ⟨fun h => ⟨h.1, h.2⟩, fun h => ⟨h.page, h.records⟩⟩

/-- A page has no more live records than slots. -/
theorem length_live_le (p : Page) : p.live.length ≤ DBConstants.MAX_RECORDS_PAGE :=
  le_trans (List.length_filter_le _ _) (le_trans p.records_le p.pool.used_le)

/-- What a written page decodes to. -/
theorem ofEnvelope?_toJson (p : Page) :
    ofEnvelope? p.toJson =
      (Double.ofInt (toInt32 p.id.toNat)).toUInt32.toOption.bind fun id =>
        ((p.live.map Record.toJson).mapM Record.ofEnvelope?).bind fun records =>
          filled? id records := by
  have hid : p.toJson.member? "__page_id__" =
      some (.number (Double.ofInt (toInt32 p.id.toNat))) := by
    simp [toJson, Json.member?, Json.ofInt]
  have hrecords : p.toJson.member? "records" = some (.array (p.live.map Record.toJson)) := by
    simp [toJson, Json.member?, List.lookup_cons]
  unfold ofEnvelope?
  rw [hid, hrecords]

/-- A live record is not marked. -/
theorem deleted_of_mem_live {p : Page} {r : Record} (h : r ∈ p.live) : r.deleted = false := by
  have hmark := (List.mem_filter.mp h).2
  simpa [Record.isDeleted] using hmark

/-- What the live records of a page with small identifiers decode to. -/
private theorem mapM_live {p : Page} (h : p.SmallIds) :
    (p.live.map Record.toJson).mapM Record.ofEnvelope? = some p.live := by
  have hrecords : (p.live.map Record.toJson).mapM Record.ofEnvelope? =
      some (p.live.map fun r => r) := by
    rw [mapM_map_eq_some]
    intro r hr
    exact Record.ofEnvelope?_toJson_of_lt (h.records r hr)
  rwa [List.map_id'] at hrecords

/-- The records of a decoded page are live if those it was decoded from were. -/
theorem live_of_filled? {id : PageID} {records : List Record} {p : Page}
    (h : filled? id records = some p) (hlive : ∀ r ∈ records, r.deleted = false) :
    p.live = records := by
  obtain ⟨_, _, hrecords, _⟩ := filled?_eq_some.mp h
  unfold live
  rw [hrecords, List.filter_eq_self]
  intro r hr
  unfold Record.isDeleted
  rw [hlive r hr]
  rfl

/-- A page with small identifiers reads back as what compacting makes of it. -/
theorem ofEnvelope?_toJson_of_small {p : Page} (hexact : p.Exact) (hsmall : p.SmallIds) :
    ofEnvelope? p.toJson = some p.compact.2 := by
  rw [ofEnvelope?_toJson, toUInt32_toInt32_iff.mpr hsmall.page, mapM_live hsmall]
  change filled? p.id p.live = some p.compact.2
  rw [filled?_eq_some]
  exact ⟨rfl, rfl, rfl, (compact_spec hexact).2⟩

/-- A page with small identifiers reads back clean, with its identifier and its live
records. -/
theorem exists_ofEnvelope?_toJson {p : Page} (h : p.SmallIds) :
    ∃ p', ofEnvelope? p.toJson = some p' ∧ p'.id = p.id ∧ p'.dirty = false ∧ p'.live = p.live := by
  obtain ⟨p', hp'⟩ : ∃ p', filled? p.id p.live = some p' := by
    unfold filled?
    rw [dif_pos p.length_live_le]
    exact ⟨_, rfl⟩
  obtain ⟨hid, hdirty, _⟩ := filled?_eq_some.mp hp'
  refine ⟨p', ?_, hid, hdirty, live_of_filled? hp' fun r hr => deleted_of_mem_live hr⟩
  rw [ofEnvelope?_toJson, toUInt32_toInt32_iff.mpr h.page, mapM_live h]
  exact hp'

end Page

namespace Table

/-- The identifiers of a table: its own and those of its pages. -/
def ids (t : Table) : TableID × List (PageID × List RecordID) := (t.id, t.pages.map Page.ids)

/-- All identifiers of a table are below `2 ^ 31`. -/
structure SmallIds (t : Table) : Prop where
  /-- The identifier of the table. -/
  table : t.id.toNat < 2 ^ 31
  /-- The identifiers of its pages and records. -/
  pages : ∀ p ∈ t.pages, p.SmallIds

instance (t : Table) : Decidable t.SmallIds :=
  decidable_of_iff (t.id.toNat < 2 ^ 31 ∧ ∀ p ∈ t.pages, p.SmallIds)
    ⟨fun h => ⟨h.1, h.2⟩, fun h => ⟨h.table, h.pages⟩⟩

/-- A written column decodes to itself. -/
theorem columnOfJson?_columnToJson (col : ColumnDef) :
    columnOfJson? (columnToJson col) = some col := by
  have hname : (columnToJson col).member? "name" = some (.string col.name) := by
    simp [columnToJson, Json.member?]
  have htype : (columnToJson col).member? "type" =
      some (.number (Double.ofInt col.type.toInt)) := by
    simp [columnToJson, Json.member?, List.lookup_cons, Json.ofInt]
  have hnullable : (columnToJson col).member? "nullable" = some (.bool col.nullable) := by
    simp [columnToJson, Json.member?, List.lookup_cons]
  unfold columnOfJson?
  rw [hname, htype, hnullable]
  dsimp only
  rw [Double.toInt, Double.toIntegerIn_ofInt col.type.toInt_bounds]
  simp only [Except.toOption, Option.map_some, ColumnType.ofInt_toInt]

/-- Tables agree if all of their fields do. -/
private theorem eq_of_fields {t t' : Table} (hname : t.name = t'.name) (hid : t.id = t'.id)
    (hschema : t.schema = t'.schema) (hpages : t.pages = t'.pages) (hindex : t.index = t'.index)
    (hpageIndex : t.pageIndex = t'.pageIndex) (hnext : t.nextPageId = t'.nextPageId)
    (hdirty : t.dirty = t'.dirty) : t = t' := by
  cases t
  cases t'
  simp_all only

variable [InsertPolicy]

/-- A table that decodes has exact slots. -/
theorem exactPages_of_ofEnvelope? {envelope : Json} {t : Table}
    (h : ofEnvelope? envelope = some t) : t.ExactPages := by
  unfold ofEnvelope? at h
  split at h
  · obtain ⟨id, _, h⟩ := Option.bind_eq_some_iff.mp h
    obtain ⟨schema, _, h⟩ := Option.bind_eq_some_iff.mp h
    obtain ⟨pages, hdecoded, rfl⟩ := Option.map_eq_some_iff.mp h
    refine forall_mem_of_mapM (P := Page.Exact) hdecoded ?_
    intro pageJson _ page hpage
    exact (Page.ofEnvelope?_clean hpage).2
  · cases h

/-- What a written table decodes to. -/
theorem ofEnvelope?_toJson (t : Table) :
    ofEnvelope? t.toJson =
      (Double.ofInt (toInt32 t.id.toNat)).toUInt32.toOption.bind fun id =>
        ((t.pages.map Page.toJson).mapM Page.ofEnvelope?).map fun pages =>
          loaded t.name id t.schema pages := by
  have hid : t.toJson.member? "__table_id___" =
      some (.number (Double.ofInt (toInt32 t.id.toNat))) := by
    simp [toJson, Json.member?, Json.ofInt]
  have hname : t.toJson.member? "__name__" = some (.string t.name) := by
    simp [toJson, Json.member?, List.lookup_cons]
  have hschema : t.toJson.member? "schema" = some (.array (t.schema.map columnToJson)) := by
    simp [toJson, Json.member?, List.lookup_cons]
  have hpage : t.toJson.member? "page" = some (.array (t.pages.map Page.toJson)) := by
    simp [toJson, Json.member?, List.lookup_cons]
  have hcolumns : (t.schema.map columnToJson).mapM columnOfJson? = some t.schema := by
    have hall : (t.schema.map columnToJson).mapM columnOfJson? =
        some (t.schema.map fun col => col) := by
      rw [mapM_map_eq_some]
      intro col _
      exact columnOfJson?_columnToJson col
    rwa [List.map_id'] at hall
  unfold ofEnvelope?
  rw [hid, hname, hschema, hpage]
  dsimp only
  rw [hcolumns]
  rfl

omit [InsertPolicy] in
/-- The largest identifier of pages that are numbered in order is that of the last. -/
private theorem maxPageId_of_numbered {pages : List Page} (hlength : pages.length ≤ 2 ^ 32)
    (hnumbered : ∀ {position page}, pages[position]? = some page →
      page.id = UInt32.ofNat position) :
    maxPageId 0 pages = UInt32.ofNat (pages.length - 1) := by
  induction pages using List.reverseRecOn with
  | nil => rfl
  | append_singleton pages page ih =>
    rw [List.length_append, List.length_singleton] at hlength ⊢
    have hlast : page.id = UInt32.ofNat pages.length := hnumbered (List.getElem?_concat_length ..)
    have hrest : maxPageId 0 pages = UInt32.ofNat (pages.length - 1) := by
      apply ih (by omega)
      intro position other hother
      apply hnumbered
      rw [List.getElem?_append_left (List.getElem?_eq_some_iff.mp hother).1]
      exact hother
    have hfold : maxPageId 0 (pages ++ [page]) = max (maxPageId 0 pages) page.id := by
      unfold maxPageId
      rw [List.foldl_append]
      rfl
    have hle : UInt32.ofNat (pages.length - 1) ≤ UInt32.ofNat pages.length := by
      rw [UInt32.le_iff_toNat_le, UInt32.toNat_ofNat', UInt32.toNat_ofNat',
        Nat.mod_eq_of_lt (by omega), Nat.mod_eq_of_lt (by omega)]
      omega
    rw [hfold, hrest, hlast, Nat.add_sub_cancel]
    exact if_pos hle

omit [InsertPolicy] in
/-- The counter above pages that are numbered in order is their number. -/
private theorem counter_of_numbered {pages : List Page} (hlength : pages.length ≤ 2 ^ 32)
    (hnumbered : ∀ {position page}, pages[position]? = some page →
      page.id = UInt32.ofNat position) :
    (if pages.isEmpty then 0 else maxPageId 0 pages + 1) = UInt32.ofNat pages.length := by
  cases hempty : pages.isEmpty with
  | true =>
    rw [List.isEmpty_iff] at hempty
    subst hempty
    rfl
  | false =>
    have hpos : 0 < pages.length := by
      rw [List.length_pos_iff, ne_eq, ← List.isEmpty_iff, hempty]
      exact Bool.false_ne_true
    rw [if_neg Bool.false_ne_true, maxPageId_of_numbered hlength hnumbered]
    apply UInt32.toNat_inj.mp
    have hone : (1 : UInt32).toNat = 1 := rfl
    rw [UInt32.toNat_add, UInt32.toNat_ofNat', UInt32.toNat_ofNat', hone]
    omega

/-- A consistent table with small identifiers reads back as what compacting makes of it. -/
theorem Consistent.ofEnvelope?_toJson {t : Table} (h : t.Consistent) (hsmall : t.SmallIds) :
    ofEnvelope? t.toJson = some t.compact.2 := by
  have hpages : (t.pages.map Page.toJson).mapM Page.ofEnvelope? =
      some (t.pages.map fun p => p.compact.2) := by
    rw [mapM_map_eq_some]
    intro p hp
    exact Page.ofEnvelope?_toJson_of_small (h.exact p hp) (hsmall.pages p hp)
  have hcompact := h.compact
  rw [compact_eq] at hcompact ⊢
  obtain ⟨hindex, hpageIndex⟩ := Indexed.unique
    (rebuildIndex_mapped hcompact.wired.mapped.pageIds hcompact.nodup) hcompact.wired.mapped
  have hcounter : (loaded t.name t.id t.schema (t.pages.map fun p => p.compact.2)).nextPageId =
      t.nextPageId :=
    (counter_of_numbered hcompact.pages_le hcompact.pageId).trans hcompact.nextPageId.symm
  rw [Table.ofEnvelope?_toJson, toUInt32_toInt32_iff.mpr hsmall.table, hpages]
  change some (loaded t.name t.id t.schema (t.pages.map fun p => p.compact.2)) = _
  congr 1
  apply eq_of_fields
  · rfl
  · rfl
  · rfl
  · rfl
  · exact hindex
  · exact hpageIndex
  · exact hcounter
  · rfl

end Table

end MiniDB.Core
