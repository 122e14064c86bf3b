import MiniDB.Core.TableConsistency
import MiniDB.Engine.QueryEngine
import MiniDB.Library.Refinement

/-!
# The table as a map

The public calls of a table are one step function. The specification is a map from record
identifiers to data and what it answers to each call. A consistent table and the map of
its live records stay in agreement along every run that does not exhaust the page
identifiers.
-/

namespace MiniDB.Core

open MiniDB.Common MiniDB.JsonPro MiniDB.Engine Memory Refinement

/-- A call on a table; `out` is what the caller's output record held before. -/
inductive TableCall
  | insertRecord (record : Record)
  | updateRecord (record : Record)
  | deleteRecord (id : RecordID)
  | getRecord (id : RecordID) (out : Record)
  | compact
  | rebuildIndex

/-- What a call reports. -/
inductive TableResponse
  | status (s : Status)
  | record (s : Status) (out : Record)

/-- The data of each record by identifier. -/
abbrev RecordMap := FiniteMap RecordID Json

/-- What a map of records answers to a call, and the map afterwards. -/
def RecordMap.answer (schema : List ColumnDef) (m : RecordMap) :
    TableCall → TableResponse × RecordMap
  | .insertRecord record =>
    if record.validate schema ≠ .OK then (.status (record.validate schema), m)
    else if m.contains record.id then (.status .DUPLICATE_KEY, m)
    else (.status .OK, m.put record.id record.data)
  | .updateRecord record =>
    if record.validate schema ≠ .OK then (.status (record.validate schema), m)
    else if m.contains record.id then (.status .OK, m.put record.id record.data)
    else (.status .NOT_FOUND, m)
  | .deleteRecord id =>
    if m.contains id then (.status .OK, m.erase id) else (.status .NOT_FOUND, m)
  | .getRecord id out =>
    match m.get? id with
    | some data => (.record .OK (Record.new id data), m)
    | none => (.record .NOT_FOUND out, m)
  | .compact => (.status .OK, m)
  | .rebuildIndex => (.status .OK, m)

/-- One call as seen by the map. -/
def MapAnswers (schema : List ColumnDef) (m : RecordMap) (call : TableCall)
    (response : TableResponse) (m' : RecordMap) : Prop :=
  (response, m') = RecordMap.answer schema m call

/-- The records are those of the map: live, each identifier once. -/
structure Lists (records : List Record) (m : RecordMap) : Prop where
  /-- No identifier occurs twice. -/
  nodup : (records.map Record.id).Nodup
  /-- Exactly the entries of the map occur. -/
  mem : ∀ r, r ∈ records ↔ r.deleted = false ∧ m.get? r.id = some r.data

namespace Table

/-- The data of the live records of a table. -/
def contents (t : Table) : RecordMap :=
  ⟨fun id => (KeyedList.lookup Record.id t.liveRecords id).map Record.data⟩

section Calls

variable [InsertPolicy]

/-- One call. -/
def call (t : Table) : TableCall → Except Fault (TableResponse × Table)
  | .insertRecord record =>
    let (s, t) := t.insertRecord record
    .ok (.status s, t)
  | .updateRecord record =>
    let (s, t) := t.updateRecord record
    .ok (.status s, t)
  | .deleteRecord id =>
    let (s, t) := t.deleteRecord id
    .ok (.status s, t)
  | .getRecord id out =>
    let (s, out) := t.getRecord id out
    .ok (.record s out, t)
  | .compact =>
    let (s, t) := t.compact
    .ok (.status s, t)
  | .rebuildIndex =>
    let (s, t) := t.rebuildIndex
    .ok (.status s, t)

end Calls

/-- An identifier is in the map of a table if and only if it is live. -/
theorem contains_contents {t : Table} {id : RecordID} :
    t.contents.contains id = true ↔ id ∈ t.liveRecords.map Record.id := by
  unfold contents FiniteMap.contains
  dsimp only
  rw [Option.isSome_map, Option.isSome_iff_ne_none, ne_eq, KeyedList.lookup_eq_none, not_not]

/-- The live records of a consistent table are those of its map. -/
theorem Consistent.lists {t : Table} (h : t.Consistent) : Lists t.liveRecords t.contents where
  nodup := h.nodup
  mem r := by
    unfold contents
    rw [Option.map_eq_some_iff]
    constructor
    · intro hr
      exact ⟨deleted_of_mem_liveRecords hr,
        r, (KeyedList.lookup_eq_some Record.id h.nodup).mpr ⟨hr, rfl⟩, rfl⟩
    · rintro ⟨hdeleted, found, hfound, hdata⟩
      obtain ⟨hmem, hid⟩ := (KeyedList.lookup_eq_some Record.id h.nodup).mp hfound
      have hsame : found = r := by
        cases found
        cases r
        have hmark := deleted_of_mem_liveRecords hmem
        dsimp only at hdeleted hid hdata hmark
        rw [hid, hdata, hdeleted, hmark]
      exact hsame ▸ hmem

/-- The map of a table after an insertion. -/
theorem contents_insert {t t' : Table} {left right : List Record} {record : Record}
    (hbefore : t.liveRecords = left ++ right) (hafter : t'.liveRecords = left ++ record :: right)
    (hfresh : record.id ∉ t.liveRecords.map Record.id) :
    t'.contents = t.contents.put record.id record.data := by
  apply FiniteMap.ext
  funext id
  unfold contents FiniteMap.put
  dsimp only
  rw [hbefore] at hfresh ⊢
  rw [hafter, KeyedList.lookup_insert Record.id hfresh]
  split <;> rfl

/-- The map of a table after an update of a live record. -/
theorem contents_update {t t' : Table} {record : Record}
    (hlive : record.id ∈ t.liveRecords.map Record.id)
    (hafter : t'.liveRecords = t.liveRecords.map fun r =>
      if r.id = record.id then { r with data := record.data } else r) :
    t'.contents = t.contents.put record.id record.data := by
  apply FiniteMap.ext
  funext id
  unfold contents FiniteMap.put
  dsimp only
  rw [hafter, @KeyedList.lookup_change _ _ _ Record.id (fun r => { r with data := record.data })
    (fun _ => rfl)]
  by_cases hid : id = record.id
  · subst hid
    rw [if_pos rfl, if_pos rfl]
    cases hlookup : KeyedList.lookup Record.id t.liveRecords record.id with
    | none => exact absurd hlive ((KeyedList.lookup_eq_none Record.id).mp hlookup)
    | some found => rfl
  · rw [if_neg hid, if_neg hid]

/-- The map of a table after a deletion. -/
theorem contents_delete {t t' : Table} {id : RecordID}
    (hafter : t'.liveRecords = t.liveRecords.filter fun r => r.id ≠ id) :
    t'.contents = t.contents.erase id := by
  apply FiniteMap.ext
  funext other
  rw [FiniteMap.get?_erase]
  unfold contents
  dsimp only
  rw [hafter, KeyedList.lookup_remove]
  split <;> rfl

/-- The map of a table depends on its live records alone. -/
theorem contents_congr {t t' : Table} (h : t'.liveRecords = t.liveRecords) :
    t'.contents = t.contents := by
  unfold contents
  rw [h]

/-- A lookup that finds exactly the live records answers as the map does. -/
theorem mapAnswers_getRecord {t : Table} (hnodup : (t.liveRecords.map Record.id).Nodup)
    {id : RecordID} {out : Record} (hget : t.getRecord id out =
      match KeyedList.lookup Record.id t.liveRecords id with
      | some r => (.OK, r)
      | none => (.NOT_FOUND, out)) :
    MapAnswers t.schema t.contents (.getRecord id out)
      (.record (t.getRecord id out).1 (t.getRecord id out).2) t.contents := by
  have hcontents : t.contents.get? id =
      (KeyedList.lookup Record.id t.liveRecords id).map Record.data := rfl
  unfold MapAnswers RecordMap.answer
  rw [hget]
  dsimp only
  rw [hcontents]
  cases hlookup : KeyedList.lookup Record.id t.liveRecords id with
  | none => rfl
  | some r =>
    obtain ⟨hr, hid⟩ := (KeyedList.lookup_eq_some Record.id hnodup).mp hlookup
    have hnew : r = Record.new id r.data := by
      cases r
      have hmark := deleted_of_mem_liveRecords hr
      dsimp only at hid hmark
      rw [hid, hmark]
      rfl
    rw [Option.map_some]
    dsimp only
    rw [← hnew]

/-- A later state of a table: the same table with at least the same pages. -/
structure Grows (t t' : Table) : Prop where
  /-- The name is kept. -/
  name : t'.name = t.name
  /-- The identifier is kept. -/
  id : t'.id = t.id
  /-- No page is removed. -/
  pages : t.pages.length ≤ t'.pages.length

theorem Grows.refl (t : Table) : t.Grows t := ⟨rfl, rfl, le_rfl⟩

section Calls

variable [InsertPolicy]

omit [InsertPolicy] in
/-- Replacing a page keeps the fields. -/
private theorem Grows.setPage {t t' : Table} (h : t.Grows t') (position : ℕ) (page : Page) :
    t.Grows (t'.setPage position page) := by
  refine ⟨h.name, h.id, ?_⟩
  unfold Table.setPage
  rw [List.length_set]
  exact h.pages

/-- The page that is offered is on the table or on a later state of it. -/
private theorem Offers.grows {t t₁ : Table} {record : Record} {position : ℕ} {page : Page}
    (h : t.Offers t₁ record position page) : t.Grows t₁ := by
  rcases h.table with ⟨_, rfl⟩ | ⟨_, rfl⟩
  · exact Grows.refl t₁
  · refine ⟨rfl, rfl, ?_⟩
    unfold withNewPage
    rw [List.length_append]
    exact Nat.le_add_right _ _

private theorem grows_insertRecord (t : Table) (record : Record) :
    t.Grows (t.insertRecord record).2 := by
  by_cases hvalid : record.validate t.schema = .OK
  · cases hcontains : t.index.contains record.id with
    | true =>
      rw [insertRecord_of_contains hvalid hcontains]
      exact Grows.refl t
    | false =>
      obtain ⟨t₁, position, page, hoffers, ⟨_, _, _, hinsert⟩ | ⟨page', _, _, _, hinsert⟩⟩ :=
        insertRecord_cases hvalid hcontains
      · rw [hinsert]
        exact hoffers.grows
      · have hgrows := hoffers.grows.setPage position page'
        rw [hinsert]
        exact ⟨hgrows.name, hgrows.id, hgrows.pages⟩
  · rw [insertRecord_of_invalid hvalid]
    exact Grows.refl t

omit [InsertPolicy] in
private theorem grows_updateRecord (t : Table) (record : Record) :
    t.Grows (t.updateRecord record).2 := by
  by_cases hvalid : record.validate t.schema = .OK
  · rw [updateRecord_eq_locate hvalid]
    cases t.locate record.id with
    | none => exact Grows.refl t
    | some found =>
      have hgrows := (Grows.refl t).setPage found.1 (found.2.1.change record.id fun existing =>
        { existing with data := record.data })
      exact ⟨hgrows.name, hgrows.id, hgrows.pages⟩
  · rw [updateRecord_of_invalid hvalid]
    exact Grows.refl t

omit [InsertPolicy] in
private theorem grows_deleteRecord (t : Table) (id : RecordID) :
    t.Grows (t.deleteRecord id).2 := by
  rw [deleteRecord_eq_locate]
  cases t.locate id with
  | none => exact Grows.refl t
  | some found =>
    have hgrows := (Grows.refl t).setPage found.1 (found.2.1.change id Record.markDeleted)
    exact ⟨hgrows.name, hgrows.id, hgrows.pages⟩

/-- A call keeps name and identifier of the table and all of its pages. -/
theorem grows_call {t t' : Table} {call : TableCall} {response : TableResponse}
    (h : t.call call = .ok (response, t')) : t.Grows t' := by
  cases call with
  | insertRecord record =>
    cases h
    exact t.grows_insertRecord record
  | updateRecord record =>
    cases h
    exact t.grows_updateRecord record
  | deleteRecord id =>
    cases h
    exact t.grows_deleteRecord id
  | getRecord id out =>
    cases h
    exact Grows.refl t
  | compact =>
    unfold Table.call at h
    dsimp only at h
    rw [compact_eq] at h
    cases h
    refine ⟨rfl, rfl, ?_⟩
    rw [List.length_map]
  | rebuildIndex =>
    cases h
    exact ⟨rfl, rfl, le_rfl⟩

/-- Every call returns. -/
theorem call_total (t : Table) (call : TableCall) :
    ∃ response t', t.call call = .ok (response, t') := by
  cases call with
  | _ => exact ⟨_, _, rfl⟩

/-- A call that has to create a page. -/
def Allocates (t : Table) : TableCall → Prop
  | .insertRecord record => t.NeedsPage record
  | _ => False

/-- A wired table answers calls as the map of its live records does and stays wired, if the
page that it has to create gets an identifier that no page has. -/
theorem Wired.call {t : Table} (h : t.Wired) (call : TableCall)
    (hfresh : t.Allocates call → t.nextPageId ∉ t.pages.map Page.id) :
    ∃ response t', t.call call = .ok (response, t') ∧ t'.Wired ∧
      MapAnswers t.schema t.contents call response t'.contents ∧
      (¬t.Allocates call ∧ t.KeepsPages t' ∨ t.Allocates call ∧ t.AddsPage t') := by
  cases call with
  | insertRecord record =>
    unfold Table.call MapAnswers RecordMap.answer
    dsimp only
    by_cases hvalid : record.validate t.schema = .OK
    · by_cases hmem : record.id ∈ t.liveRecords.map Record.id
      · rw [insertRecord_of_contains hvalid (h.mapped.contains_index.mpr hmem),
          if_neg (not_not.mpr hvalid), if_pos (contains_contents.mpr hmem)]
        exact ⟨_, _, rfl, h, rfl, Or.inl
          ⟨fun hneeds => (h.mapped.notMem_of_needsPage hneeds).2 hmem, KeepsPages.refl t⟩⟩
      · obtain ⟨t', left, right, hinsert, h', hpages, hbefore, hafter⟩ :=
          h.insertRecord hvalid hmem hfresh
        rw [hinsert, if_neg (not_not.mpr hvalid), if_neg (mt contains_contents.mp hmem)]
        have hcontents := contents_insert hbefore hafter hmem
        exact ⟨_, _, rfl, h', congrArg (Prod.mk _) hcontents, hpages⟩
    · rw [insertRecord_of_invalid hvalid, if_pos hvalid]
      exact ⟨_, _, rfl, h, rfl, Or.inl ⟨fun hneeds => hvalid hneeds.1, KeepsPages.refl t⟩⟩
  | updateRecord record =>
    unfold Table.call MapAnswers RecordMap.answer
    dsimp only
    by_cases hvalid : record.validate t.schema = .OK
    · by_cases hmem : record.id ∈ t.liveRecords.map Record.id
      · obtain ⟨t', hupdate, h', hpages, hafter⟩ := h.updateRecord hvalid hmem
        rw [hupdate, if_neg (not_not.mpr hvalid), if_pos (contains_contents.mpr hmem)]
        have hcontents := contents_update hmem hafter
        exact ⟨_, _, rfl, h', congrArg (Prod.mk _) hcontents, Or.inl ⟨not_false, hpages⟩⟩
      · rw [updateRecord_eq_locate hvalid, h.mapped.locate_of_notMem hmem,
          if_neg (not_not.mpr hvalid), if_neg (mt contains_contents.mp hmem)]
        exact ⟨_, _, rfl, h, rfl, Or.inl ⟨not_false, KeepsPages.refl t⟩⟩
    · rw [updateRecord_of_invalid hvalid, if_pos hvalid]
      exact ⟨_, _, rfl, h, rfl, Or.inl ⟨not_false, KeepsPages.refl t⟩⟩
  | deleteRecord id =>
    unfold Table.call MapAnswers RecordMap.answer
    dsimp only
    by_cases hmem : id ∈ t.liveRecords.map Record.id
    · obtain ⟨t', hdelete, h', hpages, hafter⟩ := h.deleteRecord hmem
      rw [hdelete, if_pos (contains_contents.mpr hmem)]
      have hcontents := contents_delete hafter
      exact ⟨_, _, rfl, h', congrArg (Prod.mk _) hcontents, Or.inl ⟨not_false, hpages⟩⟩
    · rw [deleteRecord_eq_locate, h.mapped.locate_of_notMem hmem,
        if_neg (mt contains_contents.mp hmem)]
      exact ⟨_, _, rfl, h, rfl, Or.inl ⟨not_false, KeepsPages.refl t⟩⟩
  | getRecord id out =>
    refine ⟨_, _, rfl, h, ?_, Or.inl ⟨not_false, KeepsPages.refl t⟩⟩
    exact mapAnswers_getRecord h.mapped.recordIds (h.mapped.getRecord id out)
  | compact =>
    obtain ⟨h', hpages⟩ := h.compact
    have hstatus : t.compact.1 = .OK := by rw [compact_eq]
    refine ⟨.status t.compact.1, t.compact.2, rfl, h', ?_, Or.inl ⟨not_false, hpages⟩⟩
    rw [hstatus, contents_congr t.liveRecords_compact]
    rfl
  | rebuildIndex =>
    unfold Table.call
    dsimp only
    rw [h.rebuildIndex]
    exact ⟨_, _, rfl, h, rfl, Or.inl ⟨not_false, KeepsPages.refl t⟩⟩

/-- Calls keep a consistent table consistent, and it answers as the map of its live records
does, as long as page identifiers are left. -/
theorem Consistent.answers {t : Table} (h : t.Consistent) (hroom : t.pages.length < 2 ^ 32)
    (call : TableCall) :
    ∃ response t', t.call call = .ok (response, t') ∧ t'.Consistent ∧ t'.schema = t.schema ∧
      MapAnswers t.schema t.contents call response t'.contents := by
  obtain ⟨response, t', hcall, hwired, hanswers, hpages⟩ :=
    h.wired.call call fun _ => h.numbered.fresh hroom
  refine ⟨response, t', hcall, (h.numbered.step hroom hpages).consistent hwired, ?_, hanswers⟩
  rcases hpages with ⟨_, hkept⟩ | ⟨_, hadded⟩
  · exact hkept.schema
  · exact hadded.schema

/-- A table and the map of its live records agree. Every call keeps the agreement as long
as page identifiers are left. -/
def mapSimulation (schema : List ColumnDef) :
    Simulation Table.call (MapAnswers schema) (fun t _ => t.pages.length < 2 ^ 32) where
  Related t m := t.Consistent ∧ t.schema = schema ∧ m = t.contents
  step_follows := by
    rintro t m call ⟨h, rfl, rfl⟩ hroom
    obtain ⟨response, t', hcall, h', hschema, hanswers⟩ := h.answers hroom call
    exact ⟨response, t', t'.contents, hcall, hanswers, h', hschema, rfl⟩

/-- Calls keep a table consistent as long as page identifiers are left. -/
theorem Consistent.call {t : Table} (h : t.Consistent) (hroom : t.pages.length < 2 ^ 32)
    (call : TableCall) :
    ∃ response t', t.call call = .ok (response, t') ∧ t'.Consistent ∧ t.Grows t' := by
  obtain ⟨response, t', hcall, h', _⟩ := h.answers hroom call
  exact ⟨response, t', hcall, h', grows_call hcall⟩

/-- As long as page identifiers last, a run of calls on a new table leaves the map that the
calls lead to. -/
theorem run_follows_map {name : String} {id : TableID} {schema : List ColumnDef}
    {calls : List TableCall} {responses : List TableResponse} {t : Table}
    (hrun : run Table.call (Table.new name id schema) calls = .ok (responses, t))
    (hpages : t.pages.length < 2 ^ 32) :
    Follows (MapAnswers schema) FiniteMap.empty calls responses t.contents ∧ t.Consistent := by
  have hback : ∀ {t t' : Table} {call : TableCall} {response : TableResponse},
      t.call call = .ok (response, t') → t'.pages.length < 2 ^ 32 → t.pages.length < 2 ^ 32 :=
    fun hcall => lt_of_le_of_lt (grows_call hcall).pages
  have halong := (along_of_final hback hrun hpages).2
  have hnew : (mapSimulation schema).Related (Table.new name id schema) FiniteMap.empty :=
    ⟨Consistent.new name id schema, rfl, rfl⟩
  obtain ⟨_, _, m, hrun', hfollows, h, _, rfl⟩ := (mapSimulation schema).run_follows hnew halong
  rw [hrun] at hrun'
  cases hrun'
  exact ⟨hfollows, h⟩

/-- Every run of calls on a new table completes. As long as fewer than `2 ^ 32` pages were
created, the responses are those of a map; the unmarked records of the pages, which are
also the result of the full scan, are then exactly the entries of that map. -/
theorem table_refines_map [StdSort] (name : String) (id : TableID) (schema : List ColumnDef)
    (calls : List TableCall) :
    ∃ responses t, run Table.call (Table.new name id schema) calls = .ok (responses, t) ∧
      (t.pages.length < 2 ^ 32 → ∃ m : RecordMap,
        Follows (MapAnswers schema) FiniteMap.empty calls responses m ∧
        Lists ((t.pages.flatMap Page.records).filter fun r => !r.isDeleted) m ∧
        (selectAll t).status = .OK ∧ Lists (selectAll t).records m) := by
  obtain ⟨responses, t, hrun⟩ := run_total call_total (Table.new name id schema) calls
  refine ⟨responses, t, hrun, fun hpages => ?_⟩
  obtain ⟨hfollows, h⟩ := run_follows_map hrun hpages
  refine ⟨t.contents, hfollows, ?_, select_status t [] none 0, ?_⟩
  · rw [List.filter_flatMap]
    exact h.lists
  · rw [selectAll_records]
    exact h.lists

end Calls

/-- A deleted identifier is inserted again and found with its new data. -/
theorem table_refines_map_reinsert :
    letI : InsertPolicy := ⟨true⟩
    letI : StdSort := ⟨fun _ records => records⟩
    ∃ t m, Follows (MapAnswers []) FiniteMap.empty
        [.insertRecord (Record.new 7 Json.emptyObject), .deleteRecord 7,
          .insertRecord (Record.new 7 (.object [("name", .bool true)])),
          .getRecord 7 Record.default]
        [.status .OK, .status .OK, .status .OK,
          .record .OK (Record.new 7 (.object [("name", .bool true)]))] m ∧
      Lists (selectAll t).records m := by
  let _ : InsertPolicy := ⟨true⟩
  let _ : StdSort := ⟨fun _ records => records⟩
  obtain ⟨responses, t, hrun, hmap⟩ := table_refines_map "t" 0 []
    [.insertRecord (Record.new 7 Json.emptyObject), .deleteRecord 7,
      .insertRecord (Record.new 7 (.object [("name", .bool true)])), .getRecord 7 Record.default]
  have hresult := Except.ok.inj hrun
  have hresponses : [.status .OK, .status .OK, .status .OK,
      .record .OK (Record.new 7 (.object [("name", .bool true)]))] = responses :=
    congrArg Prod.fst hresult
  have hpages : 1 = t.pages.length := congrArg (fun result => result.2.pages.length) hresult
  obtain ⟨m, hfollows, _, _, hlists⟩ := hmap (by omega)
  rw [← hresponses] at hfollows
  exact ⟨t, m, hfollows, hlists⟩

end Table

end MiniDB.Core
