import MiniDB.Core.LoadIntegrity

/-!
# Changes of records

What insertions, updates and deletions do to the document of a table whose pages have exact
slots, however its records and pages are numbered. A call that succeeds marks the table
dirty; it leaves the document alone only if it updates a record to the data it has.
-/

namespace MiniDB.Core

open MiniDB.Common MiniDB.JsonPro Memory

/-- A call on the records of a table. -/
inductive RecordCall
  | insertRecord (record : Record)
  | updateRecord (record : Record)
  | deleteRecord (id : RecordID)

/-- The call as one of the calls on a table. -/
def RecordCall.toTableCall : RecordCall → TableCall
  | .insertRecord record => .insertRecord record
  | .updateRecord record => .updateRecord record
  | .deleteRecord id => .deleteRecord id

namespace Table

/-- Whether a call will store a new record, give one other data or delete one. -/
def Changes (t : Table) : RecordCall → Prop
  | .insertRecord record =>
    record.validate t.schema = .OK ∧ t.index.contains record.id = false
  | .updateRecord record => record.validate t.schema = .OK ∧
    ∃ r, t.getRecord record.id record = (.OK, r) ∧ r.data ≠ record.data
  | .deleteRecord id => (t.getRecord id Record.default).1 = .OK

/-- The data of the records in the document of a table. -/
def datasOf (tableJson : Json) : List (Option Json) :=
  ((itemsOf "page" tableJson).flatMap (itemsOf "records")).map fun entry => entry.member? "data"

/-- The document of a table holds the data of its live records. -/
theorem datasOf_toJson (t : Table) :
    datasOf t.toJson = t.liveRecords.map fun r => some r.data := by
  have hpages : itemsOf "page" t.toJson = t.pages.map Page.toJson := rfl
  have hrecords : ∀ page : Page, itemsOf "records" page.toJson = page.live.map Record.toJson :=
    fun _ => rfl
  unfold datasOf liveRecords
  rw [hpages, List.flatMap_map, List.map_flatMap, List.map_flatMap]
  apply List.flatMap_congr
  intro page _
  rw [hrecords, List.map_map]
  rfl

/-- Tables with the same document have the same number of live records. -/
theorem length_liveRecords_of_toJson {t t' : Table} (h : t'.toJson = t.toJson) :
    t'.liveRecords.length = t.liveRecords.length := by
  have hdatas : (datasOf t'.toJson).length = (datasOf t.toJson).length := by rw [h]
  rwa [datasOf_toJson, datasOf_toJson, List.length_map, List.length_map] at hdatas

/-- The document does not change when a page is replaced by one with the same identifier and
the same live records. -/
theorem toJson_setPage {t : Table} {position : ℕ} {page replacement : Page}
    (hpage : t.pages[position]? = some page) (hid : replacement.id = page.id)
    (hlive : replacement.live = page.live) :
    (t.setPage position replacement).toJson = t.toJson := by
  have hsame : replacement.toJson = page.toJson := by
    unfold Page.toJson
    rw [hid, hlive]
  unfold Table.toJson setPage
  dsimp only
  rw [map_set_of_eq hpage hsame]

variable [InsertPolicy]

/-- A call does nothing, or marks the table dirty and changes its document exactly if it changes
a record. -/
def Marks (t : Table) (call : RecordCall) (t' : Table) : Prop :=
  t'.ExactPages ∧ ((t' = t ∧ ¬t.Changes call) ∨
    (t'.isDirty = true ∧ (t.Changes call ↔ t'.toJson ≠ t.toJson)))

/-- An insertion marks the table. -/
private theorem ExactPages.marks_insertRecord {t : Table} (h : t.ExactPages) (record : Record) :
    t.Marks (.insertRecord record) (t.insertRecord record).2 := by
  by_cases hvalid : record.validate t.schema = .OK
  · cases hcontains : t.index.contains record.id with
    | true =>
      rw [insertRecord_of_contains hvalid hcontains]
      refine ⟨h, Or.inl ⟨rfl, fun hchanges => ?_⟩⟩
      rw [hchanges.2] at hcontains
      cases hcontains
    | false =>
      obtain ⟨t', left, right, _, hinsert, hexact, hdirty, _, _, hbefore, hafter⟩ :=
        h.insertRecord hvalid hcontains
      rw [hinsert]
      refine ⟨hexact, Or.inr ⟨hdirty, fun _ hsame => ?_, fun _ => ⟨hvalid, hcontains⟩⟩⟩
      have hlength := length_liveRecords_of_toJson hsame
      rw [hbefore, hafter, List.length_append, List.length_append, List.length_cons] at hlength
      omega
  · rw [insertRecord_of_invalid hvalid]
    exact ⟨h, Or.inl ⟨rfl, fun hchanges => hvalid hchanges.1⟩⟩

omit [InsertPolicy] in
/-- An update marks the table. -/
private theorem ExactPages.marks_updateRecord {t : Table} (h : t.ExactPages) (record : Record) :
    t.Marks (.updateRecord record) (t.updateRecord record).2 := by
  by_cases hvalid : record.validate t.schema = .OK
  · have hchanges : t.Changes (.updateRecord record) ↔
        ∃ position page r, t.locate record.id = some (position, page, r) ∧
          r.data ≠ record.data := by
      unfold Changes
      dsimp only
      rw [getRecord_eq_locate]
      cases t.locate record.id with
      | none => simp
      | some found =>
        obtain ⟨position, page, r⟩ := found
        simp [hvalid]
    unfold Marks
    rw [hchanges, updateRecord_eq_locate hvalid]
    cases hlocate : t.locate record.id with
    | none =>
      refine ⟨h, Or.inl ⟨rfl, ?_⟩⟩
      rintro ⟨_, _, _, hnone, _⟩
      cases hnone
    | some found =>
      obtain ⟨position, page, r⟩ := found
      obtain ⟨hpage, hrecord⟩ := locate_eq_some hlocate
      let replacement := page.change record.id fun existing =>
        { existing with data := record.data }
      have hexact : replacement.Exact := (h page (List.mem_of_getElem? hpage)).change _ _
      refine ⟨h.set position hexact, Or.inr ⟨rfl, ?_, fun hdiffers => ?_⟩⟩
      · rintro ⟨_, _, _, heq, hdata⟩ hsame
        cases heq
        obtain ⟨left, right, hbefore, hafter⟩ := liveRecords_update hlocate record.data
        have hdatas : (t.setPage position replacement).liveRecords.map (fun r => some r.data) =
            t.liveRecords.map fun r => some r.data := by
          rw [← datasOf_toJson, ← datasOf_toJson]
          exact congrArg datasOf hsame
        rw [hbefore, hafter, List.map_append, List.map_append, List.append_cancel_left_eq,
          List.map_cons, List.map_cons] at hdatas
        exact hdata (Option.some.inj (List.cons.inj hdatas).1).symm
      · refine ⟨position, page, r, rfl, fun hdata => hdiffers ?_⟩
        change (t.setPage position replacement).toJson = t.toJson
        have hid : replacement.id = page.id := rfl
        apply toJson_setPage hpage hid
        obtain ⟨left, right, hbefore, hafter⟩ := Page.live_update hrecord record.data
        have hsame : ({ r with data := record.data } : Record) = r := by rw [← hdata]
        rw [hafter, hbefore, hsame]
  · rw [updateRecord_of_invalid hvalid]
    exact ⟨h, Or.inl ⟨rfl, fun hchanges => hvalid hchanges.1⟩⟩

omit [InsertPolicy] in
/-- A deletion marks the table. -/
private theorem ExactPages.marks_deleteRecord {t : Table} (h : t.ExactPages) (id : RecordID) :
    t.Marks (.deleteRecord id) (t.deleteRecord id).2 := by
  have hchanges : t.Changes (.deleteRecord id) ↔ (t.locate id).isSome = true := by
    unfold Changes
    dsimp only
    rw [getRecord_eq_locate]
    cases t.locate id with
    | none => simp
    | some found => simp
  unfold Marks
  rw [hchanges, deleteRecord_eq_locate]
  cases hlocate : t.locate id with
  | none => exact ⟨h, Or.inl ⟨rfl, Bool.false_ne_true⟩⟩
  | some found =>
    obtain ⟨position, page, r⟩ := found
    obtain ⟨hpage, _⟩ := locate_eq_some hlocate
    obtain ⟨left, right, hbefore, hafter⟩ := liveRecords_delete hlocate
    have hexact := (h page (List.mem_of_getElem? hpage)).change id Record.markDeleted
    refine ⟨h.set position hexact, Or.inr ⟨rfl, fun _ hsame => ?_, fun _ => rfl⟩⟩
    have hlength : (t.setPage position (page.change id Record.markDeleted)).liveRecords.length =
        t.liveRecords.length := length_liveRecords_of_toJson hsame
    rw [hbefore, hafter, List.length_append, List.length_append, List.length_cons] at hlength
    omega

/-- A call on the records of a table with exact slots marks it. -/
theorem ExactPages.recordCall {t : Table} (h : t.ExactPages) (call : RecordCall) :
    ∃ s t', t.call call.toTableCall = .ok (.status s, t') ∧ t.Marks call t' := by
  cases call with
  | insertRecord record => exact ⟨_, _, rfl, h.marks_insertRecord record⟩
  | updateRecord record => exact ⟨_, _, rfl, h.marks_updateRecord record⟩
  | deleteRecord id => exact ⟨_, _, rfl, h.marks_deleteRecord id⟩

end Table

end MiniDB.Core
