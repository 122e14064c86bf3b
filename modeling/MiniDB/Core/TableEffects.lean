import MiniDB.Core.RecordChanges
import MiniDB.Core.TableIndex

/-!
# What calls do to the live records of any table

The effects of insertions, updates and deletions on the live records of a table whose live
records are distinct and known to the record index. Nothing else about the table is
assumed; in particular page identifiers may have run out.
-/

namespace MiniDB.Core

open MiniDB.Common MiniDB.JsonPro Memory Refinement

namespace Table

/-- Live records are distinct and known to the record index. -/
structure Separated (t : Table) : Prop where
  /-- No two live records share an identifier. -/
  nodup : (t.liveRecords.map Record.id).Nodup
  /-- The record index has an entry for every live record. -/
  known : ∀ id ∈ t.liveRecords.map Record.id, t.index.contains id = true

/-- A new table has no live records. -/
theorem separated_new (name : String) (id : TableID) (schema : List ColumnDef) :
    (Table.new name id schema).Separated where
  nodup := List.nodup_nil
  known _ h := absurd h List.not_mem_nil

/-- The identifiers after a record was put among others. -/
private theorem mem_map_insert {left right : List Record} {id : RecordID} {r : Record} :
    id ∈ (left ++ r :: right).map Record.id ↔ id = r.id ∨ id ∈ (left ++ right).map Record.id := by
  simp only [List.map_append, List.map_cons, List.mem_append, List.mem_cons]
  exact or_left_comm

section Insertion

variable [InsertPolicy]

/-- An insertion keeps live records distinct and known. -/
theorem Separated.insertRecord {t : Table} (h : t.Separated) (record : Record) :
    (t.insertRecord record).2.Separated := by
  obtain ⟨_, ⟨hlive, hindex⟩ | ⟨_, habsent, left, right, pid, hbefore, hafter, hindex⟩⟩ :=
    t.insertRecord_effect record
  · constructor
    · rw [hlive]
      exact h.nodup
    · rw [hlive, hindex]
      exact h.known
  · have hfresh : record.id ∉ t.liveRecords.map Record.id := by
      intro hmem
      have hknown := h.known _ hmem
      rw [FiniteMap.contains_eq_false.mpr habsent] at hknown
      cases hknown
    have hnodup := h.nodup
    rw [hbefore] at hnodup hfresh
    constructor
    · rw [hafter]
      exact KeyedList.nodup_insert Record.id hnodup hfresh
    · intro id hid
      rw [hindex, FiniteMap.contains_insert habsent]
      by_cases hsame : id = record.id
      · exact Or.inl hsame
      · right
        apply h.known
        rw [hafter, mem_map_insert, Record.new_id, or_iff_right hsame] at hid
        rw [hbefore]
        exact hid

/-- A table that stores every valid record with a fresh identifier. -/
structure Receptive (t : Table) : Prop where
  /-- Pages that are not full have free slots. -/
  exact : ∀ page ∈ t.pages, page.Exact
  /-- No two live records share an identifier. -/
  nodup : (t.liveRecords.map Record.id).Nodup
  /-- The record index has entries for the live records only. -/
  known : ∀ id, t.index.contains id = true ↔ id ∈ t.liveRecords.map Record.id

omit [InsertPolicy] in
/-- Tables whose structures agree are receptive. -/
theorem Consistent.receptive {t : Table} (h : t.Consistent) : t.Receptive where
  exact := h.exact
  nodup := h.nodup
  known _ := h.wired.mapped.contains_index

/-- A receptive table rejects a valid record under the identifier of a live one. -/
theorem Receptive.insertRecord_of_mem {t : Table} (h : t.Receptive) {record : Record}
    (hvalid : record.validate t.schema = .OK) (hmem : record.id ∈ t.liveRecords.map Record.id) :
    t.insertRecord record = (.DUPLICATE_KEY, t) :=
  insertRecord_of_contains hvalid ((h.known record.id).mpr hmem)

/-- A receptive table stores a valid record under a fresh identifier and stays receptive. -/
theorem Receptive.insertRecord {t : Table} (h : t.Receptive) {record : Record}
    (hvalid : record.validate t.schema = .OK) (hfresh : record.id ∉ t.liveRecords.map Record.id) :
    ∃ t' left right, t.insertRecord record = (.OK, t') ∧ t'.Receptive ∧ t'.schema = t.schema ∧
      t.liveRecords = left ++ right ∧
      t'.liveRecords = left ++ Record.new record.id record.data :: right := by
  have hcontains : t.index.contains record.id = false :=
    Bool.eq_false_iff.mpr (mt (h.known record.id).mp hfresh)
  have hunknown : t.index.get? record.id = none := FiniteMap.contains_eq_false.mp hcontains
  obtain ⟨t', left, right, pid, hinsert, hexact, _, hschema, hindex, hbefore, hafter⟩ :=
    ExactPages.insertRecord h.exact hvalid hcontains
  have hnodup := h.nodup
  rw [hbefore] at hnodup hfresh
  refine ⟨t', left, right, hinsert, ⟨hexact, ?_, fun id => ?_⟩, hschema, hbefore, hafter⟩
  · rw [hafter]
    exact KeyedList.nodup_insert Record.id hnodup hfresh
  · rw [hindex, FiniteMap.contains_insert hunknown, hafter, mem_map_insert, h.known, hbefore,
      Record.new_id]

/-- A receptive table rejects a record and stays as it is, or it stores a valid record under a
fresh identifier, beside the others. -/
theorem Receptive.insertRecord_cases {t : Table} (h : t.Receptive) (record : Record) :
    (∃ s, s ≠ .OK ∧ t.insertRecord record = (s, t)) ∨
    (record.validate t.schema = .OK ∧ ∃ t', t.insertRecord record = (.OK, t') ∧ t'.Receptive ∧
      t'.schema = t.schema ∧ t.liveRecords.Sublist t'.liveRecords ∧
      t'.liveRecords.Perm (Record.new record.id record.data :: t.liveRecords)) := by
  by_cases hvalid : record.validate t.schema = .OK
  · by_cases hmem : record.id ∈ t.liveRecords.map Record.id
    · exact Or.inl ⟨.DUPLICATE_KEY, by decide, h.insertRecord_of_mem hvalid hmem⟩
    · obtain ⟨t', left, right, hinsert, h', hschema, hbefore, hafter⟩ :=
        h.insertRecord hvalid hmem
      refine Or.inr ⟨hvalid, t', hinsert, h', hschema, ?_, ?_⟩
      · rw [hbefore, hafter]
        exact (List.sublist_cons_self _ right).append_left left
      · rw [hbefore, hafter]
        exact List.perm_middle
  · exact Or.inl ⟨_, hvalid, insertRecord_of_invalid hvalid⟩

/-- An insertion keeps a table receptive. -/
theorem Receptive.insertRecord_snd {t : Table} (h : t.Receptive) (record : Record) :
    (t.insertRecord record).2.Receptive := by
  rcases h.insertRecord_cases record with ⟨s, _, hinsert⟩ | ⟨_, t', hinsert, h', _⟩
  · rw [hinsert]
    exact h
  · rw [hinsert]
    exact h'

end Insertion

variable {t : Table}

/-- An update keeps live records distinct and known. -/
theorem Separated.updateRecord (h : t.Separated) (record : Record) :
    (t.updateRecord record).2.Separated := by
  obtain ⟨_, hindex, hlive⟩ := t.updateRecord_effect record
  have hids : (t.updateRecord record).2.liveRecords.map Record.id =
      t.liveRecords.map Record.id := by
    rcases hlive with hkept | ⟨_, left, r, right, _, hbefore, hafter⟩
    · rw [hkept]
    · rw [hbefore, hafter, List.map_append, List.map_append]
      rfl
  constructor
  · rw [hids]
    exact h.nodup
  · rw [hids, hindex]
    exact h.known

/-- A deletion keeps live records distinct and known. -/
theorem Separated.deleteRecord (h : t.Separated) (id : RecordID) :
    (t.deleteRecord id).2.Separated := by
  obtain ⟨_, ⟨hlive, hindex⟩ | ⟨left, r, right, rfl, hbefore, hafter, hindex⟩⟩ :=
    t.deleteRecord_effect id
  · constructor
    · rw [hlive]
      exact h.nodup
    · rw [hlive, hindex]
      exact h.known
  · have hnodup := h.nodup
    rw [hbefore] at hnodup
    have hremoved := KeyedList.remove_around Record.id hnodup
    rw [← hafter, ← hbefore] at hremoved
    constructor
    · rw [← hremoved]
      exact h.nodup.sublist (List.filter_sublist.map Record.id)
    · intro other hother
      rw [← hremoved, List.mem_map] at hother
      obtain ⟨found, hfound, rfl⟩ := hother
      obtain ⟨hmem, hne⟩ := List.mem_filter.mp hfound
      rw [hindex, FiniteMap.contains_erase]
      exact ⟨of_decide_eq_true hne, h.known found.id (List.mem_map_of_mem hmem)⟩

variable [InsertPolicy]

/-- Updates and deletions leave the slots exact. -/
private theorem Receptive.exact_recordCall (h : t.Receptive) (call : RecordCall)
    {response : TableResponse} {t' : Table}
    (hcall : t.call call.toTableCall = .ok (response, t')) : t'.ExactPages := by
  obtain ⟨_, marked, hmarked, hmarks⟩ := ExactPages.recordCall h.exact call
  rw [hcall] at hmarked
  cases hmarked
  exact hmarks.1

/-- An update keeps a table receptive. -/
theorem Receptive.updateRecord (h : t.Receptive) (record : Record) :
    (t.updateRecord record).2.Receptive := by
  have hseparated := Separated.updateRecord ⟨h.nodup, fun id => (h.known id).mpr⟩ record
  obtain ⟨_, hindex, hlive⟩ := t.updateRecord_effect record
  refine ⟨h.exact_recordCall (.updateRecord record) rfl, hseparated.nodup, fun id => ?_⟩
  refine ⟨fun hcontains => ?_, hseparated.known id⟩
  rw [hindex, h.known] at hcontains
  rcases hlive with hkept | ⟨_, left, r, right, _, hbefore, hafter⟩
  · rwa [hkept]
  · rw [hbefore, List.map_append] at hcontains
    rw [hafter, List.map_append]
    exact hcontains

/-- A deletion keeps a table receptive. -/
theorem Receptive.deleteRecord (h : t.Receptive) (id : RecordID) :
    (t.deleteRecord id).2.Receptive := by
  have hseparated := Separated.deleteRecord ⟨h.nodup, fun id => (h.known id).mpr⟩ id
  refine ⟨h.exact_recordCall (.deleteRecord id) rfl, hseparated.nodup, fun other => ?_⟩
  refine ⟨fun hcontains => ?_, hseparated.known other⟩
  obtain ⟨_, ⟨hlive, hindex⟩ | ⟨left, r, right, rfl, hbefore, hafter, hindex⟩⟩ :=
    t.deleteRecord_effect id
  · rw [hindex, h.known] at hcontains
    rwa [hlive]
  · rw [hindex, FiniteMap.contains_erase, h.known, hbefore, mem_map_insert] at hcontains
    rw [hafter]
    exact hcontains.2.resolve_left hcontains.1

/-- Rebuilding the indexes keeps a table receptive. -/
theorem Receptive.rebuildIndex (h : t.Receptive) :
    t.rebuildIndex.2.Receptive := by
  refine ⟨h.exact, h.nodup, fun id => ?_⟩
  have hindex := @indexPages_index _ 0 t.pages FiniteMap.empty FiniteMap.empty h.nodup
    (fun _ _ => rfl) id
  change ((indexPages 0 FiniteMap.empty FiniteMap.empty t.pages).1.get? id).isSome = true ↔
    id ∈ t.liveRecords.map Record.id
  unfold liveRecords
  rw [Option.isSome_iff_exists, List.map_flatMap, List.mem_flatMap]
  constructor
  · rintro ⟨pid, hpid⟩
    rcases hindex.mp hpid with hnone | ⟨page, hpage, _, hlive⟩
    · cases hnone
    · exact ⟨page, hpage, hlive⟩
  · rintro ⟨page, hpage, hlive⟩
    exact ⟨page.id, hindex.mpr (Or.inr ⟨page, hpage, rfl, hlive⟩)⟩

omit [InsertPolicy] in
/-- Compacting keeps a table receptive. -/
theorem Receptive.compact (h : t.Receptive) : t.compact.2.Receptive := by
  refine ⟨ExactPages.compact h.exact, ?_, fun id => ?_⟩
  · rw [liveRecords_compact]
    exact h.nodup
  · rw [liveRecords_compact, ← h.known, compact_eq]

/-- Every call keeps a table receptive. -/
theorem Receptive.call {call : TableCall} {response : TableResponse} {t' : Table}
    (h : t.Receptive) (hcall : t.call call = .ok (response, t')) : t'.Receptive := by
  cases call with
  | insertRecord record =>
    cases hcall
    exact h.insertRecord_snd record
  | updateRecord record =>
    cases hcall
    exact h.updateRecord record
  | deleteRecord id =>
    cases hcall
    exact h.deleteRecord id
  | getRecord id out =>
    cases hcall
    exact h
  | compact =>
    cases hcall
    exact h.compact
  | rebuildIndex =>
    cases hcall
    exact h.rebuildIndex

/-- Whatever is called on a new table, it stays receptive. -/
theorem receptive_of_run {name : String} {id : TableID} {schema : List ColumnDef}
    {calls : List TableCall} {responses : List TableResponse}
    (hrun : run Table.call (Table.new name id schema) calls = .ok (responses, t)) :
    t.Receptive :=
  run_keeps (fun h hcall => Receptive.call h hcall) (Consistent.new name id schema).receptive hrun

end Table

end MiniDB.Core
