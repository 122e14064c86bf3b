import MiniDB.Core.DatabaseRoundTrip

/-!
# Identifiers of a saved database

The tables, pages and records of a database come back from its file under the identifiers
they had if and only if all of these are below `2 ^ 31`.
-/

namespace MiniDB.Core

open MiniDB.Common MiniDB.JsonPro Memory Traversal

namespace Database

/-- The identifiers of the tables that a database holds, of their pages and of the live
records on these. -/
def ids (db : Database) : List (Option (TableID × List (PageID × List RecordID))) :=
  db.tables.map fun address => (db.heap.get? address).map Table.ids

variable [InsertPolicy]

/-- A load that succeeds has decoded every table. -/
theorem mapM_of_fromJson {envelope : Json} {tableJsons : List Json}
    (hmember : envelope.member? "tables" = some (.array tableJsons)) {db db' : Database}
    (h : fromJson envelope db = .ok .OK db') :
    ∃ tables, tableJsons.mapM Table.ofEnvelope? = some tables := by
  unfold fromJson at h
  rw [if_neg (by rw [Json.isNull_of_member? hmember]; exact Bool.false_ne_true),
    lift_bind_of_ok (Json.index_eq_ok.mpr hmember), lift_bind_of_ok (Json.asArray_eq_ok.mpr rfl)]
    at h
  split at h
  · cases h
  · rw [lift_bind_of_ok (Json.index_eq_ok.mpr hmember),
      lift_bind_of_ok (Json.asArray_eq_ok.mpr rfl)] at h
    obtain ⟨⟨s, scratch⟩, db₁, hload, h⟩ := bind_eq_ok h
    by_cases hs : s = .OK
    · subst hs
      exact mapM_of_loadTables hload
    · dsimp only at h
      rw [if_pos hs] at h
      injection h with hstatus
      exact absurd hstatus hs

/-- Loading a text that parses is loading what it parses to, as far as success goes. -/
theorem load_eq_ok [JsonText] {text : List UInt8} {envelope : Json}
    (hparse : JsonText.parse text = .ok envelope) {db db' : Database} :
    load (.OK, text) db = .ok .OK db' ↔ fromJson envelope db = .ok .OK db' := by
  unfold load
  rw [catching_eq_ok (by decide), lift_bind_of_ok hparse]
  by_cases hnull : envelope.isNull = true
  · unfold fromJson
    rw [if_pos hnull, if_pos hnull]
  · rw [if_neg hnull]

/-- A load that succeeds has read and parsed its file. -/
theorem parse_of_load [JsonText] {file : Status × List UInt8} {db db' : Database}
    (h : load file db = .ok .OK db') : ∃ envelope, file.1 = .OK ∧
      JsonText.parse file.2 = .ok envelope ∧ fromJson envelope db = .ok .OK db' := by
  obtain ⟨s, raw⟩ := file
  cases s with
  | OK =>
    have hread := h
    unfold load at hread
    rw [catching_eq_ok (by decide)] at hread
    obtain ⟨envelope, hparse, _⟩ := lift_bind_eq_ok hread
    exact ⟨envelope, rfl, hparse, (load_eq_ok hparse).mp h⟩
  | _ => cases h

end Database

end MiniDB.Core
