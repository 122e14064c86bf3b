import MiniDB.Core.Requirements

/-!
# Failing to load a database

A load that fails while tables are decoded leaves the database alone. Once all tables have
decoded, the old ones are deleted; only then is the name read. If it is missing, the load
fails with the old tables gone. What a load does that converts a number out of range is undefined.
-/

namespace MiniDB.Core

open MiniDB.Common MiniDB.JsonPro Memory Requirement

namespace Database

/-- All fields are the same and every table is still alive with the same content. -/
def Intact (db db' : Database) : Prop := Frame [] db db'

/-- A call is defined, and if it fails, it leaves the database intact. -/
def AllOrNothing (db : Database) : EStateM.Result Fault Database Status → Prop
  | .ok s db' => s ≠ .OK → Intact db db'
  | .error .exception db' => Intact db db'
  | .error .undefined _ => False

/-- The envelope has a name. -/
def Named (envelope : Json) : Prop := ∃ name, envelope.member? "__db_name__" = some (.string name)

/-- A defined call that leaves the database intact is all or nothing. -/
theorem allOrNothing_of_frame {db : Database} {result : EStateM.Result Fault Database Status}
    (hdefined : ∀ db', result ≠ .error .undefined db') (h : Frame [] db (finalState result)) :
    AllOrNothing db result := by
  cases result with
  | ok s db' => exact fun _ => h
  | error fault db' =>
    cases fault with
    | exception => exact h
    | undefined => exact hdefined db' rfl

/-- Turning an exception into an error status does not change whether a call is all or
nothing. -/
theorem allOrNothing_catching {db : Database} {action : EStateM Fault Database Status} :
    AllOrNothing db (catching .PARSE_ERROR action db) ↔ AllOrNothing db (action db) := by
  unfold catching
  cases action db with
  | ok s db' => rfl
  | error fault db' =>
    cases fault with
    | exception =>
      constructor
      · intro h
        exact h (by decide)
      · intro h _
        exact h
    | undefined => rfl

section Loading

variable [InsertPolicy]

/-- The envelope lists not too many tables, each completely described. -/
def TablesDecode (envelope : Json) : Prop :=
  ∃ tableJsons tables, envelope.member? "tables" = some (.array tableJsons) ∧
    tableJsons.length ≤ DBConstants.MAX_TABLES ∧
    tableJsons.mapM Table.ofEnvelope? = some tables

/-- A load whose tables do not all decode leaves the database intact. -/
theorem frame_of_not_tablesDecode {envelope : Json} (h : ¬TablesDecode envelope) (db : Database) :
    Frame [] db (finalState (fromJson envelope db)) := by
  have hrefl := Frame.refl [] db
  unfold fromJson
  split
  · exact hrefl
  · apply finalState_lift_bind (R := Frame []) hrefl
    intro tablesField htablesField
    apply finalState_lift_bind (R := Frame []) hrefl
    intro tableJsons htableJsons
    split
    · exact hrefl
    · rename_i hlength
      rw [lift_bind_of_ok htablesField, lift_bind_of_ok htableJsons]
      rw [Json.index_eq_ok] at htablesField
      rw [Json.asArray_eq_ok] at htableJsons
      subst htableJsons
      have hframe : Frame [] db (finalState (loadTables Scratch.empty tableJsons db)) :=
        Frame.loadTables Scratch.empty tableJsons db
      apply finalState_bind (R := Frame []) Frame.trans hframe
      rintro ⟨s, scratch⟩ db' hload
      by_cases hs : s = .OK
      · subst hs
        obtain ⟨tables, htables⟩ := mapM_of_loadTables hload
        exact absurd ⟨tableJsons, tables, htablesField, Nat.not_lt.mp hlength, htables⟩ h
      · dsimp only
        rw [if_pos hs]
        exact Frame.refl [] db'

/-- Once all tables have decoded, a load without a name throws with the old tables deleted and
the new ones allocated. -/
theorem fromJson_of_unnamed {db : Database} (howned : db.Owned) {envelope : Json}
    {tableJsons : List Json} {tables : List Table}
    (hmember : envelope.member? "tables" = some (.array tableJsons))
    (hlength : tableJsons.length ≤ DBConstants.MAX_TABLES)
    (htables : tableJsons.mapM Table.ofEnvelope? = some tables) (hunnamed : ¬Named envelope) :
    ∃ heap, fromJson envelope db = .error .exception { db with heap } ∧ ∀ address,
      heap.get? address =
        if address ∈ db.tables then none else (db.heap.allocAll tables).get? address := by
  obtain ⟨db', hdelete, hget⟩ := deleteTables_of_owned howned tables
  have hdeleted : Frame db.tables { db with heap := db.heap.allocAll tables }
      (finalState (deleteTables db.tables { db with heap := db.heap.allocAll tables })) :=
    Frame.deleteTables (fun _ hmem => hmem) _
  rw [hdelete] at hdeleted
  have hfields : db' = { db with heap := db'.heap } := hdeleted.fields
  refine ⟨db'.heap, ?_, hget⟩
  rw [fromJson_of_tables hmember hlength htables, ← hfields]
  refine (bind_of_ok hdelete _).trans ?_
  cases hindex : envelope.index "__db_name__" with
  | error fault =>
    unfold Json.index at hindex
    split at hindex
    · cases hindex
    · cases hindex
      rfl
  | ok nameField =>
    rw [lift_bind_of_ok rfl]
    cases nameField with
    | string name => exact absurd ⟨name, Json.index_eq_ok.mp hindex⟩ hunnamed
    | _ => rfl

/-- Once all tables have decoded, a load without a name leaves none of the old tables
alive. -/
theorem fromJson_of_not_named {db : Database} (howned : db.Owned) {envelope : Json}
    (h : TablesDecode envelope) (hunnamed : ¬Named envelope) :
    ∃ db', fromJson envelope db = .error .exception db' ∧ Frame db.tables db db' ∧
      ∀ address ∈ db.tables, db'.heap.get? address = none := by
  obtain ⟨tableJsons, tables, hmember, hlength, htables⟩ := h
  obtain ⟨heap, hload, hget⟩ := fromJson_of_unnamed howned hmember hlength htables hunnamed
  refine ⟨{ db with heap }, hload, ⟨rfl, fun {address t} hnot hsome => ?_⟩,
    fun address haddress => ?_⟩
  · dsimp only
    rw [hget, if_neg hnot]
    exact Heap.get?_allocAll_of_some hsome tables
  · dsimp only
    rw [hget, if_pos haddress]

/-- A load cannot lose the tables of the database: it converts no number out of range, and there
are no tables, or the envelope has a name, or not all of its tables decode. -/
def Safe (db : Database) (envelope : Json) : Prop :=
  InRange (databaseRequirements envelope) ∧
    (db.tables = [] ∨ Named envelope ∨ ¬TablesDecode envelope)

/-- A load that is defined is all or nothing if and only if it cannot lose the tables. -/
theorem fromJson_allOrNothing_of_inRange {db : Database} (howned : db.Owned) {envelope : Json}
    (hrange : InRange (databaseRequirements envelope)) :
    AllOrNothing db (fromJson envelope db) ↔
      db.tables = [] ∨ Named envelope ∨ ¬TablesDecode envelope := by
  by_cases hdecode : TablesDecode envelope
  · by_cases hnamed : Named envelope
    · obtain ⟨tableJsons, tables, hmember, hlength, htables⟩ := hdecode
      obtain ⟨name, hname⟩ := hnamed
      obtain ⟨heap, hload, _⟩ := fromJson_of_named howned hmember hlength htables hname
      rw [hload]
      constructor
      · intro _
        exact Or.inr (Or.inl ⟨name, hname⟩)
      · intro _ hfailed
        exact absurd rfl hfailed
    · obtain ⟨db', hload, hframe, hdead⟩ := fromJson_of_not_named howned hdecode hnamed
      rw [hload]
      constructor
      · intro hintact
        left
        rw [List.eq_nil_iff_forall_not_mem]
        intro address haddress
        obtain ⟨t, ht⟩ := howned.alive address haddress
        have hkept := hintact.heap List.not_mem_nil ht
        rw [hdead address haddress] at hkept
        cases hkept
      · rintro (hempty | hname | hnot)
        · rw [hempty] at hframe
          exact hframe
        · exact absurd hname hnamed
        · exact absurd hdecode hnot
  · constructor
    · intro _
      exact Or.inr (Or.inr hdecode)
    · intro _
      refine allOrNothing_of_frame (fun db' hundefined => ?_) (frame_of_not_tablesDecode hdecode db)
      exact (database_undefined_iff howned envelope).mp ⟨db', hundefined⟩ hrange

/-- A load from an envelope is all or nothing if and only if it is safe. -/
theorem fromJson_allOrNothing_iff {db : Database} (howned : db.Owned) (envelope : Json) :
    AllOrNothing db (fromJson envelope db) ↔ Safe db envelope := by
  unfold Safe
  by_cases hrange : InRange (databaseRequirements envelope)
  · rw [fromJson_allOrNothing_of_inRange howned hrange]
    exact ⟨fun h => ⟨hrange, h⟩, And.right⟩
  · obtain ⟨db', hundefined⟩ := (database_undefined_iff howned envelope).mpr hrange
    rw [hundefined]
    exact ⟨False.elim, fun h => hrange h.1⟩

/-- A load from a file is all or nothing if and only if the load from what the file parses
to is. -/
theorem load_allOrNothing_iff_fromJson [JsonText] (db : Database) (file : Status × List UInt8) :
    AllOrNothing db (load file db) ↔ ∀ envelope, file.1 = .OK →
      JsonText.parse file.2 = .ok envelope → AllOrNothing db (fromJson envelope db) := by
  obtain ⟨s, raw⟩ := file
  by_cases hs : s = .OK
  · subst hs
    cases hparse : JsonText.parse raw with
    | error fault =>
      have hload : load (.OK, raw) db = .ok .PARSE_ERROR db := by
        apply catching_of_exception
        rw [hparse, JsonText.parse_fault hparse]
        rfl
      rw [hload]
      refine ⟨fun _ _ _ hparsed => ?_, fun _ _ => Frame.refl [] db⟩
      cases hparsed
    | ok envelope =>
      rw [load_of_parse hparse, allOrNothing_catching]
      constructor
      · rintro h _ _ ⟨⟩
        exact h
      · intro h
        exact h envelope rfl rfl
  · have hload : load (s, raw) db = .ok s db := by
      unfold load
      cases s with
      | OK => contradiction
      | _ => rfl
    rw [hload]
    exact ⟨fun _ _ hok => absurd hok hs, fun _ _ => Frame.refl [] db⟩

/-- A load, from an envelope or from a file, is all or nothing if and only if it is safe. -/
theorem load_allOrNothing_iff [JsonText] {db : Database} (howned : db.Owned) :
    (∀ envelope, AllOrNothing db (fromJson envelope db) ↔ Safe db envelope) ∧
    ∀ file : Status × List UInt8, AllOrNothing db (load file db) ↔
      ∀ envelope, file.1 = .OK → JsonText.parse file.2 = .ok envelope → Safe db envelope := by
  refine ⟨fromJson_allOrNothing_iff howned, fun file => ?_⟩
  rw [load_allOrNothing_iff_fromJson]
  simp only [fromJson_allOrNothing_iff howned]

end Loading

/-- A database with one table. -/
def shop [InsertPolicy] : Database := (createTable "orders" [] (new "shop")).2

private theorem owned_shop [InsertPolicy] : shop.Owned where
  nodup := List.nodup_singleton _
  alive := by
    intro address haddress
    rw [List.mem_singleton.mp haddress]
    exact ⟨_, Heap.get?_alloc_self _ _⟩

/-- Loading a file that has a name is all or nothing. -/
theorem load_allOrNothing_iff_named :
    let text := "\x7b\"__db_name__\":\"shop\",\"tables\":[]\x7d".toUTF8.toList
    let envelope := Json.object [("__db_name__", .string "shop"), ("tables", .array [])]
    letI : InsertPolicy := ⟨true⟩
    letI := JsonText.ofDocument text envelope
    AllOrNothing shop (load (.OK, text) shop) := by
  intro text envelope
  apply ((@load_allOrNothing_iff ⟨true⟩ (JsonText.ofDocument text envelope) _
    (@owned_shop ⟨true⟩)).2 (.OK, text)).mpr
  intro other _ hparse
  have hother : envelope = other := by
    have hknown : (JsonText.ofDocument text envelope).parse text = .ok envelope := if_pos rfl
    exact Except.ok.inj (hknown.symm.trans hparse)
  rw [← hother]
  exact ⟨by decide, Or.inr (Or.inl ⟨"shop", rfl⟩)⟩

/-- An envelope without a name deletes the tables of the database and then fails. -/
theorem unnamed_load_loses_tables :
    letI : InsertPolicy := ⟨true⟩
    ¬AllOrNothing shop (fromJson (.object [("tables", .array [])]) shop) := by
  rw [@fromJson_allOrNothing_iff ⟨true⟩ _ (@owned_shop ⟨true⟩)]
  rintro ⟨_, hempty | ⟨name, hname⟩ | hnot⟩
  · cases hempty
  · cases hname
  · exact hnot ⟨[], [], rfl, Nat.zero_le _, rfl⟩

end Database

end MiniDB.Core
