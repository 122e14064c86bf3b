import MiniDB.Core.TableRefinement
import MiniDB.Core.Decoding
import MiniDB.Core.Document

/-!
# Validity of stored records

Insertions and updates check a record against the schema before they store it. A load
checks nothing: it replaces the schema, keeps the pages that the table had and adds those
that it decodes, also when it fails on the way. A run therefore keeps every live record
valid exactly as long as each of its loads meets records that satisfy the new schema.
-/

namespace MiniDB.Core

open MiniDB.Common MiniDB.JsonPro Memory Refinement Traversal

/-- All records satisfy a schema. -/
def AllValid (schema : List ColumnDef) (records : List Record) : Prop :=
  ∀ r ∈ records, r.validate schema = .OK

/-- Lists of valid records may be joined. -/
theorem allValid_append {schema : List ColumnDef} {left right : List Record} :
    AllValid schema (left ++ right) ↔ AllValid schema left ∧ AllValid schema right :=
  List.forall_mem_append

/-- A valid record may be put in front of valid ones. -/
theorem allValid_cons {schema : List ColumnDef} {r : Record} {records : List Record} :
    AllValid schema (r :: records) ↔ r.validate schema = .OK ∧ AllValid schema records :=
  List.forall_mem_cons

namespace Table

/-- Every live record satisfies the schema of the table. -/
def Valid (t : Table) : Prop := AllValid t.schema t.liveRecords

section Calls

variable [InsertPolicy]

/-- An insertion stores nothing invalid. -/
private theorem Valid.insertRecord {t : Table} (h : t.Valid) (record : Record) :
    (t.insertRecord record).2.Valid := by
  obtain ⟨hschema, ⟨hlive, _⟩ | ⟨hvalid, _, left, right, _, hbefore, hafter, _⟩⟩ :=
    t.insertRecord_effect record
  · unfold Valid
    rw [hschema, hlive]
    exact h
  · unfold Valid at h ⊢
    rw [hbefore, allValid_append] at h
    rw [hschema, hafter, allValid_append, allValid_cons]
    refine ⟨h.1, ?_, h.2⟩
    rw [← hvalid]
    apply Record.validate_congr
    rfl

omit [InsertPolicy] in
/-- An update stores nothing invalid. -/
private theorem Valid.updateRecord {t : Table} (h : t.Valid) (record : Record) :
    (t.updateRecord record).2.Valid := by
  obtain ⟨hschema, _, hlive | ⟨hvalid, left, r, right, _, hbefore, hafter⟩⟩ :=
    t.updateRecord_effect record
  · unfold Valid
    rw [hschema, hlive]
    exact h
  · unfold Valid at h ⊢
    rw [hbefore, allValid_append, allValid_cons] at h
    rw [hschema, hafter, allValid_append, allValid_cons]
    refine ⟨h.1, ?_, h.2.2⟩
    rw [← hvalid]
    apply Record.validate_congr
    rfl

omit [InsertPolicy] in
/-- A deletion leaves the other records. -/
private theorem Valid.deleteRecord {t : Table} (h : t.Valid) (id : RecordID) :
    (t.deleteRecord id).2.Valid := by
  obtain ⟨hschema, ⟨hlive, _⟩ | ⟨left, r, right, _, hbefore, hafter, _⟩⟩ :=
    t.deleteRecord_effect id
  · unfold Valid
    rw [hschema, hlive]
    exact h
  · unfold Valid at h ⊢
    rw [hbefore, allValid_append, allValid_cons] at h
    rw [hschema, hafter, allValid_append]
    exact ⟨h.1, h.2.2⟩

omit [InsertPolicy] in
/-- Compacting keeps the live records. -/
private theorem Valid.compact {t : Table} (h : t.Valid) : t.compact.2.Valid := by
  unfold Valid
  rw [compact_schema, liveRecords_compact]
  exact h

end Calls

section Loading

/-- Whether a load gets as far as replacing the schema. -/
def replacesSchema (envelope : Json) : Bool :=
  (tableIdOf? envelope).isSome && (tableNameOf? envelope).isSome

/-- The columns that a load reads, up to the first that does not decode. -/
def columnsRead (envelope : Json) : List ColumnDef :=
  decodePrefix columnOfJson? (itemsOf "schema" envelope)

/-- The pages that a load reads, up to the first that does not decode; none if the schema
does not decode. -/
def pagesRead (envelope : Json) : List Page :=
  match envelope.member? "schema" with
  | some (.array cols) =>
    if cols.all fun col => (columnOfJson? col).isSome
      then decodePrefix Page.ofEnvelope? (itemsOf "page" envelope)
    else []
  | _ => []

/-- The state in which decoding columns ends, and whether it ends normally. -/
private theorem loadColumns_final (cols : List Json) (t : Table) :
    finalState (loadColumns cols t) =
        { t with schema := t.schema ++ decodePrefix columnOfJson? cols } ∧
      ((∃ t', loadColumns cols t = .ok ⟨⟩ t') ↔
        cols.all (fun col => (columnOfJson? col).isSome) = true) := by
  induction cols generalizing t with
  | nil =>
    unfold decodePrefix
    rw [List.append_nil]
    exact ⟨rfl, fun _ => rfl, fun _ => ⟨t, rfl⟩⟩
  | cons col cols ih =>
    rw [loadColumns_cons, List.all_cons]
    unfold decodePrefix
    cases hread : readColumn col with
    | error fault =>
      have hnone : columnOfJson? col = none := by
        rw [Option.eq_none_iff_forall_ne_some]
        intro first hfirst
        rw [readColumn_eq_ok.mpr hfirst] at hread
        cases hread
      rw [hnone]
      dsimp only
      rw [List.append_nil]
      refine ⟨rfl, ?_, ?_⟩
      · rintro ⟨_, h⟩
        cases h
      · intro h
        cases h
    | ok first =>
      rw [readColumn_eq_ok.mp hread]
      dsimp only
      obtain ⟨hfinal, hnormal⟩ := ih { t with schema := t.schema ++ [first] }
      refine ⟨?_, ?_⟩
      · rw [hfinal, List.append_assoc, List.singleton_append]
      · rw [hnormal, Option.isSome_some, Bool.true_and]

variable [InsertPolicy]

omit [InsertPolicy] in
/-- What a load leaves behind, apart from the counter and the indices of one that succeeds. -/
def written (t : Table) (envelope : Json) : Table :=
  match tableIdOf? envelope with
  | none => t
  | some id =>
    match tableNameOf? envelope with
    | none => { t with id }
    | some name =>
      { t with id, name, schema := columnsRead envelope, pages := t.pages ++ pagesRead envelope }

omit [InsertPolicy] in
/-- A call ends in a table, or it succeeds with the schema and the pages of that table. -/
def EndsLike (result : EStateM.Result Fault Table Status) (t : Table) : Prop :=
  finalState result = t ∨ (∃ t', result = .ok .OK t') ∧
    (finalState result).schema = t.schema ∧ (finalState result).pages = t.pages

/-- The state in which decoding pages ends. -/
private theorem loadPages_final (start : PageID) (pageJsons : List Json) (t : Table) :
    EndsLike (loadPages start pageJsons t)
      { t with pages := t.pages ++ decodePrefix Page.ofEnvelope? pageJsons } := by
  induction pageJsons generalizing start t with
  | nil =>
    unfold decodePrefix
    rw [List.append_nil]
    exact Or.inr ⟨⟨_, rfl⟩, rfl, rfl⟩
  | cons pageJson pageJsons ih =>
    unfold decodePrefix
    rw [loadPages]
    cases hdecode : Page.ofEnvelope? pageJson with
    | some p =>
      rw [Page.fromJson_eq_ok.mpr hdecode]
      dsimp only
      rw [modify_bind]
      have hrest := ih (max start p.getID) { t with pages := t.pages ++ [p] }
      rwa [List.append_assoc, List.singleton_append] at hrest
    | none =>
      dsimp only
      rw [List.append_nil]
      cases hpage : Page.fromJson pageJson (Page.new DBConstants.INVALID_PAGE_ID) with
      | error fault p => exact Or.inl rfl
      | ok s p =>
        cases s with
        | OK =>
          rw [Page.fromJson_eq_ok, hdecode] at hpage
          cases hpage
        | _ => exact Or.inl rfl

/-- The state in which a load ends. -/
theorem fromJson_written (envelope : Json) (t : Table) :
    EndsLike (fromJson envelope t) (t.written envelope) := by
  unfold fromJson
  split
  · rename_i hnull
    left
    cases envelope with
    | null => rfl
    | _ => cases hnull
  · unfold written
    rw [tableIdOf?_eq, tableNameOf?_eq, lift_lift_bind, lift_lift_bind, lift_bind]
    cases (envelope.index "__table_id___" >>= Json.asNumber) >>= Double.toUInt32 with
    | error fault => exact Or.inl rfl
    | ok id =>
      dsimp only [Except.toOption]
      rw [modify_bind, lift_lift_bind, lift_bind]
      cases envelope.index "__name__" >>= Json.asString with
      | error fault => exact Or.inl rfl
      | ok name =>
        dsimp only
        rw [modify_bind, lift_lift_bind, lift_bind]
        unfold columnsRead pagesRead
        rcases index_asArray "schema" envelope with ⟨cols, hschema, hcols⟩ | ⟨hschema, hcols⟩
        · rw [hcols, itemsOf_of_some hschema, hschema]
          dsimp only
          obtain ⟨hfinal, hnormal⟩ :=
            loadColumns_final cols { t with id := id, name := name, schema := [] }
          cases hload : loadColumns cols { t with id := id, name := name, schema := [] } with
          | error fault t' =>
            rw [hload] at hfinal hnormal
            rw [bind_of_error hload, if_neg, List.append_nil]
            · exact Or.inl hfinal
            · intro hall
              obtain ⟨_, h⟩ := hnormal.mpr hall
              cases h
          | ok _ t' =>
            rw [hload] at hfinal hnormal
            rw [bind_of_ok hload, if_pos (hnormal.mp ⟨t', rfl⟩), lift_lift_bind, lift_bind]
            change t' = _ at hfinal
            subst hfinal
            rcases index_asArray "page" envelope with ⟨pageJsons, hpage, hpages⟩ | ⟨hpage, hpages⟩
            · rw [hpages, itemsOf_of_some hpage]
              exact loadPages_final 0 pageJsons _
            · rw [hpages, itemsOf_eq_nil hpage]
              left
              dsimp only [decodePrefix]
              rw [List.append_nil]
              rfl
        · have hnone : pagesRead envelope = [] := by
            unfold pagesRead
            split
            · rename_i hmember
              exact absurd hmember (hschema _)
            · rfl
          unfold pagesRead at hnone
          rw [hcols, itemsOf_eq_nil hschema, hnone, List.append_nil]
          exact Or.inl rfl

/-- The schema and the pages in which a load ends. -/
theorem fromJson_final (envelope : Json) (t : Table) :
    (finalState (fromJson envelope t)).schema =
        (if replacesSchema envelope then columnsRead envelope else t.schema) ∧
      (finalState (fromJson envelope t)).pages =
        if replacesSchema envelope then t.pages ++ pagesRead envelope else t.pages := by
  have hwritten : (finalState (fromJson envelope t)).schema = (t.written envelope).schema ∧
      (finalState (fromJson envelope t)).pages = (t.written envelope).pages := by
    rcases fromJson_written envelope t with hfinal | ⟨_, hschema, hpages⟩
    · rw [hfinal]
      exact ⟨rfl, rfl⟩
    · exact ⟨hschema, hpages⟩
  rw [hwritten.1, hwritten.2]
  unfold written replacesSchema
  cases tableIdOf? envelope with
  | none => exact ⟨rfl, rfl⟩
  | some id =>
    cases tableNameOf? envelope with
    | none => exact ⟨rfl, rfl⟩
    | some name => exact ⟨rfl, rfl⟩

/-- Whether a load in a state leaves valid records only: it leaves the schema alone, or the
records that stay and those it reads satisfy the columns it reads. -/
def LoadKeeps (t : Table) (envelope : Json) : Prop :=
  replacesSchema envelope = true →
    AllValid (columnsRead envelope) (t.liveRecords ++ (pagesRead envelope).flatMap Page.live)

/-- A load of valid records ends with valid records exactly if it keeps them so. -/
theorem fromJson_valid_iff {t : Table} (h : t.Valid) (envelope : Json) :
    (finalState (fromJson envelope t)).Valid ↔ t.LoadKeeps envelope := by
  obtain ⟨hschema, hpages⟩ := fromJson_final envelope t
  unfold Valid LoadKeeps liveRecords
  rw [hschema, hpages]
  cases replacesSchema envelope with
  | true =>
    rw [if_pos rfl, if_pos rfl, List.flatMap_append]
    exact ⟨fun hvalid _ => hvalid, fun hvalid => hvalid rfl⟩
  | false =>
    rw [if_neg Bool.false_ne_true, if_neg Bool.false_ne_true]
    exact ⟨fun _ hreplaces => absurd hreplaces Bool.false_ne_true, fun _ => h⟩

end Loading

end Table

/-- A call on a table that may store records. -/
inductive StoreCall
  | table (call : TableCall)
  | fromJson (envelope : Json)
  | deserialize (raw : List UInt8)

/-- What such a call reports; an exception reaches the caller. -/
inductive StoreResponse
  | table (response : TableResponse)
  | status (s : Status)
  | exception

namespace Table

variable [JsonText] [InsertPolicy]

/-- What a decoding call leaves to its caller. -/
def loadResponse : EStateM.Result Fault Table Status → Except Fault (StoreResponse × Table)
  | .ok s t => .ok (.status s, t)
  | .error .exception t => .ok (.exception, t)
  | .error .undefined _ => .error .undefined

/-- One call. -/
def storeCall (t : Table) : StoreCall → Except Fault (StoreResponse × Table)
  | .table c => (t.call c).map fun result => (.table result.1, result.2)
  | .fromJson envelope => loadResponse (fromJson envelope t)
  | .deserialize raw => loadResponse (deserialize raw t)

/-- Whether a call in a state stores valid records only: a load has to, other calls
check. -/
def Keeps (t : Table) : StoreCall → Prop
  | .table _ => True
  | .fromJson envelope => t.LoadKeeps envelope
  | .deserialize raw => ∀ envelope, JsonText.parse raw = .ok envelope → t.LoadKeeps envelope

omit [JsonText] in
/-- Calls other than loads check what they store. -/
theorem Valid.call {t t' : Table} (h : t.Valid) {c : TableCall} {response : TableResponse}
    (hcall : t.call c = .ok (response, t')) : t'.Valid := by
  cases c with
  | insertRecord record =>
    cases hcall
    exact h.insertRecord record
  | updateRecord record =>
    cases hcall
    exact h.updateRecord record
  | deleteRecord id =>
    cases hcall
    exact h.deleteRecord id
  | getRecord id out =>
    cases hcall
    exact h
  | compact =>
    cases hcall
    exact h.compact
  | rebuildIndex =>
    cases hcall
    exact h

omit [JsonText] in
/-- No call changes the schema. -/
theorem schema_call {t t' : Table} {c : TableCall} {response : TableResponse}
    (hcall : t.call c = .ok (response, t')) : t'.schema = t.schema := by
  cases c with
  | insertRecord record =>
    cases hcall
    exact (t.insertRecord_effect record).1
  | updateRecord record =>
    cases hcall
    exact (t.updateRecord_effect record).1
  | deleteRecord id =>
    cases hcall
    exact (t.deleteRecord_effect id).1
  | getRecord id out =>
    cases hcall
    rfl
  | compact =>
    cases hcall
    exact t.compact_schema
  | rebuildIndex =>
    cases hcall
    rfl

omit [JsonText] in
/-- Whatever is called on a new table, its live records are valid for the schema it was created
with. -/
theorem validate_of_run {name : String} {id : TableID} {schema : List ColumnDef}
    {calls : List TableCall} {responses : List TableResponse} {t : Table}
    (hrun : run Table.call (Table.new name id schema) calls = .ok (responses, t)) :
    ∀ r ∈ t.liveRecords, r.validate schema = .OK := by
  have hkept : t.schema = schema ∧ t.Valid := by
    refine @run_keeps _ _ _ _ Table.call (fun t => t.schema = schema ∧ t.Valid) ?_ _ _ _ _ ?_ hrun
    · rintro s call response s' ⟨hschema, hvalid⟩ hcall
      exact ⟨(schema_call hcall).trans hschema, hvalid.call hcall⟩
    · exact ⟨rfl, fun _ hr => (by cases hr)⟩
  rw [← hkept.1]
  exact hkept.2

omit [JsonText] [InsertPolicy] in
/-- A decoding call leaves the state in which decoding ended. -/
private theorem eq_of_loadResponse {result : EStateM.Result Fault Table Status}
    {response : StoreResponse} {t : Table} (h : loadResponse result = .ok (response, t)) :
    t = finalState result := by
  cases result with
  | ok s t' =>
    cases h
    rfl
  | error fault t' =>
    cases fault with
    | exception =>
      cases h
      rfl
    | undefined => cases h

/-- Decoding a text ends where decoding its value does, or where it began. -/
private theorem deserialize_final (raw : List UInt8) (t : Table) :
    (∃ envelope, JsonText.parse raw = .ok envelope ∧
      finalState (deserialize raw t) = finalState (fromJson envelope t)) ∨
    ((∀ envelope, JsonText.parse raw ≠ .ok envelope) ∧ finalState (deserialize raw t) = t) := by
  unfold deserialize
  rw [finalState_catching, lift_bind]
  cases JsonText.parse raw with
  | error fault =>
    right
    exact ⟨fun _ h => (by cases h), rfl⟩
  | ok envelope =>
    left
    refine ⟨envelope, rfl, ?_⟩
    dsimp only
    by_cases hnull : envelope.isNull = true
    · rw [if_pos hnull]
      unfold fromJson
      rw [if_pos hnull]
    · rw [if_neg hnull]

/-- From valid records a call leads to valid records exactly if it keeps them so. -/
private theorem storeCall_valid_iff {t t' : Table} (h : t.Valid) {c : StoreCall}
    {response : StoreResponse} (hcall : t.storeCall c = .ok (response, t')) :
    t'.Valid ↔ t.Keeps c := by
  cases c with
  | table c =>
    obtain ⟨⟨_, _⟩, hinner, heq⟩ := map_eq_ok.mp hcall
    cases heq
    exact ⟨fun _ => trivial, fun _ => h.call hinner⟩
  | fromJson envelope =>
    rw [eq_of_loadResponse hcall, fromJson_valid_iff h]
    exact Iff.rfl
  | deserialize raw =>
    rw [eq_of_loadResponse hcall]
    rcases deserialize_final raw t with ⟨envelope, hparse, hfinal⟩ | ⟨hparse, hfinal⟩
    · rw [hfinal, fromJson_valid_iff h]
      constructor
      · intro hkeeps other hother
        rw [hparse] at hother
        cases hother
        exact hkeeps
      · intro hkeeps
        exact hkeeps envelope hparse
    · rw [hfinal]
      exact ⟨fun _ envelope hother => absurd hother (hparse envelope), fun _ => h⟩

/-- In a run that completes, every live record is valid in every state exactly if every load
of the run keeps the records valid. -/
theorem run_valid_iff {name : String} {id : TableID} {schema : List ColumnDef}
    {calls : List StoreCall} {responses : List StoreResponse} {t : Table}
    (hrun : run storeCall (Table.new name id schema) calls = .ok (responses, t)) :
    Throughout storeCall Valid (Table.new name id schema) calls ↔
      Along storeCall Keeps (Table.new name id schema) calls := by
  apply throughout_iff_along _ hrun
  · intro r hr
    cases hr
  · intro s c response s' hvalid hcall
    exact storeCall_valid_iff hvalid hcall

/-- A document of a table with one required column and one live record. -/
def oneRecordDocument (data : Json) : Json :=
  .object [("__table_id___", .ofInt 0), ("__name__", .string "people"),
    ("schema", .array [.object [("name", .string "age"), ("type", .ofInt 0),
      ("nullable", .bool false)]]),
    ("page", .array [.object [("__page_id__", .ofInt 0), ("records", .array
      [.object [("__id__", .ofInt 7), ("__deleted__", .bool false), ("data", data)]])]])]

omit [JsonText] in
/-- What the document of one record decodes to. -/
private theorem oneRecordDocument_decodes (data : Json) :
    ∃ t, ofEnvelope? (oneRecordDocument data) = some t ∧
      t.schema = [⟨"age", .INT, false⟩] ∧ t.liveRecords = [Record.new 7 data] :=
  ⟨loaded "people" 0 [⟨"age", .INT, false⟩]
    [⟨0, false, [Record.new 7 data], ⟨1, by decide⟩, le_rfl⟩], rfl, rfl, rfl⟩

/-- A load of what decodes into a new table. -/
private theorem storeCall_of_decodes {envelope : Json} {t : Table}
    (h : ofEnvelope? envelope = some t) :
    (Table.new "people" 0 []).storeCall (.fromJson envelope) = .ok (.status .OK, t) := by
  change loadResponse (fromJson envelope (Table.new "people" 0 [])) = _
  rw [fromJson_eq_ok.mpr h]
  rfl

omit [JsonText] [InsertPolicy] in
/-- A load accepts a record without a value for a required column. -/
theorem load_of_invalid_record :
    letI : InsertPolicy := ⟨true⟩
    letI := JsonText.ofDocument [] .null
    ∃ responses t,
      run storeCall (Table.new "people" 0 []) [.fromJson (oneRecordDocument Json.emptyObject)] =
          .ok (responses, t) ∧
        ¬Throughout storeCall Valid (Table.new "people" 0 [])
          [.fromJson (oneRecordDocument Json.emptyObject)] := by
  let _ : InsertPolicy := ⟨true⟩
  let _ := JsonText.ofDocument [] .null
  obtain ⟨t, hdecoded, hschema, hlive⟩ := oneRecordDocument_decodes Json.emptyObject
  have hcall := storeCall_of_decodes hdecoded
  refine ⟨[.status .OK], t, ?_, ?_⟩
  · rw [run_cons hcall]
    rfl
  · intro h
    have hvalid : t.Valid := h.2 _ t hcall
    unfold Valid at hvalid
    rw [hschema, hlive] at hvalid
    exact absurd (hvalid _ (List.mem_singleton_self _)) (by decide)

omit [JsonText] [InsertPolicy] in
/-- A load of a valid record keeps the records of a run valid. -/
theorem load_of_valid_record :
    letI : InsertPolicy := ⟨true⟩
    letI := JsonText.ofDocument [] .null
    Throughout storeCall Valid (Table.new "people" 0 [])
      [.fromJson (oneRecordDocument (.object [("age", .ofInt 30)]))] := by
  let _ : InsertPolicy := ⟨true⟩
  let _ := JsonText.ofDocument [] .null
  obtain ⟨t, hdecoded, hschema, hlive⟩ := oneRecordDocument_decodes (.object [("age", .ofInt 30)])
  have hcall := storeCall_of_decodes hdecoded
  have hrun : run storeCall (Table.new "people" 0 [])
      [.fromJson (oneRecordDocument (.object [("age", .ofInt 30)]))] = .ok ([.status .OK], t) := by
    rw [run_cons hcall]
    rfl
  apply (run_valid_iff hrun).mpr
  refine ⟨fun _ r hr => ?_, fun _ _ _ => trivial⟩
  change r ∈ [Record.new 7 (.object [("age", .ofInt 30)])] at hr
  rw [List.mem_singleton.mp hr]
  change Record.validate _ [⟨"age", .INT, false⟩] = .OK
  decide

end Table

end MiniDB.Core
