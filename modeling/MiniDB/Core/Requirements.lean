import MiniDB.Core.DatabaseLoading
import MiniDB.Core.Document
import MiniDB.Library.Requirement

/-!
# What the decoders require

The requirements of each decoder on a document, in the order in which it reads: members of a
kind, numbers in the range of an integer type, and free slots. Decoding ends as the first
requirement that is not met says: an exception or `PARSE_ERROR` for the shape, undefined
behaviour for the range, `OUT_OF_MEMORY` for the room.
-/

namespace MiniDB.Core

open MiniDB.Common MiniDB.JsonPro Memory Requirement

/-- A member of a kind. -/
def required (key : String) (kind : Json → Bool) (document : Json) : Requirement :=
  ⟨.shape, (document.member? key).any kind⟩

/-- A number that fits an integer type. -/
def requiredInteger (key : String) (low high : ℤ) (document : Json) : List Requirement :=
  [required key Json.isNumber document,
    ⟨.range, (numberOf? key document).all fun value => value.fits low high⟩]

/-- An array whose items meet requirements of their own. -/
def requiredArray (key : String) (items : List Json → List Requirement) (document : Json) :
    List Requirement :=
  match document.member? key with
  | some (.array elements) => items elements
  | _ => [⟨.shape, false⟩]

/-- The requirements on the envelope of a record. -/
def recordRequirements (envelope : Json) : List Requirement :=
  requiredInteger "__id__" 0 (2 ^ 64) envelope ++
    [required "__deleted__" Json.isBool envelope, required "data" (fun _ => true) envelope]

/-- The requirements on the entries of a page with free slots. -/
def entryRequirements (free : ℕ) : List Json → List Requirement
  | [] => []
  | entry :: entries =>
    ⟨.room, decide (0 < free)⟩ :: recordRequirements entry ++ entryRequirements (free - 1) entries

/-- The requirements on the envelope of a page with free slots. -/
def pageRequirements (free : ℕ) (envelope : Json) : List Requirement :=
  requiredInteger "__page_id__" 0 (2 ^ 32) envelope ++
    requiredArray "records" (entryRequirements free) envelope

/-- The requirements on one column of a schema. -/
def columnRequirements (col : Json) : List Requirement :=
  required "name" Json.isString col :: requiredInteger "type" (-2 ^ 31) (2 ^ 31) col ++
    [required "nullable" Json.isBool col]

/-- The requirements on the envelope of a table. -/
def tableRequirements (envelope : Json) : List Requirement :=
  requiredInteger "__table_id___" 0 (2 ^ 32) envelope ++
    required "__name__" Json.isString envelope ::
      requiredArray "schema" (List.flatMap columnRequirements) envelope ++
        requiredArray "page" (List.flatMap (pageRequirements DBConstants.MAX_RECORDS_PAGE)) envelope

/-- The requirements on the envelope of a database. -/
def databaseRequirements (envelope : Json) : List Requirement :=
  requiredArray "tables" (fun tableJsons =>
      ⟨.room, decide (tableJsons.length ≤ DBConstants.MAX_TABLES)⟩ ::
        tableJsons.flatMap tableRequirements) envelope ++
    [required "__db_name__" Json.isString envelope]

/-- What the end of a decoding says about the document. -/
def verdict {State : Type} : EStateM.Result Fault State Status → Option Demand
  | .ok .OK _ => none
  | .ok .PARSE_ERROR _ => some .shape
  | .ok _ _ => some .room
  | .error .exception _ => some .shape
  | .error .undefined _ => some .range

/-- Undefined behaviour is a number out of range, and nothing else is. -/
theorem verdict_eq_range {State : Type} {result : EStateM.Result Fault State Status} :
    verdict result = some .range ↔ ∃ s, result = .error .undefined s := by
  cases result with
  | ok status s => cases status <;> simp [verdict]
  | error fault s => cases fault <;> simp [verdict]

section Accesses

variable {State α : Type} {document : Json} {key : String} {s : State} {rest : List Requirement}

/-- Indexing requires the key. -/
theorem verdict_index {next : Json → EStateM Fault State Status}
    (hnext : ∀ value, document.member? key = some value →
      verdict (next value s) = firstUnmet rest) :
    verdict (((liftM (document.index key) : EStateM Fault State Json) >>= next) s) =
      firstUnmet (required key (fun _ => true) document :: rest) := by
  unfold required
  rw [lift_bind]
  unfold Json.index
  cases hmember : document.member? key with
  | none => rfl
  | some value => exact hnext value hmember

/-- An accessor behind indexing requires a member of its kind. -/
theorem verdict_access {accessor : Json → Except Fault α} {kind : Json → Bool}
    (haccessor : ∀ value, (kind value = true ∧ ∃ a, accessor value = .ok a) ∨
      (kind value = false ∧ accessor value = .error .exception))
    {next : α → EStateM Fault State Status}
    (hnext : ∀ value a, document.member? key = some value → accessor value = .ok a →
      verdict (next a s) = firstUnmet rest) :
    verdict (((liftM (document.index key) : EStateM Fault State Json) >>= fun value =>
      (liftM (accessor value) : EStateM Fault State α) >>= next) s) =
        firstUnmet (required key kind document :: rest) := by
  unfold required
  rw [lift_bind]
  unfold Json.index
  cases hmember : document.member? key with
  | none => rfl
  | some value =>
    dsimp only [Option.any_some]
    rcases haccessor value with ⟨hkind, a, ha⟩ | ⟨hkind, hfault⟩
    · rw [hkind, lift_bind_of_ok ha]
      exact hnext value a hmember ha
    · rw [hkind, hfault]
      rfl

/-- Strings are accessed as such, other values not. -/
theorem asString_cases (value : Json) : (value.isString = true ∧ ∃ a, value.asString = .ok a) ∨
    (value.isString = false ∧ value.asString = .error .exception) := by
  cases value with
  | string text => exact Or.inl ⟨rfl, text, rfl⟩
  | _ => exact Or.inr ⟨rfl, rfl⟩

/-- Booleans are accessed as such, other values not. -/
theorem asBool_cases (value : Json) : (value.isBool = true ∧ ∃ a, value.asBool = .ok a) ∨
    (value.isBool = false ∧ value.asBool = .error .exception) := by
  cases value with
  | bool truth => exact Or.inl ⟨rfl, truth, rfl⟩
  | _ => exact Or.inr ⟨rfl, rfl⟩

/-- Numbers are accessed as such, other values not. -/
theorem asNumber_cases (value : Json) : (value.isNumber = true ∧ ∃ a, value.asNumber = .ok a) ∨
    (value.isNumber = false ∧ value.asNumber = .error .exception) := by
  cases value with
  | number number => exact Or.inl ⟨rfl, number, rfl⟩
  | _ => exact Or.inr ⟨rfl, rfl⟩

/-- A conversion behind an access requires a number that fits. -/
theorem verdict_integer {low high : ℤ} {convert : Double → Except Fault α}
    (hconvert : ∀ value, (value.fits low high = true ∧ ∃ a, convert value = .ok a) ∨
      (value.fits low high = false ∧ convert value = .error .undefined))
    {next : α → EStateM Fault State Status}
    (hnext : ∀ a, verdict (next a s) = firstUnmet rest) :
    verdict (((liftM (document.index key) : EStateM Fault State Json) >>= fun value =>
      (liftM value.asNumber : EStateM Fault State Double) >>= fun number =>
        (liftM (convert number) : EStateM Fault State α) >>= next) s) =
          firstUnmet (requiredInteger key low high document ++ rest) := by
  unfold requiredInteger
  rw [List.cons_append, List.singleton_append]
  apply verdict_access asNumber_cases
  intro value number hmember hnumber
  rw [Json.asNumber_eq_ok] at hnumber
  subst hnumber
  rw [numberOf?_eq_some.mpr hmember]
  dsimp only [Option.all_some]
  rcases hconvert number with ⟨hfits, a, ha⟩ | ⟨hfits, hfault⟩
  · rw [hfits, lift_bind_of_ok ha]
    exact hnext a
  · rw [hfits, hfault]
    rfl

/-- Going through an array requires one. -/
theorem verdict_array {items : List Json → List Requirement}
    {next : List Json → EStateM Fault State Status}
    (hnext : ∀ elements, document.member? key = some (.array elements) →
      verdict (next elements s) = firstUnmet (items elements ++ rest)) :
    verdict (((liftM (document.index key) : EStateM Fault State Json) >>= fun value =>
      (liftM value.asArray : EStateM Fault State (List Json)) >>= next) s) =
        firstUnmet (requiredArray key items document ++ rest) := by
  unfold requiredArray
  rw [lift_bind]
  unfold Json.index
  cases hmember : document.member? key with
  | none => rfl
  | some value =>
    cases value with
    | array elements => exact hnext elements hmember
    | _ => rfl

end Accesses

/-- A conversion to an unsigned 64-bit integer is defined on the values that fit. -/
theorem toUInt64_cases (value : Double) :
    (value.fits 0 (2 ^ 64) = true ∧ ∃ a, value.toUInt64 = .ok a) ∨
    (value.fits 0 (2 ^ 64) = false ∧ value.toUInt64 = .error .undefined) :=
  Double.map_toIntegerIn_cases _ value

/-- A conversion to an unsigned 32-bit integer is defined on the values that fit. -/
theorem toUInt32_cases (value : Double) :
    (value.fits 0 (2 ^ 32) = true ∧ ∃ a, value.toUInt32 = .ok a) ∨
    (value.fits 0 (2 ^ 32) = false ∧ value.toUInt32 = .error .undefined) :=
  Double.map_toIntegerIn_cases _ value

/-- A null document lacks every member. -/
private theorem isNull_eq_true {document : Json} (h : document.isNull = true) :
    document = .null := by
  cases document with
  | null => rfl
  | _ => cases h

/-- Decoding a record ends as its requirements say. -/
theorem verdict_record (envelope : Json) (r : Record) :
    verdict (Record.fromJson envelope r) = firstUnmet (recordRequirements envelope) := by
  unfold Record.fromJson recordRequirements
  split
  · rename_i hnull
    rw [isNull_eq_true hnull]
    rfl
  · apply verdict_integer toUInt64_cases
    intro id
    rw [modify_bind]
    apply verdict_access asBool_cases
    intro _ deleted _ _
    rw [modify_bind]
    apply verdict_index
    intro data _
    rfl

/-- An entry is rejected by a status only if it is null. -/
theorem record_status_cases {entry : Json} {r r' : Record} {status : Status}
    (h : Record.fromJson entry r = .ok status r') : status = .OK ∨ entry.isNull = true := by
  by_cases hnull : entry.isNull = true
  · exact Or.inr hnull
  · unfold Record.fromJson at h
    rw [if_neg hnull] at h
    obtain ⟨_, _, h⟩ := lift_bind_eq_ok h
    obtain ⟨_, _, h⟩ := lift_bind_eq_ok h
    obtain ⟨_, _, h⟩ := lift_bind_eq_ok h
    rw [modify_bind] at h
    obtain ⟨_, _, h⟩ := lift_bind_eq_ok h
    obtain ⟨_, _, h⟩ := lift_bind_eq_ok h
    rw [modify_bind] at h
    obtain ⟨_, _, h⟩ := lift_bind_eq_ok h
    cases h
    exact Or.inl rfl

/-- Decoding entries into a page ends as their requirements say. -/
theorem verdict_entries (entries : List Json) (p : Page) :
    verdict (Page.loadRecords entries p) =
      firstUnmet (entryRequirements (DBConstants.MAX_RECORDS_PAGE - p.pool.used) entries) := by
  induction entries generalizing p with
  | nil => rfl
  | cons entry entries ih =>
    rw [Page.loadRecords_cons]
    unfold entryRequirements Pool.create
    split
    · rename_i hnone
      split at hnone
      · cases hnone
      · rename_i hfull
        rw [decide_eq_false (by omega)]
        rfl
    · rename_i next hsome
      split at hsome
      · rename_i hroom
        have hnext := ih
        rw [decide_eq_true (by omega), List.cons_append, firstUnmet_met, firstUnmet_append,
          ← verdict_record entry Record.default]
        cases Record.fromJson entry Record.default with
        | error fault slot =>
          cases fault with
          | _ => rfl
        | ok status slot =>
          cases status with
          | OK =>
            dsimp only
            rw [ih, Page.push_used, Nat.sub_add_eq]
            rfl
          | _ => rfl
      · cases hsome

/-- Decoding a page ends as its requirements say. -/
theorem verdict_page (envelope : Json) (p : Page) :
    verdict (Page.fromJson envelope p) =
      firstUnmet (pageRequirements (DBConstants.MAX_RECORDS_PAGE - p.pool.used) envelope) := by
  unfold Page.fromJson pageRequirements
  split
  · rename_i hnull
    rw [isNull_eq_true hnull]
    rfl
  · apply verdict_integer toUInt32_cases
    intro id
    rw [modify_bind, ← List.append_nil (requiredArray _ _ _)]
    apply verdict_array
    intro entries _
    rw [List.append_nil]
    exact verdict_entries entries _

/-- Decoding columns goes on to what follows as their requirements say. -/
theorem verdict_columns {next : EStateM Fault Table Status} {rest : List Requirement}
    (hnext : ∀ t, verdict (next t) = firstUnmet rest) (cols : List Json) (t : Table) :
    verdict ((Table.loadColumns cols >>= fun _ => next) t) =
      firstUnmet (cols.flatMap columnRequirements ++ rest) := by
  induction cols generalizing t with
  | nil => exact hnext t
  | cons col cols ih =>
    rw [Table.loadColumns, List.flatMap_cons, List.append_assoc]
    unfold columnRequirements
    simp only [bind_assoc, List.cons_append, List.append_assoc]
    apply verdict_access asString_cases
    intro _ name _ _
    apply verdict_integer (Double.toIntegerIn_cases (-2 ^ 31) (2 ^ 31))
    intro type
    apply verdict_access asBool_cases
    intro _ nullable _ _
    exact ih _

section Loading

variable [InsertPolicy]

/-- Decoding pages into a table ends as their requirements say. -/
theorem verdict_pages (start : PageID) (pageJsons : List Json) (t : Table) :
    verdict (Table.loadPages start pageJsons t) =
      firstUnmet (pageJsons.flatMap (pageRequirements DBConstants.MAX_RECORDS_PAGE)) := by
  induction pageJsons generalizing start t with
  | nil => rfl
  | cons pageJson pageJsons ih =>
    have hpage := verdict_page pageJson (Page.new DBConstants.INVALID_PAGE_ID)
    have hfree : DBConstants.MAX_RECORDS_PAGE -
        (Page.new DBConstants.INVALID_PAGE_ID).pool.used = DBConstants.MAX_RECORDS_PAGE := rfl
    rw [hfree] at hpage
    rw [List.flatMap_cons, firstUnmet_append, ← hpage, Table.loadPages]
    cases Page.fromJson pageJson (Page.new DBConstants.INVALID_PAGE_ID) with
    | error fault p =>
      cases fault with
      | _ => rfl
    | ok status p =>
      cases status with
      | OK =>
        dsimp only
        rw [modify_bind, ih]
        rfl
      | _ => rfl

/-- Decoding a table ends as its requirements say. -/
theorem verdict_table (envelope : Json) (t : Table) :
    verdict (Table.fromJson envelope t) = firstUnmet (tableRequirements envelope) := by
  unfold Table.fromJson tableRequirements
  split
  · rename_i hnull
    rw [isNull_eq_true hnull]
    rfl
  · rw [List.append_assoc]
    apply verdict_integer toUInt32_cases
    intro id
    rw [modify_bind, List.cons_append]
    apply verdict_access asString_cases
    intro _ name _ _
    rw [modify_bind]
    apply verdict_array
    intro cols _
    apply verdict_columns
    intro t
    rw [← List.append_nil (requiredArray _ _ _)]
    apply verdict_array
    intro pageJsons _
    rw [List.append_nil]
    exact verdict_pages 0 pageJsons t

omit [InsertPolicy] in
/-- A table that fails to decode is deleted with those decoded before it. -/
theorem cleanup_eq_ok {scratch : Scratch} {db : Database} (hnodup : scratch.tables.Nodup)
    (halive : ∀ address ∈ scratch.tables, ∃ t, db.heap.get? address = some t) (t : Table)
    (status : Status) :
    ∃ db', (do
      Database.deleteTable db.heap.next
      Database.deleteTables scratch.tables
      return (status, scratch) : EStateM Fault Database (Status × Scratch))
      { db with heap := db.heap.alloc t } = .ok (status, scratch) db' ∧
      ∀ address, db'.heap.get? address =
        if address ∈ scratch.tables then none else db.heap.get? address := by
  have hnew := db.heap.get?_alloc_self t
  have hdelete := @Database.deleteTable_of_some { db with heap := db.heap.alloc t } _ _ hnew
  have hput : ∀ address, ((db.heap.alloc t).put db.heap.next (Heap.lt_next hnew) none).get?
      address = db.heap.get? address := by
    intro address
    rw [Heap.get?_put]
    split
    · rename_i hsame
      exact (db.heap.get?_eq_none address hsame.ge).symm
    · rename_i hne
      exact if_neg hne
  obtain ⟨db', hdeleted, hget⟩ := @Database.deleteTables_of_alive scratch.tables { db with
    heap := (db.heap.alloc t).put db.heap.next (Heap.lt_next hnew) none } hnodup (by
      intro address haddress
      rw [hput]
      exact halive address haddress)
  refine ⟨db', ?_, fun address => ?_⟩
  · rw [bind_of_ok hdelete, bind_of_ok hdeleted]
    rfl
  · rw [hget, hput]

/-- Decoding tables goes on to what follows as their requirements say. -/
theorem verdict_loadTables {scratch : Scratch} {db : Database} (hnodup : scratch.tables.Nodup)
    (halive : ∀ address ∈ scratch.tables, ∃ t, db.heap.get? address = some t)
    {tableJsons : List Json} {next : Status × Scratch → EStateM Fault Database Status}
    {rest : List Requirement}
    (hfail : ∀ s scratch' db', s ≠ .OK → next (s, scratch') db' = .ok s db')
    (hnext : ∀ scratch' db', Database.loadTables scratch tableJsons db = .ok (.OK, scratch') db' →
      verdict (next (.OK, scratch') db') = firstUnmet rest) :
    verdict ((Database.loadTables scratch tableJsons >>= next) db) =
      firstUnmet (tableJsons.flatMap tableRequirements ++ rest) := by
  induction tableJsons generalizing scratch db with
  | nil =>
    have hload : Database.loadTables scratch [] db = .ok (.OK, scratch) db := rfl
    rw [bind_of_ok hload]
    exact hnext scratch db hload
  | cons tableJson tableJsons ih =>
    have htable := verdict_table tableJson (Table.new "" DBConstants.INVALID_TABLE_ID [])
    have hcons := Database.loadTables_cons scratch tableJson tableJsons db
    rw [List.flatMap_cons, List.append_assoc, firstUnmet_append, ← htable]
    cases hdecode : Table.fromJson tableJson (Table.new "" DBConstants.INVALID_TABLE_ID []) with
    | error fault t =>
      rw [hdecode] at hcons
      rw [bind_of_error hcons]
      cases fault with
      | _ => rfl
    | ok status t =>
      rw [hdecode] at hcons
      dsimp only at hcons
      by_cases hstatus : status = .OK
      · subst hstatus
        rw [if_neg (not_not.mpr rfl)] at hcons
        obtain ⟨hnodup', halive'⟩ := Database.alive_add hnodup halive t
        have hrest := @ih (scratch.add db.heap.next t) { db with heap := db.heap.alloc t } hnodup'
          halive' fun scratch' db' hload => hnext scratch' db' (hcons.trans hload)
        change verdict (EStateM.bind _ _ _) = _ at hrest
        change verdict (EStateM.bind _ _ _) = _
        unfold EStateM.bind at hrest ⊢
        rw [hcons]
        exact hrest
      · rw [if_pos hstatus] at hcons
        obtain ⟨db', hcleanup, _⟩ := cleanup_eq_ok hnodup halive t status
        rw [bind_of_ok (hcons.trans hcleanup), hfail status scratch db' hstatus]
        cases status with
        | OK => contradiction
        | _ => rfl

/-- Decoding a database ends as its requirements say. -/
theorem verdict_database {db : Database} (howned : db.Owned) (envelope : Json) :
    verdict (Database.fromJson envelope db) = firstUnmet (databaseRequirements envelope) := by
  unfold Database.fromJson databaseRequirements
  split
  · rename_i hnull
    rw [isNull_eq_true hnull]
    rfl
  · apply verdict_array
    intro tableJsons hmember
    rw [List.cons_append]
    by_cases hlength : tableJsons.length ≤ DBConstants.MAX_TABLES
    · rw [if_neg (Nat.not_lt.mpr hlength), decide_eq_true hlength, firstUnmet_met,
        lift_bind_of_ok (Json.index_eq_ok.mpr hmember),
        lift_bind_of_ok (Json.asArray_eq_ok.mpr rfl)]
      refine @verdict_loadTables _ Scratch.empty _ List.nodup_nil
        (fun _ hmem => absurd hmem List.not_mem_nil) _ _ _ (fun s _ _ hs => ?_) ?_
      · dsimp only
        rw [if_pos hs]
        rfl
      intro scratch db' hload
      dsimp only
      rw [if_neg (not_not.mpr rfl)]
      have hframe : Database.Frame [] db db' := by
        have hloading := Database.Frame.loadTables Scratch.empty tableJsons db
        rwa [hload] at hloading
      have htables : db'.tables = db.tables := by
        rw [hframe.fields]
      have halive : ∀ address ∈ db'.tables, ∃ t, db'.heap.get? address = some t := by
        rw [htables]
        intro address haddress
        obtain ⟨t, ht⟩ := howned.alive address haddress
        exact ⟨t, hframe.heap List.not_mem_nil ht⟩
      obtain ⟨db'', hdelete, _⟩ := Database.deleteTables_of_alive (htables ▸ howned.nodup) halive
      have hread : (get : EStateM Fault Database Database) db' = .ok db' db' := rfl
      rw [bind_of_ok hread, bind_of_ok hdelete]
      apply verdict_access asString_cases
      intro _ name _ _
      rfl
    · rw [if_pos (Nat.not_le.mp hlength), decide_eq_false hlength]
      rfl

end Loading

/-- Decoding a database is undefined exactly if it converts a number out of range. -/
theorem database_undefined_iff [InsertPolicy] {db : Database} (howned : db.Owned)
    (envelope : Json) :
    (∃ db', Database.fromJson envelope db = .error .undefined db') ↔
      ¬InRange (databaseRequirements envelope) := by
  unfold InRange
  rw [not_not, ← verdict_database howned, verdict_eq_range]

section Text

variable [JsonText] {State : Type}

/-- A text is not JSON, or its shape does not match what is required. -/
def Malformed (text : List UInt8) (requirements : Json → List Requirement) : Prop :=
  ∀ document, JsonText.parse text = .ok document → ¬Shaped (requirements document)

/-- A call on a text returns a status, and returns `PARSE_ERROR` for a malformed text. -/
def Reports (text : List UInt8) (requirements : Json → List Requirement)
    (result : EStateM.Result Fault State Status) : Prop :=
  (∃ status s, result = .ok status s) ∧
    (Malformed text requirements → ∃ s, result = .ok .PARSE_ERROR s)

/-- What a text lacks first is not the range of a number, nor is it room that hides a wrong
shape behind it. -/
def Decided (text : List UInt8) (requirements : Json → List Requirement) : Prop :=
  ∀ document, JsonText.parse text = .ok document →
    firstUnmet (requirements document) ≠ some .range ∧
      (firstUnmet (requirements document) = some .room → Shaped (requirements document))

/-- A decoder that turns exceptions into `PARSE_ERROR` reports on a text exactly if the text is
decided. -/
theorem reports_iff_decided {requirements : Json → List Requirement}
    {decode : Json → EStateM Fault State Status} {s : State} {text : List UInt8}
    (hnull : decode .null s = .ok .PARSE_ERROR s)
    (hverdict : ∀ document, verdict (decode document s) = firstUnmet (requirements document)) :
    Reports text requirements (catching .PARSE_ERROR (do
      let envelope ← JsonText.parse text
      if envelope.isNull then return .PARSE_ERROR
      decode envelope) s) ↔ Decided text requirements := by
  unfold Reports Malformed Decided catching
  rw [lift_bind]
  cases hparse : JsonText.parse text with
  | error fault =>
    rw [JsonText.parse_fault hparse]
    constructor
    · intro _ document hdocument
      cases hdocument
    · intro _
      exact ⟨⟨_, _, rfl⟩, fun _ => ⟨_, rfl⟩⟩
  | ok document =>
    have hdecode : (if document.isNull then return .PARSE_ERROR else decode document :
        EStateM Fault State Status) s = decode document s := by
      split
      · rename_i h
        rw [isNull_eq_true h, hnull]
        rfl
      · rfl
    dsimp only
    rw [hdecode]
    have hdemand := hverdict document
    simp only [Except.ok.injEq, forall_eq']
    rw [← hdemand]
    cases hresult : decode document s with
    | error fault s' =>
      cases fault with
      | exception => simp [verdict]
      | undefined => simp [verdict]
    | ok status s' =>
      rw [hresult] at hdemand
      cases status with
      | OK =>
        have hshaped := shaped_of_firstUnmet hdemand.symm
        simp [verdict, hshaped]
      | PARSE_ERROR => simp [verdict]
      | _ => simp [verdict]

end Text

end MiniDB.Core
