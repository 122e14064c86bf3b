import MiniDB.Core.Requirements
import MiniDB.Core.UnsavedChanges
import MiniDB.Library.Ownership

/-!
# Tables that come and go

A database holds its tables by raw pointers. What its calls do to the memory is an exchange:
the tables that it held are replaced by those that it holds, the ones in between are deleted, and
no others are touched. Only a load that throws with decoded tables in its hands does not do so.
-/

namespace MiniDB.Core

open MiniDB.Common MiniDB.JsonPro Memory Refinement Traversal

namespace Database

/-- A call exchanges the tables that a database holds. -/
structure Keeps (db db' : Database) : Prop where
  /-- The database holds its tables. -/
  held : ∃ entries, db'.Held entries
  /-- No other tables are touched. -/
  exchange : Heap.Exchange db.heap db'.heap db.tables db'.tables

namespace Held

variable {db db' : Database} {entries : List Entry}

/-- Held tables are alive. -/
theorem ne_none (h : db.Held entries) : ∀ address ∈ db.tables, db.heap.get? address ≠ none := by
  intro address haddress
  obtain ⟨t, ht⟩ := h.owned.alive address haddress
  rw [ht]
  exact Option.some_ne_none t

/-- A database without tables. -/
theorem of_nil (htables : db.tables = []) (hindex : db.tableIndex = FiniteMap.empty) :
    db.Held [] where
  tables := htables
  nodup := List.nodup_nil
  heap := fun _ hentry => absurd hentry List.not_mem_nil
  tableIndex := by
    rw [hindex]
    exact fun _ _ hget => absurd hget.symm (Option.some_ne_none _)
  exact := fun _ hentry => absurd hentry List.not_mem_nil

/-- A database holds its tables in any memory where they are the same. -/
theorem of_heap (h : db.Held entries) {heap : Heap Table}
    (hsame : ∀ address ∈ db.tables, heap.get? address = db.heap.get? address) :
    Held { db with heap } entries where
  tables := h.tables
  nodup := h.nodup
  heap := by
    intro entry hentry
    have haddress : entry.1 ∈ db.tables := h.tables ▸ List.mem_map_of_mem hentry
    exact (hsame entry.1 haddress).trans (h.heap entry hentry)
  tableIndex := h.tableIndex
  exact := h.exact

/-- A call that leaves the memory alone. -/
theorem keeps_of_heap (h : db.Held entries) (hfields : db' = { db with heap := db'.heap })
    (hsame : ∀ address, db'.heap.get? address = db.heap.get? address) : db.Keeps db' := by
  have hheld : db'.Held entries := by
    rw [hfields]
    exact h.of_heap fun address _ => hsame address
  have htables : db'.tables = db.tables := by rw [hfields]
  refine ⟨⟨entries, hheld⟩, ?_⟩
  rw [htables]
  exact .inPlace h.owned.nodup (htables ▸ hheld.ne_none) fun address _ => hsame address

/-- A call that changes nothing. -/
theorem keeps_self (h : db.Held entries) : db.Keeps db := h.keeps_of_heap rfl fun _ => rfl

section Calls

variable [InsertPolicy]

/-- A created table is held behind the others. -/
theorem keeps_createTable (h : db.Held entries) (name : String) (schema : List ColumnDef) :
    db.Keeps (db.createTable name schema).2 := by
  rcases h.createTable name schema with hsame | ⟨_, _, hheld⟩
  · rw [hsame]
    exact h.keeps_self
  · refine ⟨⟨_, hheld⟩, ?_⟩
    unfold Database.createTable
    split
    · exact .refl h.owned.nodup h.ne_none
    · split
      · exact .refl h.owned.nodup h.ne_none
      · exact .alloc h.owned.nodup h.ne_none _

omit [InsertPolicy] in
/-- Dropped tables are deleted, and the others stay. -/
theorem keeps_dropTable (h : db.Held entries) (name : String) :
    ∃ status db', Database.dropTable name db = .ok status db' ∧ db.Keeps db' := by
  rcases h.dropTable name with hsame | ⟨db', tid, hdrop, _, _, hheld⟩
  · exact ⟨_, db, hsame, h.keeps_self⟩
  · refine ⟨_, db', hdrop, ⟨_, hheld⟩, ?_⟩
    cases hindex : db.index.get? name with
    | none =>
      rw [dropTable_of_none hindex] at hdrop
      cases hdrop
    | some tid =>
      obtain ⟨heap, hremove, _, hget, _⟩ := Wired.removeTables_eq tid h.nodup h.heap
      rw [dropTable_of_some hindex, h.tables, bind_of_ok hremove] at hdrop
      cases hdrop
      refine .release h.owned.nodup ?_ hheld.ne_none ?_
      · rw [h.tables]
        exact List.filter_sublist.map Prod.fst
      · rw [h.tables]
        exact hget

omit [InsertPolicy] in
/-- Compacted tables stay where they are. -/
theorem keeps_compact (h : db.Held entries) :
    ∃ db', Database.compact db = .ok .OK db' ∧ db.Keeps db' := by
  obtain ⟨heap, hcompact, _, hheld⟩ := h.compact
  refine ⟨_, hcompact, ⟨_, hheld⟩, ?_⟩
  refine .inPlace h.owned.nodup hheld.ne_none fun address hnot => ?_
  obtain ⟨heap', hcompact', _, _, hother⟩ := compactTables_eq h.nodup h.heap
  rw [← h.tables] at hcompact' hother
  unfold Database.compact at hcompact
  rw [get_bind, bind_of_ok hcompact', if_neg (not_not.mpr rfl)] at hcompact
  cases hcompact
  exact hother address hnot

/-- Records change where their table stands. -/
theorem keeps_onTable (h : db.Held entries) (name : String) (call : RecordCall) :
    ∃ response db', db.call (.onTable name call.toTableCall) = .ok (response, db') ∧
      db.Keeps db' := by
  unfold Database.call
  dsimp only
  cases hget : db.getTable name with
  | none => exact ⟨_, db, rfl, h.keeps_self⟩
  | some address =>
    obtain ⟨t, hentry⟩ := h.getTable hget
    obtain ⟨status, t', hcall, hmarks⟩ := (h.exact _ hentry).recordCall call
    obtain ⟨heap, hwrite, _, hheld⟩ :=
      h.replace hentry (Table.grows_call hcall).id hmarks.1
    have halive := h.heap _ hentry
    refine ⟨.table (.status status), { db with heap }, ?_, ⟨_, hheld⟩, ?_⟩
    · dsimp only
      rw [Heap.read_eq_ok.mpr halive]
      change (t.call call.toTableCall >>= _) = _
      rw [hcall]
      change (db.heap.write address t' >>= _) = _
      rw [hwrite]
      rfl
    · refine .inPlace h.owned.nodup hheld.ne_none fun other hnot => ?_
      rw [Heap.write_of_some halive] at hwrite
      cases hwrite
      rw [Heap.get?_put, if_neg]
      rintro rfl
      rw [h.tables] at hnot
      exact hnot (List.mem_map_of_mem hentry)

end Calls

end Held

section Loading

variable [InsertPolicy]

/-- No table throws before one is rejected with a status. -/
def Concludes : List Json → Prop
  | [] => True
  | tableJson :: tableJsons =>
    match Table.fromJson tableJson (Table.new "" DBConstants.INVALID_TABLE_ID []) with
    | .ok status _ => status = .OK → Concludes tableJsons
    | .error _ _ => False

/-- A load does not throw with tables in its hands: no table throws, and once all tables have
decoded the envelope has a name, unless there are no tables at all. -/
def Settles (db : Database) (envelope : Json) : Prop :=
  ∀ tableJsons, envelope.member? "tables" = some (.array tableJsons) →
    tableJsons.length ≤ DBConstants.MAX_TABLES →
      Concludes tableJsons ∧ (∀ tables, tableJsons.mapM Table.ofEnvelope? = some tables →
        Named envelope ∨ db.tables = [] ∧ tables = [])

/-- Decoding that concludes has decoded every table or has deleted what it had decoded. -/
theorem loadTables_of_concludes {tableJsons : List Json} (h : Concludes tableJsons)
    {scratch : Scratch} {db : Database} (hnodup : scratch.tables.Nodup)
    (halive : ∀ address ∈ scratch.tables, ∃ t, db.heap.get? address = some t) :
    (∃ tables, tableJsons.mapM Table.ofEnvelope? = some tables) ∨
    ∃ s scratch' db', s ≠ .OK ∧ loadTables scratch tableJsons db = .ok (s, scratch') db' ∧
      ∀ address, db'.heap.get? address =
        if address ∈ scratch.tables then none else db.heap.get? address := by
  induction tableJsons generalizing scratch db with
  | nil => exact Or.inl ⟨[], rfl⟩
  | cons tableJson tableJsons ih =>
    rw [loadTables_cons]
    unfold Concludes at h
    cases hdecode : Table.fromJson tableJson (Table.new "" DBConstants.INVALID_TABLE_ID []) with
    | error fault t =>
      rw [hdecode] at h
      exact h.elim
    | ok s t =>
      rw [hdecode] at h
      dsimp only at h ⊢
      by_cases hs : s = .OK
      · subst hs
        rw [if_neg (not_not.mpr rfl)]
        obtain ⟨hnodup', halive'⟩ := alive_add hnodup halive t
        rcases @ih (h rfl) (scratch.add db.heap.next t) { db with heap := db.heap.alloc t } hnodup'
          halive' with ⟨tables, htables⟩ | ⟨s, scratch', db', hs, hload, hget⟩
        · left
          exact ⟨t :: tables, mapM_cons_eq_some.mpr
            ⟨t, tables, Table.fromJson_eq_ok.mp hdecode, htables, rfl⟩⟩
        · right
          refine ⟨s, scratch', db', hs, hload, fun address => ?_⟩
          rw [hget]
          have hmem : address ∈ (scratch.add db.heap.next t).tables ↔
              address ∈ scratch.tables ∨ address = db.heap.next := by
            unfold Scratch.add
            simp
          by_cases hold : address ∈ scratch.tables
          · rw [if_pos (hmem.mpr (Or.inl hold)), if_pos hold]
          · rw [if_neg hold]
            by_cases hsame : address = db.heap.next
            · rw [if_pos (hmem.mpr (Or.inr hsame))]
              exact (db.heap.get?_eq_none address hsame.ge).symm
            · rw [if_neg (mt hmem.mp (not_or.mpr ⟨hold, hsame⟩))]
              exact if_neg hsame
      · right
        rw [if_pos hs]
        obtain ⟨db', hcleanup, hget⟩ := cleanup_eq_ok hnodup halive t s
        exact ⟨s, scratch, db', hs, hcleanup, hget⟩

/-- Without a list of tables, or with too many of them, a load changes nothing. -/
theorem fromJson_of_no_tables {envelope : Json}
    (h : ∀ tableJsons, envelope.member? "tables" = some (.array tableJsons) →
      DBConstants.MAX_TABLES < tableJsons.length) (db : Database) :
    (∃ s, fromJson envelope db = .ok s db) ∨ fromJson envelope db = .error .exception db := by
  unfold fromJson
  split
  · exact Or.inl ⟨_, rfl⟩
  · cases hmember : envelope.member? "tables" with
    | none =>
      have hindex : envelope.index "tables" = .error .exception := by
        unfold Json.index
        rw [hmember]
      rw [lift_bind, hindex]
      exact Or.inr rfl
    | some value =>
      rw [lift_bind_of_ok (Json.index_eq_ok.mpr hmember)]
      cases value with
      | array tableJsons =>
        rw [lift_bind_of_ok (Json.asArray_eq_ok.mpr rfl), if_pos (h tableJsons hmember)]
        exact Or.inl ⟨_, rfl⟩
      | _ => exact Or.inr rfl

/-- A load goes on as the decoding of its tables ends. -/
theorem fromJson_of_array {envelope : Json} {tableJsons : List Json}
    (hmember : envelope.member? "tables" = some (.array tableJsons))
    (hlength : tableJsons.length ≤ DBConstants.MAX_TABLES) (db : Database) :
    (∀ {s scratch db'}, s ≠ .OK → loadTables Scratch.empty tableJsons db = .ok (s, scratch) db' →
      fromJson envelope db = .ok s db') ∧
    ∀ {fault db'}, loadTables Scratch.empty tableJsons db = .error fault db' →
      fromJson envelope db = .error fault db' := by
  unfold fromJson
  rw [if_neg (by rw [Json.isNull_of_member? hmember]; exact Bool.false_ne_true),
    lift_bind_of_ok (Json.index_eq_ok.mpr hmember), lift_bind_of_ok (Json.asArray_eq_ok.mpr rfl),
    if_neg (Nat.not_lt.mpr hlength), lift_bind_of_ok (Json.index_eq_ok.mpr hmember),
    lift_bind_of_ok (Json.asArray_eq_ok.mpr rfl)]
  constructor
  · intro s scratch db' hs hload
    rw [bind_of_ok hload]
    dsimp only
    rw [if_pos hs]
    rfl
  · intro fault db' hload
    exact bind_of_error hload _

/-- A load that succeeds exchanges the old tables for new ones. -/
theorem keeps_of_named {db : Database} {entries : List Entry} (h : db.Held entries)
    {envelope : Json} {tableJsons : List Json} {tables : List Table} {name : String}
    (hmember : envelope.member? "tables" = some (.array tableJsons))
    (hlength : tableJsons.length ≤ DBConstants.MAX_TABLES)
    (htables : tableJsons.mapM Table.ofEnvelope? = some tables)
    (hname : envelope.member? "__db_name__" = some (.string name)) :
    ∃ db', fromJson envelope db = .ok .OK db' ∧ db.Keeps db' := by
  obtain ⟨heap, hload, hget⟩ := fromJson_of_named h.owned hmember hlength htables hname
  obtain ⟨heap', hload', _⟩ := fromJson_eq_reload h.owned hmember hlength htables hname
  obtain ⟨entries', hheld⟩ := h.fromJson hload'
  have hsame := (EStateM.Result.ok.inj (hload.symm.trans hload')).2
  obtain rfl : heap = heap' := congrArg Database.heap hsame
  refine ⟨_, hload', ⟨entries', hheld⟩, ?_⟩
  constructor
  · exact hheld.owned.nodup
  · intro address hnew
    exact Or.inr (db.heap.get?_eq_none address (Heap.le_of_mem_allocated hnew))
  · exact hheld.ne_none
  · intro address hold _
    exact (hget address).trans (if_pos hold)
  · intro address hnot hnew
    exact (hget address).trans ((if_neg hnot).trans (Heap.get?_allocAll_of_not_mem hnew))

/-- A load that settles returns or throws, and exchanges the tables. -/
theorem keeps_fromJson {db : Database} {entries : List Entry} (h : db.Held entries)
    {envelope : Json} (hsettles : Settles db envelope) :
    (∃ s db', fromJson envelope db = .ok s db' ∧ db.Keeps db') ∨
      ∃ db', fromJson envelope db = .error .exception db' ∧ db.Keeps db' := by
  by_cases hlisted : ∀ tableJsons, envelope.member? "tables" = some (.array tableJsons) →
      DBConstants.MAX_TABLES < tableJsons.length
  · rcases fromJson_of_no_tables hlisted db with ⟨s, hload⟩ | hload
    · exact Or.inl ⟨s, db, hload, h.keeps_self⟩
    · exact Or.inr ⟨db, hload, h.keeps_self⟩
  · obtain ⟨tableJsons, hlisted⟩ := not_forall.mp hlisted
    obtain ⟨hmember, hlength⟩ := Classical.not_imp.mp hlisted
    rw [Nat.not_lt] at hlength
    obtain ⟨hconcludes, hnamed⟩ := hsettles tableJsons hmember hlength
    rcases @loadTables_of_concludes _ _ hconcludes Scratch.empty db List.nodup_nil
      (fun _ hmem => absurd hmem List.not_mem_nil) with
      ⟨tables, htables⟩ | ⟨s, scratch, db', hs, hload, hget⟩
    · by_cases hname : Named envelope
      · obtain ⟨name, hname⟩ := hname
        obtain ⟨db', hload, hkeeps⟩ := keeps_of_named h hmember hlength htables hname
        exact Or.inl ⟨.OK, db', hload, hkeeps⟩
      · obtain ⟨hempty, rfl⟩ := (hnamed tables htables).resolve_left hname
        obtain ⟨heap, hload, hget⟩ := fromJson_of_unnamed h.owned hmember hlength htables hname
        refine Or.inr ⟨{ db with heap }, hload, h.keeps_of_heap rfl fun address => ?_⟩
        rw [hempty] at hget
        exact (hget address).trans (if_neg List.not_mem_nil)
    · have hframe := Frame.loadTables Scratch.empty tableJsons db
      rw [hload] at hframe
      refine Or.inl ⟨s, db', (fromJson_of_array hmember hlength db).1 hs hload, ?_⟩
      refine h.keeps_of_heap hframe.fields fun address => ?_
      exact (hget address).trans (if_neg List.not_mem_nil)

/-- Decoding that does not conclude leaves a table behind. -/
theorem loadTables_of_not_concludes {tableJsons : List Json} (h : ¬Concludes tableJsons)
    (scratch : Scratch) (db : Database) :
    ∃ fault db', loadTables scratch tableJsons db = .error fault db' ∧
      ∃ address, db.heap.next ≤ address ∧ db'.heap.get? address ≠ none := by
  induction tableJsons generalizing scratch db with
  | nil => exact absurd trivial h
  | cons tableJson tableJsons ih =>
    rw [loadTables_cons]
    unfold Concludes at h
    cases hdecode : Table.fromJson tableJson (Table.new "" DBConstants.INVALID_TABLE_ID []) with
    | error fault t =>
      refine ⟨fault, _, rfl, db.heap.next, le_rfl, ?_⟩
      dsimp only
      rw [Heap.get?_alloc_self]
      exact Option.some_ne_none t
    | ok s t =>
      rw [hdecode] at h
      obtain ⟨hs, hrest⟩ := Classical.not_imp.mp h
      dsimp only
      rw [if_neg (not_not.mpr hs)]
      obtain ⟨fault, db', hload, address, hle, halive⟩ :=
        ih hrest (scratch.add db.heap.next t) { db with heap := db.heap.alloc t }
      exact ⟨fault, db', hload, address, Nat.le_of_succ_le hle, halive⟩

/-- A load that does not settle is undefined or throws; it then leaves a table that nothing
holds, or holds a table that is deleted. -/
theorem fromJson_of_not_settles {db : Database} {entries : List Entry} (h : db.Held entries)
    {envelope : Json} (hnot : ¬Settles db envelope) :
    ∃ fault heap, fromJson envelope db = .error fault { db with heap } ∧
      ((∃ address ∈ db.tables, heap.get? address = none) ∨
        ∃ address, db.heap.next ≤ address ∧ heap.get? address ≠ none) := by
  unfold Settles at hnot
  simp only [not_forall, not_and_or, not_or] at hnot
  obtain ⟨tableJsons, hmember, hlength, hconcludes | ⟨tables, htables, hname, hnonempty⟩⟩ := hnot
  · obtain ⟨fault, db', hload, hleaked⟩ := loadTables_of_not_concludes hconcludes Scratch.empty db
    have hframe := Frame.loadTables Scratch.empty tableJsons db
    rw [hload] at hframe
    have hfields : db' = { db with heap := db'.heap } := hframe.fields
    refine ⟨fault, db'.heap, ?_, Or.inr hleaked⟩
    rw [← hfields]
    exact (fromJson_of_array hmember hlength db).2 hload
  · obtain ⟨heap, hload, hget⟩ := fromJson_of_unnamed h.owned hmember hlength htables hname
    refine ⟨.exception, heap, hload, ?_⟩
    rcases hnonempty with htables | htables
    · left
      obtain ⟨address, haddress⟩ := List.exists_mem_of_ne_nil db.tables htables
      exact ⟨address, haddress, (hget address).trans (if_pos haddress)⟩
    · right
      cases tables with
      | nil => exact absurd rfl htables
      | cons first rest =>
        refine ⟨db.heap.next, le_rfl, ?_⟩
        have hfresh : db.heap.next ∉ db.tables := fun hmem =>
          h.ne_none _ hmem (db.heap.get?_eq_none _ le_rfl)
        have hfirst : (db.heap.allocAll (first :: rest)).get? db.heap.next = some first :=
          @Heap.get?_of_mem_allocated _ _ _ (db.heap.next, first) List.mem_cons_self
        rw [hget, if_neg hfresh, hfirst]
        exact Option.some_ne_none first

end Loading

section Calls

variable [JsonText] [InsertPolicy]

/-- What a call needs to exchange the tables: a load does not throw with tables in its hands. -/
def SettlesCall (db : Database) : SessionCall → Prop
  | .load file => ∀ envelope, file.1 = .OK → JsonText.parse file.2 = .ok envelope →
    Settles db envelope
  | _ => True

/-- A load goes from a file to what the file parses to, or changes nothing. -/
theorem load_cases (db : Database) (file : Status × List UInt8) :
    (∃ status, load file db = .ok status db ∧ ∀ envelope, file.1 = .OK →
      JsonText.parse file.2 = .ok envelope → Settles db envelope) ∨
    ∃ envelope, file.1 = .OK ∧ JsonText.parse file.2 = .ok envelope ∧
      load file db = catching .PARSE_ERROR (fromJson envelope) db := by
  obtain ⟨status, raw⟩ := file
  by_cases hok : status = .OK
  · subst hok
    cases hparse : JsonText.parse raw with
    | error fault =>
      refine Or.inl ⟨.PARSE_ERROR, ?_, fun _ _ hparsed => ?_⟩
      · apply catching_of_exception
        rw [hparse, JsonText.parse_fault hparse]
        rfl
      · cases hparsed
    | ok envelope => exact Or.inr ⟨envelope, rfl, rfl, load_of_parse hparse db⟩
  · refine Or.inl ⟨status, ?_, fun _ hstatus => absurd hstatus hok⟩
    cases status with
    | OK => contradiction
    | _ => rfl

/-- A load leaves the database that it leaves, whatever it notes. -/
theorem call_load {db db' : Database} {file : Status × List UInt8} {status : Status}
    (hload : load file db = .ok status db') :
    ∃ s, (Session.mk db db).call (.load file) = .ok (.status status, s) ∧ s.db = db' := by
  unfold Session.call
  dsimp only
  rw [hload]
  refine ⟨_, rfl, ?_⟩
  split
  · rfl
  · rfl

/-- A call that settles returns and exchanges the tables. -/
theorem Held.keeps_call {db : Database} {entries : List Entry} (h : db.Held entries)
    {call : SessionCall} (hsettles : db.SettlesCall call) :
    ∃ response s, (Session.mk db db).call call = .ok (response, s) ∧ db.Keeps s.db := by
  cases call with
  | createTable name schema => exact ⟨_, _, rfl, h.keeps_createTable name schema⟩
  | dropTable name =>
    obtain ⟨status, db', hdrop, hkeeps⟩ := h.keeps_dropTable name
    refine ⟨.status status, ⟨db', db⟩, ?_, hkeeps⟩
    unfold Session.call Session.follow Database.call
    dsimp only
    rw [hdrop]
    rfl
  | compact =>
    obtain ⟨db', hcompact, hkeeps⟩ := h.keeps_compact
    refine ⟨.status .OK, ⟨db', db⟩, ?_, hkeeps⟩
    unfold Session.call
    dsimp only
    rw [hcompact]
  | save writeFileAtomic =>
    have hsave : db.save writeFileAtomic = .ok (writeFileAtomic (JsonText.dump
        (.object [("__db_name__", .string db.name),
          ("tables", .array (entries.map fun entry => entry.2.toJson))]))) := by
      unfold Database.save Database.saved
      rw [toJson_of_entries h.tables h.heap]
      rfl
    unfold Session.call
    dsimp only
    rw [hsave]
    refine ⟨_, _, rfl, ?_⟩
    split
    · exact h.keeps_self
    · exact h.keeps_self
  | load file =>
    rcases load_cases db file with ⟨status, hload, _⟩ | ⟨envelope, hok, hparse, hload⟩
    · obtain ⟨s, hcall, hdb⟩ := call_load hload
      exact ⟨_, s, hcall, hdb ▸ h.keeps_self⟩
    · rcases keeps_fromJson h (hsettles envelope hok hparse) with
        ⟨status, db', hdecoded, hkeeps⟩ | ⟨db', hdecoded, hkeeps⟩
      · unfold catching at hload
        rw [hdecoded] at hload
        obtain ⟨s, hcall, hdb⟩ := call_load hload
        exact ⟨_, s, hcall, hdb ▸ hkeeps⟩
      · rw [catching_of_exception hdecoded] at hload
        obtain ⟨s, hcall, hdb⟩ := call_load hload
        exact ⟨_, s, hcall, hdb ▸ hkeeps⟩
  | onTable name call =>
    obtain ⟨response, db', hcall, hkeeps⟩ := h.keeps_onTable name call
    refine ⟨response, ⟨db', db⟩, ?_, hkeeps⟩
    unfold Session.call Session.follow
    dsimp only
    rw [hcall]
    rfl

/-- A call that does not settle and returns leaves a table that nothing holds, or holds a table
that is deleted. -/
theorem Held.call_of_not_settles {db : Database} {entries : List Entry} (h : db.Held entries)
    {call : SessionCall} (hnot : ¬db.SettlesCall call) {response : DatabaseResponse} {s : Session}
    (hcall : (Session.mk db db).call call = .ok (response, s)) :
    s.db.tables = db.tables ∧ ((∃ address ∈ db.tables, s.db.heap.get? address = none) ∨
      ∃ address, db.heap.next ≤ address ∧ s.db.heap.get? address ≠ none) := by
  cases call with
  | load file =>
    rcases load_cases db file with ⟨_, _, hsettles⟩ | ⟨envelope, hok, hparse, hload⟩
    · exact absurd hsettles hnot
    · have hopen : ¬Settles db envelope := by
        intro hsettles
        refine hnot fun other _ hother => ?_
        cases hparse.symm.trans hother
        exact hsettles
      obtain ⟨fault, heap, hdecoded, hlost⟩ := fromJson_of_not_settles h hopen
      cases fault with
      | exception =>
        rw [catching_of_exception hdecoded] at hload
        obtain ⟨s', hcall', hdb⟩ := call_load hload
        cases hcall.symm.trans hcall'
        rw [hdb]
        exact ⟨rfl, hlost⟩
      | undefined =>
        unfold catching at hload
        rw [hdecoded] at hload
        unfold Session.call at hcall
        dsimp only at hcall
        rw [hload] at hcall
        cases hcall
  | _ => exact absurd trivial hnot

end Calls

end Database

end MiniDB.Core
