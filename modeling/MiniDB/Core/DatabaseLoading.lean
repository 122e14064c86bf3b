import MiniDB.Core.Database

/-!
# Building tables beside a database

While a database is decoded, its new tables live beside the old ones. Whatever happens
then, the old tables and all fields of the database stay as they are; and if every table
decodes, the new ones hold what their envelopes describe.
-/

namespace MiniDB.Core

open MiniDB.Common MiniDB.JsonPro Memory Traversal

/-- Containers with further decoded tables, allocated from an address on. -/
def Scratch.addAll [InsertPolicy] (scratch : Scratch) (address : Address) : List Table → Scratch
  | [] => scratch
  | t :: ts => (scratch.add address t).addAll (address + 1) ts

namespace Database

/-- The fields are the same, and so are the living tables except those at some addresses. -/
structure Frame (touched : List Address) (db db' : Database) : Prop where
  /-- Only the memory changes. -/
  fields : db' = { db with heap := db'.heap }
  /-- Other tables are not reached. -/
  heap : ∀ {address t}, address ∉ touched → db.heap.get? address = some t →
    db'.heap.get? address = some t

namespace Frame

variable {touched : List Address} {db db' db'' : Database}

theorem refl (touched : List Address) (db : Database) : Frame touched db db := ⟨rfl, fun _ h => h⟩

/-- Effects on tables that did not exist at first do not count. -/
theorem trans_of_fresh {touched' : List Address} (h : Frame touched db db')
    (h' : Frame touched' db' db'')
    (hfresh : ∀ address ∈ touched', address ∈ touched ∨ db.heap.get? address = none) :
    Frame touched db db'' where
  fields := by
    rw [h'.fields, h.fields]
  heap := by
    intro address t hnot hsome
    apply h'.heap _ (h.heap hnot hsome)
    intro hmem
    rcases hfresh address hmem with htouched | hnone
    · exact hnot htouched
    · rw [hnone] at hsome
      cases hsome

theorem trans (h : Frame touched db db') (h' : Frame touched db' db'') : Frame touched db db'' :=
  h.trans_of_fresh h' fun _ hmem => Or.inl hmem

/-- Allocating reaches no table. -/
theorem alloc (touched : List Address) (db : Database) (t : Table) :
    Frame touched db { db with heap := db.heap.alloc t } :=
  ⟨rfl, fun _ h => Heap.get?_alloc_of_some h t⟩

/-- Deleting a table reaches no other. -/
theorem deleteTable {address : Address} (h : address ∈ touched) (db : Database) :
    Frame touched db (finalState (deleteTable address db)) := by
  unfold Database.deleteTable
  cases hfree : db.heap.free address with
  | error fault => exact refl touched db
  | ok heap =>
    refine ⟨rfl, fun {other t} hnot hsome => ?_⟩
    have hne : other ≠ address := by
      rintro rfl
      exact hnot h
    have hother := Heap.get?_of_free hfree hne
    exact hother.trans hsome

/-- Deleting tables reaches no others. -/
theorem deleteTables {addresses : List Address} (h : ∀ address ∈ addresses, address ∈ touched)
    (db : Database) : Frame touched db (finalState (deleteTables addresses db)) := by
  induction addresses generalizing db with
  | nil => exact refl touched db
  | cons address addresses ih =>
    unfold Database.deleteTables
    apply finalState_bind (R := Frame touched) trans
    · exact deleteTable (h address List.mem_cons_self) db
    · intro _ db' _
      exact ih (fun other hother => h other (List.mem_cons_of_mem _ hother)) db'

end Frame

/-- Deleting a living table succeeds. -/
theorem deleteTable_of_some {db : Database} {address : Address} {t : Table}
    (h : db.heap.get? address = some t) :
    deleteTable address db =
      .ok () { db with heap := db.heap.put address (Heap.lt_next h) none } := by
  unfold deleteTable
  rw [Heap.free_of_some h]

/-- The tables of a database are alive and distinct. -/
structure Owned (db : Database) : Prop where
  /-- No table is held twice. -/
  nodup : db.tables.Nodup
  /-- Every table is alive. -/
  alive : ∀ address ∈ db.tables, ∃ t, db.heap.get? address = some t

/-- Deleting distinct living tables succeeds. -/
theorem deleteTables_of_alive {addresses : List Address} {db : Database} (hnodup : addresses.Nodup)
    (halive : ∀ address ∈ addresses, ∃ t, db.heap.get? address = some t) :
    ∃ db', deleteTables addresses db = .ok () db' ∧ ∀ other,
      db'.heap.get? other = if other ∈ addresses then none else db.heap.get? other := by
  induction addresses generalizing db with
  | nil => exact ⟨db, rfl, fun _ => (if_neg List.not_mem_nil).symm⟩
  | cons address addresses ih =>
    rw [List.nodup_cons] at hnodup
    obtain ⟨t, ht⟩ := halive address List.mem_cons_self
    obtain ⟨db', hdelete, hget⟩ := @ih
      { db with heap := db.heap.put address (Heap.lt_next ht) none } hnodup.2 (by
        intro other hother
        obtain ⟨t', ht'⟩ := halive other (List.mem_cons_of_mem _ hother)
        refine ⟨t', ?_⟩
        rw [Heap.get?_put, if_neg, ht']
        rintro rfl
        exact hnodup.1 hother)
    refine ⟨db', ?_, fun other => ?_⟩
    · unfold deleteTables
      rw [bind_of_ok (deleteTable_of_some ht)]
      exact hdelete
    · rw [hget, Heap.get?_put]
      by_cases hother : other ∈ addresses
      · rw [if_pos hother, if_pos (List.mem_cons_of_mem _ hother)]
      · by_cases hsame : other = address
        · rw [if_neg hother, if_pos hsame, if_pos (hsame ▸ List.mem_cons_self)]
        · rw [if_neg hother, if_neg hsame, if_neg]
          intro hmem
          rcases List.mem_cons.mp hmem with heq | hmem
          · exact hsame heq
          · exact hother hmem

section Loading

variable [InsertPolicy]

/-- One table is decoded at a new address; if that fails, it and the tables before it are
deleted. -/
theorem loadTables_cons (scratch : Scratch) (tableJson : Json) (tableJsons : List Json)
    (db : Database) :
    loadTables scratch (tableJson :: tableJsons) db =
      match Table.fromJson tableJson (Table.new "" DBConstants.INVALID_TABLE_ID []) with
      | .error fault t => .error fault { db with heap := db.heap.alloc t }
      | .ok s t =>
        if s ≠ .OK then
          (do
            deleteTable db.heap.next
            deleteTables scratch.tables
            return (s, scratch) : EStateM Fault Database (Status × Scratch))
            { db with heap := db.heap.alloc t }
        else loadTables (scratch.add db.heap.next t) tableJsons
          { db with heap := db.heap.alloc t } := by
  rw [loadTables]
  change (onTable db.heap.next (Table.fromJson tableJson) >>= _)
    { db with heap := db.heap.alloc (Table.new "" DBConstants.INVALID_TABLE_ID []) } = _
  have hread := Heap.read_eq_ok.mpr
    (db.heap.get?_alloc_self (Table.new "" DBConstants.INVALID_TABLE_ID []))
  cases hdecode : Table.fromJson tableJson (Table.new "" DBConstants.INVALID_TABLE_ID []) with
  | error fault t =>
    have hon : onTable db.heap.next (Table.fromJson tableJson)
        { db with heap := db.heap.alloc (Table.new "" DBConstants.INVALID_TABLE_ID []) } =
          .error fault { db with heap := db.heap.alloc t } := by
      unfold onTable
      dsimp only
      rw [hread]
      dsimp only
      rw [hdecode]
      dsimp only
      rw [Heap.write_alloc]
    change EStateM.bind _ _ _ = _
    unfold EStateM.bind
    rw [hon]
  | ok s t =>
    have hon : onTable db.heap.next (Table.fromJson tableJson)
        { db with heap := db.heap.alloc (Table.new "" DBConstants.INVALID_TABLE_ID []) } =
          .ok s { db with heap := db.heap.alloc t } := by
      unfold onTable
      dsimp only
      rw [hread]
      dsimp only
      rw [hdecode]
      dsimp only
      rw [Heap.write_alloc]
    rw [bind_of_ok hon]
    dsimp only
    by_cases hs : s = .OK
    · rw [if_neg (not_not.mpr hs), if_neg (not_not.mpr hs)]
      have hnew := Heap.read_eq_ok.mpr (db.heap.get?_alloc_self t)
      exact lift_bind_of_ok hnew _ _
    · rw [if_pos hs, if_pos hs]

/-- Decoded tables stay alive and distinct with one more. -/
theorem alive_add {scratch : Scratch} {db : Database} (hnodup : scratch.tables.Nodup)
    (halive : ∀ address ∈ scratch.tables, ∃ t, db.heap.get? address = some t) (t : Table) :
    (scratch.add db.heap.next t).tables.Nodup ∧
      ∀ address ∈ (scratch.add db.heap.next t).tables,
        ∃ t', (db.heap.alloc t).get? address = some t' := by
  constructor
  · refine List.nodup_append.mpr ⟨hnodup, List.nodup_singleton _, ?_⟩
    rintro address hmem other hother rfl
    obtain ⟨t', ht'⟩ := halive address hmem
    exact (Heap.lt_next ht').ne (List.mem_singleton.mp hother)
  · intro address hmem
    rcases List.mem_append.mp hmem with hold | hnew
    · obtain ⟨t', ht'⟩ := halive address hold
      exact ⟨t', Heap.get?_alloc_of_some ht' t⟩
    · rw [List.mem_singleton.mp hnew]
      exact ⟨t, Heap.get?_alloc_self _ _⟩

/-- Decoding tables reaches no old table. -/
theorem Frame.loadTables (scratch : Scratch) (tableJsons : List Json) (db : Database) :
    Frame scratch.tables db (finalState (loadTables scratch tableJsons db)) := by
  induction tableJsons generalizing scratch db with
  | nil => exact Frame.refl _ db
  | cons tableJson tableJsons ih =>
    have hfresh : db.heap.get? db.heap.next = none := db.heap.get?_eq_none _ le_rfl
    rw [loadTables_cons]
    cases Table.fromJson tableJson (Table.new "" DBConstants.INVALID_TABLE_ID []) with
    | error fault t => exact Frame.alloc _ db t
    | ok s t =>
      dsimp only
      have halloc := Frame.alloc scratch.tables db t
      by_cases hs : s = .OK
      · rw [if_neg (not_not.mpr hs)]
        apply halloc.trans_of_fresh (ih _ _)
        intro address hmem
        unfold Scratch.add at hmem
        rcases List.mem_append.mp hmem with hold | hnew
        · left
          exact hold
        · right
          rw [List.mem_singleton.mp hnew]
          exact hfresh
      · rw [if_pos hs]
        have hcleanup : Frame (db.heap.next :: scratch.tables) { db with heap := db.heap.alloc t }
            (finalState ((do
              Database.deleteTable db.heap.next
              Database.deleteTables scratch.tables
              return (s, scratch) : EStateM Fault Database (Status × Scratch))
              { db with heap := db.heap.alloc t })) := by
          apply finalState_bind (R := Frame (db.heap.next :: scratch.tables)) Frame.trans
          · exact Frame.deleteTable List.mem_cons_self _
          · intro _ db' _
            apply finalState_bind (R := Frame (db.heap.next :: scratch.tables)) Frame.trans
            · exact Frame.deleteTables (fun address hmem => List.mem_cons_of_mem _ hmem) db'
            · intro _ db'' _
              exact Frame.refl _ db''
        apply halloc.trans_of_fresh hcleanup
        intro address hmem
        rcases List.mem_cons.mp hmem with rfl | hold
        · right
          exact hfresh
        · left
          exact hold

/-- If every table decodes, they are allocated one after the other. -/
theorem loadTables_of_mapM {tableJsons : List Json} {tables : List Table}
    (h : tableJsons.mapM Table.ofEnvelope? = some tables) (scratch : Scratch) (db : Database) :
    loadTables scratch tableJsons db = .ok (.OK, scratch.addAll db.heap.next tables)
      { db with heap := db.heap.allocAll tables } := by
  induction tableJsons generalizing tables scratch db with
  | nil =>
    rw [mapM_nil_eq_some.mp h]
    rfl
  | cons tableJson tableJsons ih =>
    obtain ⟨first, rest, hfirst, hrest, rfl⟩ := mapM_cons_eq_some.mp h
    rw [loadTables_cons, Table.fromJson_eq_ok.mpr hfirst]
    dsimp only
    rw [if_neg (not_not.mpr rfl), ih hrest]
    rfl

/-- Tables whose decoding succeeds are what their envelopes describe. -/
theorem mapM_of_loadTables {tableJsons : List Json} {scratch scratch' : Scratch}
    {db db' : Database} (h : loadTables scratch tableJsons db = .ok (.OK, scratch') db') :
    ∃ tables, tableJsons.mapM Table.ofEnvelope? = some tables := by
  induction tableJsons generalizing scratch db with
  | nil => exact ⟨[], rfl⟩
  | cons tableJson tableJsons ih =>
    rw [loadTables_cons] at h
    cases hdecode : Table.fromJson tableJson (Table.new "" DBConstants.INVALID_TABLE_ID []) with
    | error fault t =>
      rw [hdecode] at h
      cases h
    | ok s t =>
      rw [hdecode] at h
      dsimp only at h
      by_cases hs : s = .OK
      · subst hs
        rw [if_neg (not_not.mpr rfl)] at h
        obtain ⟨tables, htables⟩ := ih h
        refine ⟨t :: tables, mapM_cons_eq_some.mpr ⟨t, tables, ?_, htables, rfl⟩⟩
        exact Table.fromJson_eq_ok.mp hdecode
      · rw [if_pos hs] at h
        obtain ⟨_, _, _, h⟩ := bind_eq_ok h
        obtain ⟨_, _, _, h⟩ := bind_eq_ok h
        cases h
        contradiction

/-- Once all tables have decoded, a load goes on by deleting the old tables. -/
theorem fromJson_of_tables {envelope : Json} {tableJsons : List Json} {tables : List Table}
    (hmember : envelope.member? "tables" = some (.array tableJsons))
    (hlength : tableJsons.length ≤ DBConstants.MAX_TABLES)
    (htables : tableJsons.mapM Table.ofEnvelope? = some tables) (db : Database) :
    fromJson envelope db =
      (do
        deleteTables (← get).tables
        let name ← (← envelope.index "__db_name__").asString
        let scratch := Scratch.empty.addAll db.heap.next tables
        modify fun db => { db with
          name := name
          tables := scratch.tables
          index := scratch.index
          tableIndex := scratch.tableIndex
          nextTableId := if scratch.tables.isEmpty then 0 else scratch.maxTableId + 1
          dirty := false }
        return .OK : EStateM Fault Database Status)
        { db with heap := db.heap.allocAll tables } := by
  unfold fromJson
  rw [if_neg (by rw [Json.isNull_of_member? hmember]; exact Bool.false_ne_true),
    lift_bind_of_ok (Json.index_eq_ok.mpr hmember), lift_bind_of_ok (Json.asArray_eq_ok.mpr rfl),
    if_neg (Nat.not_lt.mpr hlength), lift_bind_of_ok (Json.index_eq_ok.mpr hmember),
    lift_bind_of_ok (Json.asArray_eq_ok.mpr rfl), bind_of_ok (loadTables_of_mapM htables _ db)]
  rfl

omit [InsertPolicy] in
/-- The tables of a database can be deleted after others were allocated. -/
theorem deleteTables_of_owned {db : Database} (h : db.Owned) (tables : List Table) :
    ∃ db', deleteTables db.tables { db with heap := db.heap.allocAll tables } = .ok () db' ∧
      ∀ address, db'.heap.get? address =
        if address ∈ db.tables then none else (db.heap.allocAll tables).get? address := by
  apply deleteTables_of_alive h.nodup
  intro address haddress
  obtain ⟨t, ht⟩ := h.alive address haddress
  exact ⟨t, Heap.get?_allocAll_of_some ht tables⟩

/-- A load whose tables all decode and that has a name replaces the database. -/
theorem fromJson_of_named {db : Database} (howned : db.Owned) {envelope : Json}
    {tableJsons : List Json} {tables : List Table} {name : String}
    (hmember : envelope.member? "tables" = some (.array tableJsons))
    (hlength : tableJsons.length ≤ DBConstants.MAX_TABLES)
    (htables : tableJsons.mapM Table.ofEnvelope? = some tables)
    (hname : envelope.member? "__db_name__" = some (.string name)) :
    ∃ heap, fromJson envelope db = .ok .OK {
        name := name
        tables := (Scratch.empty.addAll db.heap.next tables).tables
        index := (Scratch.empty.addAll db.heap.next tables).index
        tableIndex := (Scratch.empty.addAll db.heap.next tables).tableIndex
        nextTableId :=
          if (Scratch.empty.addAll db.heap.next tables).tables.isEmpty then 0
          else (Scratch.empty.addAll db.heap.next tables).maxTableId + 1
        dirty := false
        heap := heap } ∧
      ∀ address, heap.get? address =
        if address ∈ db.tables then none else (db.heap.allocAll tables).get? address := by
  obtain ⟨db', hdelete, hget⟩ := deleteTables_of_owned howned tables
  refine ⟨db'.heap, ?_, hget⟩
  rw [fromJson_of_tables hmember hlength htables]
  refine (bind_of_ok hdelete _).trans ?_
  rw [lift_bind_of_ok (Json.index_eq_ok.mpr hname), lift_bind_of_ok (Json.asString_eq_ok.mpr rfl)]
  rfl

end Loading

/-- Addresses that were given out once are not given out again. -/
def Onward (db db' : Database) : Prop := db.heap.next ≤ db'.heap.next

namespace Onward

theorem refl (db : Database) : Onward db db := Nat.le_refl db.heap.next

theorem trans {db db' db'' : Database} (h : Onward db db') (h' : Onward db' db'') :
    Onward db db'' := Nat.le_trans h h'

theorem alloc (db : Database) (t : Table) : Onward db { db with heap := db.heap.alloc t } :=
  Nat.le_succ db.heap.next

theorem deleteTable (address : Address) (db : Database) :
    Onward db (finalState (deleteTable address db)) := by
  unfold Database.deleteTable
  cases hfree : db.heap.free address with
  | error fault => exact refl db
  | ok heap => exact (Heap.next_of_free hfree).ge

theorem deleteTables (addresses : List Address) (db : Database) :
    Onward db (finalState (deleteTables addresses db)) := by
  induction addresses generalizing db with
  | nil => exact refl db
  | cons address addresses ih =>
    unfold Database.deleteTables
    apply finalState_bind (R := Onward) trans (deleteTable address db)
    intro _ db' _
    exact ih db'

theorem loadTables [InsertPolicy] (scratch : Scratch) (tableJsons : List Json) (db : Database) :
    Onward db (finalState (loadTables scratch tableJsons db)) := by
  induction tableJsons generalizing scratch db with
  | nil => exact refl db
  | cons tableJson tableJsons ih =>
    rw [loadTables_cons]
    cases Table.fromJson tableJson (Table.new "" DBConstants.INVALID_TABLE_ID []) with
    | error fault t => exact alloc db t
    | ok s t =>
      dsimp only
      by_cases hs : s = .OK
      · rw [if_neg (not_not.mpr hs)]
        exact (alloc db t).trans (ih _ _)
      · rw [if_pos hs]
        refine (alloc db t).trans ?_
        apply finalState_bind (R := Onward) trans (deleteTable _ _)
        intro _ db' _
        apply finalState_bind (R := Onward) trans (deleteTables _ db')
        intro _ db'' _
        exact refl db''

/-- A load gives no address out twice, whether it fails or not. -/
theorem fromJson [InsertPolicy] (envelope : Json) (db : Database) :
    Onward db (finalState (fromJson envelope db)) := by
  unfold Database.fromJson
  split
  · exact refl db
  · apply finalState_lift_bind (R := Onward) (refl db)
    intro _ _
    apply finalState_lift_bind (R := Onward) (refl db)
    intro _ _
    split
    · exact refl db
    · apply finalState_lift_bind (R := Onward) (refl db)
      intro _ _
      apply finalState_lift_bind (R := Onward) (refl db)
      intro tableJsons _
      apply finalState_bind (R := Onward) trans (loadTables Scratch.empty tableJsons db)
      rintro ⟨s, scratch⟩ db' _
      dsimp only
      split
      · exact refl db'
      · rw [get_bind]
        apply finalState_bind (R := Onward) trans (deleteTables db'.tables db')
        intro _ db'' _
        apply finalState_lift_bind (R := Onward) (refl db'')
        intro _ _
        apply finalState_lift_bind (R := Onward) (refl db'')
        intro _ _
        exact refl _

theorem load [InsertPolicy] [JsonText] (file : Status × List UInt8) (db : Database) :
    Onward db (finalState (load file db)) := by
  unfold Database.load
  split
  · rw [finalState_catching]
    apply finalState_lift_bind (R := Onward) (refl db)
    intro envelope _
    split
    · exact refl db
    · exact fromJson envelope db
  · exact refl db

end Onward

section Files

variable [JsonText] [InsertPolicy]

/-- A load of a text loads what the text parses to, with exceptions handled. -/
theorem load_of_parse {raw : List UInt8} {envelope : Json}
    (hparse : JsonText.parse raw = .ok envelope) (db : Database) :
    load (.OK, raw) db = catching .PARSE_ERROR (fromJson envelope) db := by
  unfold load catching
  dsimp only
  rw [lift_bind_of_ok hparse]
  by_cases hnull : envelope.isNull = true
  · unfold fromJson
    rw [if_pos hnull, if_pos hnull]
  · rw [if_neg hnull]

/-- A load returns a status, or it is undefined. -/
theorem load_ends (file : Status × List UInt8) (db : Database) :
    (∃ status db', load file db = .ok status db') ∨
      ∃ db', load file db = .error .undefined db' := by
  unfold load
  split
  · exact catching_cases _ _ db
  · exact Or.inl ⟨_, db, rfl⟩

end Files

end Database

end MiniDB.Core
