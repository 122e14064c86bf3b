import MiniDB.Core.DatabaseConsistency

/-!
# Runs of a database

Creating tables, dropping them, and calls on tables that are looked up by name are one step
function. As long as the identifiers of tables and pages stay below `2 ^ 31`, every run from an
empty database completes and ends in a consistent one.
-/

namespace MiniDB.Core

open MiniDB.Common MiniDB.JsonPro Memory Refinement

/-- A call on a database. -/
inductive DatabaseCall
  | createTable (name : String) (schema : List ColumnDef)
  | dropTable (name : String)
  | onTable (name : String) (call : TableCall)

/-- What a call reports. -/
inductive DatabaseResponse
  | status (s : Status)
  | table (response : TableResponse)
  | noTable

/-- The identifiers of a table and of its pages are below `2 ^ 31`. -/
structure Table.SmallPageIds (t : Table) : Prop where
  /-- The identifier of the table. -/
  table : t.id.toNat < 2 ^ 31
  /-- The identifiers of its pages. -/
  pages : ∀ p ∈ t.pages, p.id.toNat < 2 ^ 31

instance (t : Table) : Decidable t.SmallPageIds :=
  decidable_of_iff (t.id.toNat < 2 ^ 31 ∧ ∀ p ∈ t.pages, p.id.toNat < 2 ^ 31)
    ⟨fun h => ⟨h.1, h.2⟩, fun h => ⟨h.table, h.pages⟩⟩

namespace Database

/-- The identifiers of the tables and of their pages are below `2 ^ 31`. -/
def SmallPageIds (db : Database) : Prop :=
  ∀ address ∈ db.tables, ∀ t, db.heap.get? address = some t → t.SmallPageIds

instance (db : Database) : Decidable db.SmallPageIds :=
  inferInstanceAs (Decidable (∀ address ∈ db.tables, ∀ t ∈ db.heap.get? address, t.SmallPageIds))

variable [InsertPolicy]

/-- One call; a call on a table goes through the pointer that `getTable` returns. -/
def call (db : Database) : DatabaseCall → Except Fault (DatabaseResponse × Database)
  | .createTable name schema =>
    let (s, db) := db.createTable name schema
    .ok (.status s, db)
  | .dropTable name =>
    match dropTable name db with
    | .ok s db => .ok (.status s, db)
    | .error fault _ => .error fault
  | .onTable name call =>
    match db.getTable name with
    | none => .ok (.noTable, db)
    | some address => do
      let (response, t) ← (← db.heap.read address).call call
      let heap ← db.heap.write address t
      return (.table response, { db with heap })

omit [InsertPolicy] in
/-- A consistent table with small page identifiers has identifiers left. -/
theorem length_lt_of_small {t : Table} (h : t.Consistent) (hsmall : t.SmallPageIds) :
    t.pages.length < 2 ^ 32 := by
  by_contra hlength
  have hposition : 2 ^ 31 < t.pages.length := by omega
  have hpage := List.getElem?_eq_getElem hposition
  have hid := hsmall.pages _ (List.mem_of_getElem? hpage)
  rw [h.pageId hpage, UInt32.toNat_ofNat'] at hid
  omega

/-- Every call returns, and keeps the database consistent as long as the identifiers of tables and
pages stay small. -/
theorem Consistent.call {db : Database} {entries : List Entry} (h : db.Consistent entries)
    (hsmall : db.SmallPageIds) (call : DatabaseCall) :
    ∃ response db', db.call call = .ok (response, db') ∧
      (db'.SmallPageIds → ∃ entries', db'.Consistent entries') := by
  cases call with
  | createTable name schema =>
    unfold Database.call
    dsimp only
    rcases h.createTable name schema with ⟨_, hfail⟩ | ⟨_, _, hfail⟩ |
      ⟨_, _, db', hcreate, htables, hheap, _, hlinked⟩
    · rw [hfail]
      exact ⟨_, _, rfl, fun _ => ⟨entries, h⟩⟩
    · rw [hfail]
      exact ⟨_, _, rfl, fun _ => ⟨entries, h⟩⟩
    · rw [hcreate]
      refine ⟨_, _, rfl, fun hsmall' => ⟨_, h.concat (hlinked ?_) (Table.Consistent.new _ _ _)⟩⟩
      have hnew : db.heap.next ∈ db'.tables := by
        rw [htables]
        exact List.mem_append_right _ (List.mem_singleton_self _)
      have hid := (hsmall' _ hnew _ (by rw [hheap]; exact Heap.get?_alloc_self _ _)).table
      change db.nextTableId.toNat < 2 ^ 31 at hid
      omega
  | dropTable name =>
    unfold Database.call
    dsimp only
    rcases h.dropTable name with ⟨hdrop, _⟩ | ⟨db', hdrop, hlinked, _⟩
    · rw [hdrop]
      exact ⟨_, _, rfl, fun _ => ⟨entries, h⟩⟩
    · rw [hdrop]
      exact ⟨_, _, rfl, fun _ => ⟨_, h.filter hlinked⟩⟩
  | onTable name call =>
    unfold Database.call
    dsimp only
    rcases @Wired.getTable _ _ h.wired name with ⟨hget, _⟩ | ⟨entry, hentry, _, hget⟩
    · rw [hget]
      exact ⟨_, _, rfl, fun _ => ⟨entries, h⟩⟩
    · have ht := h.consistent hentry
      have hroom := length_lt_of_small ht (h.forall_tables_iff.mp hsmall entry hentry)
      obtain ⟨response, t', hcall, ht', hgrows⟩ := ht.call hroom call
      obtain ⟨heap, hwrite, hlinked⟩ := h.write hentry hgrows
      refine ⟨.table response, { db with heap := heap }, ?_,
        fun _ => ⟨_, hlinked, fun {other} hmem => ?_⟩⟩
      · rw [hget]
        dsimp only
        rw [Heap.read_eq_ok.mpr (h.heap hentry)]
        change (entry.2.call call >>= _) = _
        rw [hcall]
        change (db.heap.write entry.1 t' >>= _) = _
        rw [hwrite]
        rfl
      · rcases mem_replaced hmem with rfl | ⟨hold, _⟩
        · exact ht'
        · exact h.consistent hold

/-- Every run from an empty database throughout which the identifiers of tables and pages are small
completes and ends in a consistent database. -/
theorem run_consistent (name : String) (calls : List DatabaseCall)
    (hsmall : Throughout Database.call SmallPageIds (Database.new name) calls) :
    ∃ responses db, run Database.call (Database.new name) calls = .ok (responses, db) ∧
      ∃ entries, db.Consistent entries := by
  have hstep : ∀ {db : Database} (call : DatabaseCall), (∃ entries, db.Consistent entries) →
      db.SmallPageIds → ∃ response db', db.call call = .ok (response, db') ∧
        (db'.SmallPageIds → ∃ entries, db'.Consistent entries) := by
    rintro db call ⟨entries, h⟩ hsmall
    exact h.call hsmall call
  have hnew : ∃ entries, (Database.new name).Consistent entries := ⟨[], Consistent.new name⟩
  obtain ⟨responses, db, hrun, hconsistent, _⟩ := Throughout.run_invariant hstep hnew hsmall
  exact ⟨responses, db, hrun, hconsistent⟩

end Database

end MiniDB.Core
