import MiniDB.Core.LoadAtomicity
import MiniDB.Core.RecordChanges

/-!
# Unsaved changes

A database and each of its tables carry a mark for unsaved changes. The database sets its own
when tables are created or dropped, the tables set theirs when records change, and compacting
clears them all. Every change since the last save or load is marked as long as records change
only below a database that is marked already and only what has not changed is compacted.
-/

namespace MiniDB.Core

open MiniDB.Common MiniDB.JsonPro Memory Refinement Requirement Traversal

namespace Database

/-- The pointers of a database lead to its tables, and the identifier index leads to no others,
whatever the names and identifiers of these are. -/
structure Held (db : Database) (entries : List Entry) : Prop where
  /-- The tables are held in order. -/
  tables : db.tables = entries.map Prod.fst
  /-- No table is held twice. -/
  nodup : (entries.map Prod.fst).Nodup
  /-- The tables are alive. -/
  heap : ∀ entry ∈ entries, db.heap.get? entry.1 = some entry.2
  /-- An identifier leads to a table with that identifier. -/
  tableIndex : ∀ tid address, db.tableIndex.get? tid = some address →
    ∃ t, (address, t) ∈ entries ∧ t.id = tid
  /-- The pages have exact slots. -/
  exact : ∀ entry ∈ entries, entry.2.ExactPages

namespace Held

variable {db : Database} {entries : List Entry}

/-- The tables are alive and distinct. -/
theorem owned (h : db.Held entries) : db.Owned where
  nodup := h.tables ▸ h.nodup
  alive := by
    intro address haddress
    rw [h.tables] at haddress
    obtain ⟨entry, hentry, rfl⟩ := List.mem_map.mp haddress
    exact ⟨entry.2, h.heap entry hentry⟩

/-- A living table of the database is one of its tables. -/
theorem mem_of_get? (h : db.Held entries) {address : Address} {t : Table}
    (haddress : address ∈ db.tables) (ht : db.heap.get? address = some t) :
    (address, t) ∈ entries := by
  rw [h.tables] at haddress
  obtain ⟨entry, hentry, rfl⟩ := List.mem_map.mp haddress
  cases (h.heap entry hentry).symm.trans ht
  exact hentry

/-- The tables have been allocated. -/
theorem lt_next (h : db.Held entries) : ∀ address ∈ db.tables, address < db.heap.next := by
  intro address haddress
  obtain ⟨t, ht⟩ := h.owned.alive address haddress
  exact Heap.lt_next ht

/-- A name leads to no table or to one of the database. -/
theorem getTable (h : db.Held entries) {name : String} {address : Address}
    (hget : db.getTable name = some address) : ∃ t, (address, t) ∈ entries := by
  unfold Database.getTable at hget
  split at hget
  · cases hget
  · obtain ⟨t, hentry, _⟩ := h.tableIndex _ address hget
    exact ⟨t, hentry⟩

/-- The new database holds nothing. -/
theorem new (name : String) : (Database.new name).Held [] where
  tables := rfl
  nodup := List.nodup_nil
  heap := fun _ hentry => absurd hentry List.not_mem_nil
  tableIndex := fun _ _ hget => absurd hget.symm (Option.some_ne_none _)
  exact := fun _ hentry => absurd hentry List.not_mem_nil

/-- The document of a database shows the documents of its tables. -/
theorem toJson_congr {db' : Database} {entries' : List Entry} (h : db.Held entries)
    (h' : db'.Held entries') (hname : db'.name = db.name) :
    db'.toJson = db.toJson ↔ (entries'.map fun entry => entry.2.toJson) =
      entries.map fun entry => entry.2.toJson := by
  rw [toJson_of_entries h.tables h.heap, toJson_of_entries h'.tables h'.heap, hname]
  simp

/-- Replacing a table by a later state of it. -/
theorem replace (h : db.Held entries) {address : Address} {t t' : Table}
    (hentry : (address, t) ∈ entries) (hid : t'.id = t.id) (hexact : t'.ExactPages) :
    ∃ heap, db.heap.write address t' = .ok heap ∧ heap.next = db.heap.next ∧
      Held { db with heap } (replaced entries address t') := by
  refine ⟨_, Heap.write_of_some (h.heap _ hentry) t', rfl, ?_⟩
  constructor
  · rw [map_fst_replaced]
    exact h.tables
  · rw [map_fst_replaced]
    exact h.nodup
  · exact fun _ hmem => get?_put_replaced h.heap (Heap.lt_next (h.heap _ hentry)) hmem
  · intro tid other hget
    obtain ⟨found, hfound, hfoundId⟩ := h.tableIndex tid other hget
    by_cases hsame : other = address
    · subst hsame
      have heq : t = found := Option.some.inj ((h.heap _ hentry).symm.trans (h.heap _ hfound))
      refine ⟨t', mem_replaced_self hentry, ?_⟩
      rw [hid, heq, hfoundId]
    · exact ⟨found, mem_replaced_of_ne hfound hsame, hfoundId⟩
  · intro entry hentry'
    rcases mem_replaced hentry' with rfl | ⟨hold, _⟩
    · exact hexact
    · exact h.exact entry hold

/-- The document changes with that of a replaced table. -/
theorem toJson_replaced (h : db.Held entries) {address : Address} {t t' : Table}
    (hentry : (address, t) ∈ entries) {heap : Heap Table}
    (hheld : Held { db with heap } (replaced entries address t')) :
    Database.toJson { db with heap } = db.toJson ↔ t'.toJson = t.toJson := by
  rw [h.toJson_congr hheld rfl, replaced, List.map_map, List.map_inj_left]
  constructor
  · intro hsame
    have hreplaced := hsame _ hentry
    rw [Function.comp_apply, if_pos rfl] at hreplaced
    exact hreplaced
  · intro hsame entry hmem
    rw [Function.comp_apply]
    split
    · rename_i haddress
      obtain ⟨other, found⟩ := entry
      obtain rfl : other = address := haddress
      have heq : found = t := Option.some.inj ((h.heap _ hmem).symm.trans (h.heap _ hentry))
      rw [heq]
      exact hsame
    · rfl

/-- Creating a table fails and changes nothing, or marks the database and puts an empty table
behind the others. -/
theorem createTable [InsertPolicy] (h : db.Held entries) (name : String)
    (schema : List ColumnDef) :
    (db.createTable name schema).2 = db ∨
    ((db.createTable name schema).2.isDirty = true ∧
      (db.createTable name schema).2.heap.next = db.heap.next + 1 ∧
      (db.createTable name schema).2.Held
        (entries ++ [(db.heap.next, Table.new name db.nextTableId schema)])) := by
  unfold Database.createTable
  split
  · exact Or.inl rfl
  · split
    · exact Or.inl rfl
    · refine Or.inr ⟨rfl, rfl, ?_⟩
      constructor
      · rw [List.map_append, ← h.tables]
        rfl
      · apply KeyedList.nodup_concat Prod.fst h.nodup
        intro entry hentry
        exact (Heap.lt_next (h.heap entry hentry)).ne
      · intro entry hentry
        rcases List.mem_append.mp hentry with hold | hnew
        · exact Heap.get?_alloc_of_some (h.heap entry hold) _
        · rw [List.mem_singleton.mp hnew]
          exact Heap.get?_alloc_self _ _
      · intro tid address hget
        rcases FiniteMap.get?_insert_eq_some hget with hold | hnew
        · obtain ⟨t, hentry, hid⟩ := h.tableIndex tid address hold
          exact ⟨t, List.mem_append_left _ hentry, hid⟩
        · obtain ⟨rfl, rfl⟩ := Prod.mk.inj hnew
          exact ⟨_, List.mem_append_right _ (List.mem_singleton_self _), rfl⟩
      · intro entry hentry
        rcases List.mem_append.mp hentry with hold | hnew
        · exact h.exact entry hold
        · rw [List.mem_singleton.mp hnew]
          exact fun _ hpage => absurd hpage List.not_mem_nil

/-- Dropping a table changes nothing, or marks the database and removes tables. -/
theorem dropTable (h : db.Held entries) (name : String) :
    Database.dropTable name db = .ok .TABLE_NOT_FOUND db ∨
    ∃ db' tid, Database.dropTable name db = .ok .OK db' ∧ db'.isDirty = true ∧
      db'.heap.next = db.heap.next ∧ db'.Held (entries.filter fun entry => entry.2.id ≠ tid) := by
  cases hindex : db.index.get? name with
  | none => exact Or.inl (dropTable_of_none hindex)
  | some tid =>
    obtain ⟨heap, hremove, hkept, _, hnext⟩ := Wired.removeTables_eq tid h.nodup h.heap
    have hsub := List.filter_sublist (p := fun entry : Entry => entry.2.id ≠ tid) (l := entries)
    refine Or.inr ⟨{ db with
      tables := (entries.filter fun entry => entry.2.id ≠ tid).map Prod.fst
      index := db.index.erase name
      tableIndex := db.tableIndex.erase tid
      dirty := true
      heap := heap }, tid, ?_, rfl, hnext, ?_⟩
    · rw [dropTable_of_some hindex, h.tables, bind_of_ok hremove]
      rfl
    · constructor
      · rfl
      · exact h.nodup.sublist (hsub.map Prod.fst)
      · intro entry hentry
        obtain ⟨hold, hne⟩ := List.mem_filter.mp hentry
        exact hkept entry hold (of_decide_eq_true hne)
      · intro other address hget
        rw [FiniteMap.get?_erase] at hget
        split at hget
        · cases hget
        · rename_i hne
          obtain ⟨t, hentry, hid⟩ := h.tableIndex other address hget
          exact ⟨t, List.mem_filter.mpr ⟨hentry, decide_eq_true (hid ▸ hne)⟩, hid⟩
      · intro entry hentry
        exact h.exact entry (hsub.subset hentry)

/-- Compacting the tables from some of them on. -/
theorem compactTables_eq {db : Database} {entries : List Entry}
    (hnodup : (entries.map Prod.fst).Nodup)
    (halive : ∀ entry ∈ entries, db.heap.get? entry.1 = some entry.2) :
    ∃ heap, compactTables (entries.map Prod.fst) db = .ok .OK { db with heap } ∧
      heap.next = db.heap.next ∧
      (∀ entry ∈ entries, heap.get? entry.1 = some entry.2.compact.2) ∧
      ∀ other ∉ entries.map Prod.fst, heap.get? other = db.heap.get? other := by
  induction entries generalizing db with
  | nil => exact ⟨db.heap, rfl, rfl, fun _ h => absurd h List.not_mem_nil, fun _ _ => rfl⟩
  | cons first rest ih =>
    rw [List.map_cons, List.nodup_cons] at hnodup
    rw [List.forall_mem_cons] at halive
    let written := db.heap.put first.1 (Heap.lt_next halive.1) (some first.2.compact.2)
    have hfirst : onTable first.1 (fun t => .ok t.compact.1 t.compact.2) db =
        .ok .OK { db with heap := written } := by
      have hstatus : first.2.compact.1 = .OK := by rw [Table.compact_eq]
      unfold onTable
      rw [Heap.read_eq_ok.mpr halive.1]
      dsimp only
      rw [Heap.write_of_some halive.1, hstatus]
    obtain ⟨heap, hcompact, hnext, hdone, hother⟩ := @ih { db with heap := written } hnodup.2 (by
      intro entry hentry
      rw [Heap.get?_put, if_neg]
      · exact halive.2 entry hentry
      · intro heq
        exact hnodup.1 (heq ▸ List.mem_map_of_mem hentry))
    refine ⟨heap, ?_, hnext, ?_, ?_⟩
    · rw [List.map_cons, compactTables, bind_of_ok hfirst, if_neg (not_not.mpr rfl)]
      exact hcompact
    · rw [List.forall_mem_cons]
      refine ⟨?_, hdone⟩
      rw [hother first.1 hnodup.1, Heap.get?_put, if_pos rfl]
    · intro other hnot
      rw [List.map_cons, List.mem_cons, not_or] at hnot
      rw [hother other hnot.2, Heap.get?_put, if_neg hnot.1]

/-- Compacting a database compacts its tables and clears its mark. -/
theorem compact (h : db.Held entries) :
    ∃ heap, Database.compact db = .ok .OK { db with heap, dirty := false } ∧
      heap.next = db.heap.next ∧ Held { db with heap, dirty := false }
        (entries.map fun entry => (entry.1, entry.2.compact.2)) := by
  obtain ⟨heap, hcompact, hnext, hdone, _⟩ := compactTables_eq h.nodup h.heap
  have hfst : (entries.map fun entry => (entry.1, entry.2.compact.2)).map Prod.fst =
      entries.map Prod.fst := by
    rw [List.map_map]
    rfl
  refine ⟨heap, ?_, hnext, ?_⟩
  · rw [← h.tables] at hcompact
    unfold Database.compact
    rw [get_bind, bind_of_ok hcompact, if_neg (not_not.mpr rfl)]
    rfl
  · constructor
    · rw [hfst]
      exact h.tables
    · rw [hfst]
      exact h.nodup
    · intro entry hentry
      obtain ⟨old, hold, rfl⟩ := List.mem_map.mp hentry
      exact hdone old hold
    · intro tid address hget
      obtain ⟨t, hentry, hid⟩ := h.tableIndex tid address hget
      exact ⟨_, List.mem_map_of_mem hentry, (t.compact_id).trans hid⟩
    · intro entry hentry
      obtain ⟨old, hold, rfl⟩ := List.mem_map.mp hentry
      exact (h.exact old hold).compact

/-- A load that succeeds leaves a database that holds what it decoded. -/
theorem fromJson [InsertPolicy] (h : db.Held entries) {envelope : Json} {db' : Database}
    (hload : Database.fromJson envelope db = .ok .OK db') : ∃ entries', db'.Held entries' := by
  obtain ⟨tables, name, heap, hdecoded, _, rfl, hheap⟩ := eq_reload_of_fromJson h.owned hload
  refine ⟨Heap.allocated db.heap.next tables, rfl, Heap.nodup_allocated _ _, hheap, ?_, ?_⟩
  · intro tid address hget
    rcases FiniteMap.get?_insertAll_eq_some hget with hempty | hmem
    · cases hempty
    · obtain ⟨⟨other, t⟩, hentry, heq⟩ := List.mem_map.mp hmem
      obtain ⟨rfl, rfl⟩ := Prod.mk.inj heq
      exact ⟨t, hentry, rfl⟩
  · intro entry hentry
    have hmem := List.mem_map_of_mem (f := Prod.snd) hentry
    rw [Heap.map_snd_allocated] at hmem
    exact forall_mem_of_mapM (P := Table.ExactPages) hdecoded
      (fun _ _ _ ht => Table.exactPages_of_ofEnvelope? ht) entry.2 hmem

/-- A database that is left intact holds what it held. -/
theorem of_intact (h : db.Held entries) {db' : Database} (hintact : Intact db db') :
    db'.Held entries where
  tables := by
    rw [hintact.fields]
    exact h.tables
  nodup := h.nodup
  heap := fun entry hentry => hintact.heap List.not_mem_nil (h.heap entry hentry)
  tableIndex := by
    rw [hintact.fields]
    exact h.tableIndex
  exact := h.exact

end Held

end Database

/-- A database and what it was when it was last saved, loaded or constructed. -/
structure Session where
  /-- The database. -/
  db : Database
  /-- What it was. -/
  saved : Database

/-- A call on a database that may be kept in a file. -/
inductive SessionCall
  | createTable (name : String) (schema : List ColumnDef)
  | dropTable (name : String)
  | compact
  | save (writeFileAtomic : List UInt8 → Status)
  | load (file : Status × List UInt8)
  | onTable (name : String) (call : RecordCall)

namespace Session

open Database

/-- A new database. -/
def new (name : String) : Session := ⟨Database.new name, Database.new name⟩

/-- The records of the table at an address at the last save or load. -/
def savedRecords (s : Session) (address : Address) : List Record :=
  if address ∈ s.saved.tables then ((s.saved.heap.get? address).map Table.liveRecords).getD []
  else []

/-- The database has a content, is dirty if that is not what was saved or loaded last, and so are
the tables whose records are not. -/
structure Reported (s : Session) : Prop where
  /-- There is a content. -/
  content : ∃ content, s.db.toJson = .ok content
  /-- The database reports changes. -/
  database : s.db.toJson ≠ s.saved.toJson → s.db.isDirty = true
  /-- The tables report changes. -/
  tables : ∀ address ∈ s.db.tables, ∀ t, s.db.heap.get? address = some t →
    t.liveRecords ≠ s.savedRecords address → t.isDirty = true

section Calls

variable [JsonText] [InsertPolicy]

/-- A call that changes the database and no file. -/
def follow (s : Session) (result : Except Fault (DatabaseResponse × Database)) :
    Except Fault (DatabaseResponse × Session) :=
  result.map fun (response, db) => (response, { s with db })

/-- One call. A save or load that succeeds notes the content. -/
def call (s : Session) : SessionCall → Except Fault (DatabaseResponse × Session)
  | .createTable name schema => s.follow (s.db.call (.createTable name schema))
  | .dropTable name => s.follow (s.db.call (.dropTable name))
  | .onTable name call => s.follow (s.db.call (.onTable name call.toTableCall))
  | .compact =>
    match Database.compact s.db with
    | .ok status db => .ok (.status status, { s with db })
    | .error fault _ => .error fault
  | .save writeFileAtomic => do
    let status ← s.db.save writeFileAtomic
    return (.status status, if status = .OK then { s with saved := s.db } else s)
  | .load file =>
    match Database.load file s.db with
    | .ok status db => .ok (.status status, if status = .OK then ⟨db, db⟩ else { s with db })
    | .error fault _ => .error fault

/-- What a call needs for its changes to be reported. Records change below a database that is
marked already, only what has not changed since it was saved is compacted, and a load converts no
number out of range and cannot lose the tables. -/
def Marking (s : Session) : SessionCall → Prop
  | .compact => s.db.toJson = s.saved.toJson ∧ ∀ address ∈ s.db.tables, ∀ t,
    s.db.heap.get? address = some t → t.liveRecords = s.savedRecords address
  | .load file => ∀ envelope, file.1 = .OK → JsonText.parse file.2 = .ok envelope →
    Safe s.db envelope
  | .onTable name call => s.db.isDirty = true ∨ ∀ address t, s.db.getTable name = some address →
    s.db.heap.get? address = some t → ¬t.Changes call
  | _ => True

omit [JsonText] [InsertPolicy] in
/-- A database that holds its tables, among whose addresses are none that will be given out. -/
structure Sound (s : Session) (entries : List Entry) : Prop where
  /-- The database holds its tables. -/
  held : s.db.Held entries
  /-- The saved tables have been allocated. -/
  allocated : ∀ address ∈ s.saved.tables, address < s.db.heap.next

omit [JsonText] [InsertPolicy] in
/-- What is reported, table by table. -/
theorem reported_iff {s : Session} {entries : List Entry} (h : s.db.Held entries) :
    s.Reported ↔ (s.db.toJson ≠ s.saved.toJson → s.db.isDirty = true) ∧
      ∀ entry ∈ entries, entry.2.liveRecords ≠ s.savedRecords entry.1 →
        entry.2.isDirty = true := by
  constructor
  · intro hreported
    refine ⟨hreported.database, fun entry hentry => ?_⟩
    have haddress : entry.1 ∈ s.db.tables := h.tables ▸ List.mem_map_of_mem hentry
    exact hreported.tables entry.1 haddress entry.2 (h.heap entry hentry)
  · rintro ⟨hdatabase, htables⟩
    refine ⟨⟨_, toJson_of_entries h.tables h.heap⟩, hdatabase, fun address haddress t ht => ?_⟩
    exact htables (address, t) (h.mem_of_get? haddress ht)

omit [JsonText] [InsertPolicy] in
/-- Nothing has changed since just now. -/
theorem reported_self {db : Database} {entries : List Entry} (h : db.Held entries) :
    Reported ⟨db, db⟩ := by
  refine (reported_iff h).mpr ⟨fun hchanged => absurd rfl hchanged, ?_⟩
  intro entry hentry hchanged
  have haddress : entry.1 ∈ db.tables := h.tables ▸ List.mem_map_of_mem hentry
  unfold savedRecords at hchanged
  rw [if_pos haddress, h.heap entry hentry] at hchanged
  exact absurd rfl hchanged

namespace Sound

variable {s : Session} {entries : List Entry}

omit [JsonText] [InsertPolicy] in
/-- A change that gives no address back keeps what is sound. -/
theorem follow (h : s.Sound entries) {db' : Database} {entries' : List Entry}
    (hheld : db'.Held entries') (hnext : s.db.Onward db') :
    Sound { s with db := db' } entries' :=
  ⟨hheld, fun address haddress => lt_of_lt_of_le (h.allocated address haddress) hnext⟩

omit [JsonText] [InsertPolicy] in
/-- A new table is not one of the saved ones. -/
theorem savedRecords_next (h : s.Sound entries) : s.savedRecords s.db.heap.next = [] :=
  if_neg fun hmem => absurd (h.allocated _ hmem) (Nat.lt_irrefl _)

omit [JsonText] [InsertPolicy] in
/-- A change is reported by a marked database if each table was there before, shows no change or
is marked. -/
theorem reported (h : s.Sound entries) (hreported : s.Reported) {db' : Database}
    {entries' : List Entry} (hheld : db'.Held entries')
    (hdatabase : db'.toJson ≠ s.saved.toJson → db'.isDirty = true)
    (hentries : ∀ entry ∈ entries', entry ∈ entries ∨
      entry.2.liveRecords = s.savedRecords entry.1 ∨ entry.2.isDirty = true) :
    Reported { s with db := db' } := by
  apply (reported_iff (s := { s with db := db' }) hheld).mpr
  refine ⟨hdatabase, fun entry hentry hchanged => ?_⟩
  rcases hentries entry hentry with hold | hsame | hdirty
  · exact ((reported_iff h.held).mp hreported).2 entry hold hchanged
  · exact absurd hsame hchanged
  · exact hdirty

/-- Creating a table is reported. -/
theorem createTable (h : s.Sound entries) (hreported : s.Reported) (name : String)
    (schema : List ColumnDef) :
    ∃ response s' entries', s.call (.createTable name schema) = .ok (response, s') ∧
      s'.Sound entries' ∧ s'.Reported := by
  refine ⟨.status (s.db.createTable name schema).1,
    { s with db := (s.db.createTable name schema).2 }, ?_⟩
  rcases h.held.createTable name schema with hsame | ⟨hdirty, hnext, hheld⟩
  · exact ⟨entries, rfl, hsame.symm ▸ ⟨h, hreported⟩⟩
  · refine ⟨_, rfl, h.follow hheld ?_, h.reported hreported hheld (fun _ => hdirty) ?_⟩
    · unfold Onward
      rw [hnext]
      exact Nat.le_succ _
    · intro entry hentry
      rcases List.mem_append.mp hentry with hold | hnew
      · exact Or.inl hold
      · rw [List.mem_singleton.mp hnew]
        exact Or.inr (Or.inl h.savedRecords_next.symm)

/-- Dropping a table is reported. -/
theorem dropTable (h : s.Sound entries) (hreported : s.Reported) (name : String) :
    ∃ response s' entries', s.call (.dropTable name) = .ok (response, s') ∧
      s'.Sound entries' ∧ s'.Reported := by
  have hcall : ∀ {status db'}, Database.dropTable name s.db = .ok status db' →
      s.call (.dropTable name) = .ok (.status status, { s with db := db' }) := by
    intro status db' hdrop
    unfold Session.call Session.follow Database.call
    dsimp only
    rw [hdrop]
    rfl
  rcases h.held.dropTable name with hsame | ⟨db', tid, hdrop, hdirty, hnext, hheld⟩
  · exact ⟨_, _, entries, hcall hsame, h, hreported⟩
  · refine ⟨_, _, _, hcall hdrop, h.follow hheld hnext.ge,
      h.reported hreported hheld (fun _ => hdirty) ?_⟩
    intro entry hentry
    exact Or.inl (List.mem_filter.mp hentry).1

/-- Compacting is reported exactly if there was nothing to report. -/
theorem compact (h : s.Sound entries) :
    ∃ response s' entries', s.call .compact = .ok (response, s') ∧ s'.Sound entries' ∧
      (s'.Reported ↔ s.Marking .compact) := by
  obtain ⟨heap, hcompact, hnext, hheld⟩ := h.held.compact
  refine ⟨.status .OK, { s with db := { s.db with heap := heap, dirty := false } }, _, ?_,
    h.follow hheld hnext.ge, ?_⟩
  · unfold Session.call
    dsimp only
    rw [hcompact]
  have hcontent : Database.toJson { s.db with heap := heap, dirty := false } = s.db.toJson := by
    apply (h.held.toJson_congr hheld rfl).mpr
    rw [List.map_map]
    apply List.map_congr_left
    intro entry _
    exact entry.2.toJson_compact
  have hclean : ∀ t : Table, t.compact.2.isDirty = false := by
    intro t
    rw [Table.compact_eq]
    rfl
  rw [reported_iff (s := { s with db := { s.db with heap := heap, dirty := false } }) hheld]
  unfold Marking
  dsimp only
  rw [hcontent, List.forall_mem_map]
  constructor
  · rintro ⟨hdatabase, htables⟩
    refine ⟨?_, fun address haddress t ht => ?_⟩
    · by_contra hchanged
      cases hdatabase hchanged
    · by_contra hchanged
      have hdirty := htables (address, t) (h.held.mem_of_get? haddress ht)
      dsimp only at hdirty
      rw [t.liveRecords_compact, hclean] at hdirty
      cases hdirty hchanged
  · rintro ⟨hsame, hrecords⟩
    refine ⟨fun hchanged => absurd hsame hchanged, fun entry hentry hchanged => ?_⟩
    have haddress : entry.1 ∈ s.db.tables := h.held.tables ▸ List.mem_map_of_mem hentry
    rw [Table.liveRecords_compact] at hchanged
    exact absurd (hrecords entry.1 haddress entry.2 (h.held.heap entry hentry)) hchanged

/-- A changed table is reported if it was marked, or if nothing is lost by leaving it. -/
private theorem reported_replaced_iff (h : s.Sound entries) (hreported : s.Reported)
    {name : String} {call : RecordCall} {address : Address} {t t' : Table}
    (hget : s.db.getTable name = some address) (hentry : (address, t) ∈ entries)
    (hmarks : t.Marks call t') {heap : Heap Table}
    (hheld : Held { s.db with heap } (replaced entries address t')) :
    Reported { s with db := { s.db with heap } } ↔ s.Marking (.onTable name call) := by
  have halive := h.held.heap _ hentry
  have hcontent := h.held.toJson_replaced hentry hheld
  unfold Marking
  dsimp only
  constructor
  · intro hreported'
    by_cases hdirty : s.db.isDirty = true
    · exact Or.inl hdirty
    · refine Or.inr fun other found hother hfound hchanges => ?_
      cases hget.symm.trans hother
      cases halive.symm.trans hfound
      have hsaved : s.db.toJson = s.saved.toJson := by
        by_contra hdiffers
        exact hdirty (hreported.database hdiffers)
      rcases hmarks with ⟨_, ⟨_, hnot⟩ | ⟨_, hiff⟩⟩
      · exact hnot hchanges
      · apply hdirty
        apply hreported'.database
        rw [← hsaved]
        exact mt hcontent.mp (hiff.mp hchanges)
  · intro hmarking
    apply h.reported hreported hheld
    · intro hdiffers
      rcases hmarking with hdirty | hnot
      · exact hdirty
      · have hkept : t'.toJson = t.toJson := by
          rcases hmarks with ⟨_, ⟨rfl, _⟩ | ⟨_, hiff⟩⟩
          · rfl
          · by_contra hchanged
            exact hnot address t hget halive (hiff.mpr hchanged)
        rw [hcontent.mpr hkept] at hdiffers
        exact hreported.database hdiffers
    · intro entry hmem
      rcases mem_replaced hmem with rfl | ⟨hold, _⟩
      · rcases hmarks with ⟨_, ⟨rfl, _⟩ | ⟨hdirty, _⟩⟩
        · exact Or.inl hentry
        · exact Or.inr (Or.inr hdirty)
      · exact Or.inl hold

/-- A call on the records of a table is reported exactly if the database is marked or nothing
changes. -/
theorem onTable (h : s.Sound entries) (hreported : s.Reported) (name : String)
    (call : RecordCall) :
    ∃ response s' entries', s.call (.onTable name call) = .ok (response, s') ∧
      s'.Sound entries' ∧ (s'.Reported ↔ s.Marking (.onTable name call)) := by
  cases hget : s.db.getTable name with
  | none =>
    have hcall : s.call (.onTable name call) = .ok (.noTable, s) := by
      unfold Session.call Session.follow Database.call
      dsimp only
      rw [hget]
      rfl
    refine ⟨_, s, entries, hcall, h, fun _ => Or.inr ?_, fun _ => hreported⟩
    intro _ _ hnone
    rw [hget] at hnone
    cases hnone
  | some address =>
    obtain ⟨t, hentry⟩ := h.held.getTable hget
    obtain ⟨status, t', hcall, hmarks⟩ := (h.held.exact _ hentry).recordCall call
    obtain ⟨heap, hwrite, hnext, hheld⟩ :=
      h.held.replace hentry (Table.grows_call hcall).id hmarks.1
    refine ⟨.table (.status status), { s with db := { s.db with heap } },
      replaced entries address t', ?_, h.follow hheld hnext.ge,
      h.reported_replaced_iff hreported hget hentry hmarks hheld⟩
    unfold Session.call Session.follow Database.call
    dsimp only
    rw [hget]
    dsimp only
    rw [Heap.read_eq_ok.mpr (h.held.heap _ hentry)]
    change Except.map _ (t.call call.toTableCall >>= _) = _
    rw [hcall]
    change Except.map _ (s.db.heap.write address t' >>= _) = _
    rw [hwrite]
    rfl

/-- A database that is saved has nothing to report. -/
theorem save (h : s.Sound entries) (hreported : s.Reported)
    (writeFileAtomic : List UInt8 → Status) :
    ∃ response s', s.call (.save writeFileAtomic) = .ok (response, s') ∧ s'.Sound entries ∧
      s'.Reported := by
  obtain ⟨content, hcontent⟩ := hreported.content
  have hsave : s.db.save writeFileAtomic = .ok (writeFileAtomic (JsonText.dump content)) := by
    unfold Database.save Database.saved
    rw [hcontent]
    rfl
  unfold Session.call
  dsimp only
  rw [hsave]
  refine ⟨_, _, rfl, ?_⟩
  split
  · exact ⟨⟨h.held, h.held.lt_next⟩, reported_self h.held⟩
  · exact ⟨h, hreported⟩

/-- A load that cannot lose the tables returns; it has nothing to report when it succeeds and leaves
everything as it was when it fails. -/
theorem load (h : s.Sound entries) (hreported : s.Reported) {file : Status × List UInt8}
    (hsafe : s.Marking (.load file)) :
    ∃ response s' entries', s.call (.load file) = .ok (response, s') ∧ s'.Sound entries' ∧
      s'.Reported := by
  have hnothing := ((load_allOrNothing_iff h.held.owned).2 file).mpr hsafe
  have hnext := Onward.load file s.db
  rcases load_ends file s.db with ⟨status, db', hload⟩ | ⟨db', hundefined⟩
  · rw [hload] at hnothing hnext
    have hcall : s.call (.load file) = .ok (.status status,
        if status = .OK then ⟨db', db'⟩ else { s with db := db' }) := by
      unfold Session.call
      dsimp only
      rw [hload]
    by_cases hok : status = .OK
    · subst hok
      obtain ⟨envelope, _, _, hdecoded⟩ := parse_of_load hload
      obtain ⟨entries', hheld⟩ := h.held.fromJson hdecoded
      exact ⟨_, _, entries', hcall, ⟨hheld, hheld.lt_next⟩, reported_self hheld⟩
    · rw [if_neg hok] at hcall
      have hintact : Intact s.db db' := hnothing hok
      have hheld := h.held.of_intact hintact
      have hname : db'.name = s.db.name := by rw [hintact.fields]
      have hdirty : db'.isDirty = s.db.isDirty := by
        rw [hintact.fields]
        rfl
      refine ⟨_, _, entries, hcall, h.follow hheld hnext, h.reported hreported hheld ?_ ?_⟩
      · rw [(h.held.toJson_congr hheld hname).mpr rfl, hdirty]
        exact hreported.database
      · exact fun _ hentry => Or.inl hentry
  · rw [hundefined] at hnothing
    exact hnothing.elim

/-- A load that loses the tables is undefined or leaves no content. -/
theorem load_of_not_safe (h : s.Sound entries) {raw : List UInt8} {envelope : Json}
    (hparse : JsonText.parse raw = .ok envelope) (hloses : ¬Safe s.db envelope)
    {response : DatabaseResponse} {s' : Session}
    (hcall : s.call (.load (.OK, raw)) = .ok (response, s')) : ¬s'.Reported := by
  have hload := load_of_parse hparse s.db
  by_cases hrange : InRange (databaseRequirements envelope)
  · unfold Safe at hloses
    rw [and_iff_right hrange, not_or, not_or, not_not] at hloses
    obtain ⟨hnonempty, hunnamed, hdecode⟩ := hloses
    obtain ⟨db', hfrom, hframe, hdead⟩ := fromJson_of_not_named h.held.owned hdecode hunnamed
    rw [catching_of_exception hfrom] at hload
    unfold Session.call at hcall
    dsimp only at hcall
    rw [hload] at hcall
    cases hcall
    rintro ⟨⟨content, hcontent⟩, _⟩
    have htables : db'.tables = s.db.tables := by rw [hframe.fields]
    cases hrow : s.db.tables with
    | nil => exact hnonempty hrow
    | cons address rest =>
      have hread : db'.heap.read address = .error .undefined := by
        unfold Heap.read
        rw [hdead address (hrow ▸ List.mem_cons_self)]
      change db'.toJson = .ok content at hcontent
      unfold Database.toJson at hcontent
      rw [htables, hrow, List.mapM_cons, hread] at hcontent
      cases hcontent
  · obtain ⟨db', hundefined⟩ := (database_undefined_iff h.held.owned envelope).mpr hrange
    unfold catching at hload
    rw [hundefined] at hload
    unfold Session.call at hcall
    dsimp only at hcall
    rw [hload] at hcall
    cases hcall

end Sound

/-- A call that is not a load returns, keeps the session sound and reports what changed exactly if
it was to. -/
theorem Sound.call_of_not_load {s : Session} {entries : List Entry} (h : s.Sound entries)
    (hreported : s.Reported) {call : SessionCall} (hnot : ∀ file, call ≠ .load file) :
    ∃ response s' entries', s.call call = .ok (response, s') ∧ s'.Sound entries' ∧
      (s'.Reported ↔ s.Marking call) := by
  cases call with
  | createTable name schema =>
    obtain ⟨response, s', entries', hcall, hsound, hreported'⟩ :=
      h.createTable hreported name schema
    exact ⟨response, s', entries', hcall, hsound, fun _ => trivial, fun _ => hreported'⟩
  | dropTable name =>
    obtain ⟨response, s', entries', hcall, hsound, hreported'⟩ := h.dropTable hreported name
    exact ⟨response, s', entries', hcall, hsound, fun _ => trivial, fun _ => hreported'⟩
  | compact => exact h.compact
  | save writeFileAtomic =>
    obtain ⟨response, s', hcall, hsound, hreported'⟩ := h.save hreported writeFileAtomic
    exact ⟨response, s', entries, hcall, hsound, fun _ => trivial, fun _ => hreported'⟩
  | load file => exact absurd rfl (hnot file)
  | onTable name call => exact h.onTable hreported name call

/-- A run from a new database completes and every change since the last save or load is reported, in
every state, exactly if records change only below a database that is marked already, only what has
not changed is compacted, and no load converts a number out of range or loses the tables. -/
theorem reported_iff_marking (name : String) (calls : List SessionCall) :
    (∃ responses s, run Session.call (new name) calls = .ok (responses, s)) ∧
      Throughout Session.call Reported (new name) calls ↔
      Along Session.call Marking (new name) calls := by
  refine @completes_throughout_iff_along _ _ _ _ Session.call Marking Reported
    (fun s => ∃ entries, s.Sound entries) ?_ ?_ _ _ ?_ ?_
  · rintro s call ⟨entries, h⟩ hreported hmarking
    by_cases hload : ∃ file, call = .load file
    · obtain ⟨file, rfl⟩ := hload
      obtain ⟨response, s', entries', hcall, hsound, hreported'⟩ := h.load hreported hmarking
      exact ⟨response, s', hcall, ⟨entries', hsound⟩, hreported'⟩
    · obtain ⟨response, s', entries', hcall, hsound, hiff⟩ :=
        h.call_of_not_load hreported (not_exists.mp hload)
      exact ⟨response, s', hcall, ⟨entries', hsound⟩, hiff.mpr hmarking⟩
  · rintro s call response s' ⟨entries, h⟩ hreported hnot hcall
    by_cases hload : ∃ file, call = .load file
    · obtain ⟨⟨status, raw⟩, rfl⟩ := hload
      obtain ⟨envelope, hloses⟩ := not_forall.mp hnot
      rw [Classical.not_imp, Classical.not_imp] at hloses
      obtain ⟨rfl, hparse, hloses⟩ := hloses
      exact h.load_of_not_safe hparse hloses hcall
    · obtain ⟨_, _, _, hcall', _, hiff⟩ := h.call_of_not_load hreported (not_exists.mp hload)
      cases hcall.symm.trans hcall'
      exact mt hiff.mp hnot
  · exact ⟨[], Held.new name, fun _ hmem => absurd hmem List.not_mem_nil⟩
  · exact reported_self (Held.new name)

end Calls

/-- A record that is inserted after the database was saved and compacted is not reported. -/
theorem insertion_not_reported :
    letI : InsertPolicy := ⟨true⟩
    letI := JsonText.ofDocument [] .null
    ¬Throughout Session.call Reported (new "shop") [.createTable "orders" [], .save fun _ => .OK,
      .compact, .onTable "orders" (.insertRecord (Record.new 7 Json.emptyObject))] := by
  let _ : InsertPolicy := ⟨true⟩
  let _ := JsonText.ofDocument [] .null
  intro h
  have hfinal := ((((h.2 _ _ rfl).2 _ _ rfl).2 _ _ rfl).2 _ _ rfl).start
  have hclean : false = true := by
    apply hfinal.database
    intro hsame
    cases hsame
  cases hclean

end Session

end MiniDB.Core
