import MiniDB.Core.IdHistory
import MiniDB.Core.LoadIntegrity
import MiniDB.Core.TableWiring
import MiniDB.Library.IdCounter

/-!
# Identifiers issued after a load

A load resumes the counters for pages and for tables one above the largest identifier that
the document gives. What is created later gets fresh identifiers until the counter wraps
around behind the largest identifier there is; from then on creations should fail, but they
go on with identifiers from zero.
-/

namespace MiniDB.Core

open MiniDB.Common MiniDB.JsonPro Memory Refinement IdCounter Traversal

namespace Table

/-- What a map of records answers to a call, where an insertion may also fail and change
nothing. -/
def AnswersOrRefuses (schema : List ColumnDef) (m : RecordMap) (call : TableCall)
    (response : TableResponse) (m' : RecordMap) : Prop :=
  MapAnswers schema m call response m' ∨
    ∃ record s, call = .insertRecord record ∧ response = .status s ∧ s ≠ .OK ∧ m' = m

section Runs

variable [InsertPolicy]

/-- What is expected of a run of calls on a loaded table: the records answer as a map does, all
pages have different identifiers, and a call that needs a page fails when no identifier above
those of the loaded pages is left. -/
structure NumbersPages (t₀ : Table) (calls : List TableCall) : Prop where
  /-- Loaded and inserted records are found until they are deleted. -/
  records : ∃ responses t, run Table.call t₀ calls = .ok (responses, t) ∧
    Follows (AnswersOrRefuses t₀.schema) t₀.contents calls responses t.contents
  /-- New pages differ from loaded ones and from each other. -/
  pages : Throughout Table.call (fun t => (t.pages.map Page.id).Nodup ∧
    t₀.pages.map Page.id <+: t.pages.map Page.id) t₀ calls
  /-- A page is refused when no identifier is left. -/
  refused : Along Table.call (fun t call => t.Allocates call →
    Exhausted (t₀.pages.map Page.id) (t.pages.map Page.id) →
      ∃ s t', t.call call = .ok (.status s, t') ∧ s ≠ .OK) t₀ calls

omit [InsertPolicy] in
/-- No call needs a page after the page counter wrapped around. -/
def CounterHolds (t : Table) (call : TableCall) : Prop :=
  t.Allocates call → t.pages = [] ∨ t.nextPageId ≠ 0

omit [InsertPolicy] in
/-- A wired table whose page counter resumed above some identifiers. -/
structure Counted (first : List PageID) (t : Table) : Prop where
  /-- The table is wired. -/
  wired : t.Wired
  /-- The counter counts its pages. -/
  counts : Counts first t.nextPageId (t.pages.map Page.id)
  /-- The first pages are still there. -/
  loaded : first <+: t.pages.map Page.id

namespace Counted

variable {first : List PageID} {t : Table}

omit [InsertPolicy] in
/-- As long as the counter holds, it is above the pages. -/
theorem counting (h : t.Counted first) (hholds : t.pages = [] ∨ t.nextPageId ≠ 0) :
    Counting first t.nextPageId (t.pages.map Page.id) :=
  h.counts.counting (hholds.imp_left fun hempty => by rw [hempty]; rfl)

/-- A call keeps the table counted and answers as the map does as long as the counter holds. -/
theorem call (h : t.Counted first) {call : TableCall} (hholds : t.CounterHolds call) :
    ∃ response t', t.call call = .ok (response, t') ∧ t'.Counted first ∧ t'.schema = t.schema ∧
      MapAnswers t.schema t.contents call response t'.contents := by
  obtain ⟨response, t', hcall, hwired, hanswers, hpages⟩ :=
    h.wired.call call fun hneeds => (h.counting (hholds hneeds)).above.notMem
  refine ⟨response, t', hcall, ?_⟩
  rcases hpages with ⟨_, hkept⟩ | ⟨hneeds, hadded⟩
  · refine ⟨⟨hwired, ?_, ?_⟩, hkept.schema, hanswers⟩
    · rw [hkept.nextPageId, hkept.pageIds]
      exact h.counts
    · rw [hkept.pageIds]
      exact h.loaded
  · refine ⟨⟨hwired, ?_, ?_⟩, hadded.schema, hanswers⟩
    · rw [hadded.nextPageId, hadded.pageIds]
      exact (h.counting (hholds hneeds)).issue
    · rw [hadded.pageIds]
      exact h.loaded.trans (List.prefix_append _ _)

/-- A call that needs a page fails for want of identifiers exactly if the counter holds. -/
theorem refused_iff (h : t.Counted first) (call : TableCall) :
    (t.Allocates call → Exhausted first (t.pages.map Page.id) →
      ∃ s t', t.call call = .ok (.status s, t') ∧ s ≠ .OK) ↔ t.CounterHolds call := by
  constructor
  · intro hrefused hneeds
    by_contra hnot
    rw [not_or, not_not] at hnot
    obtain ⟨hpages, hzero⟩ := hnot
    have hids : t.pages.map Page.id ≠ [] := mt List.map_eq_nil_iff.mp hpages
    obtain ⟨s, t', hcall, hs⟩ := hrefused hneeds (h.counts.exhausted hids hzero)
    cases call with
    | insertRecord record =>
      have hok : (t.insertRecord record).1 = .OK := insertRecord_of_needsPage hneeds
      unfold Table.call at hcall
      cases hcall
      exact hs hok
    | _ => exact hneeds
  · intro hholds hneeds hexhausted
    exact absurd hexhausted
      ((h.counting (hholds hneeds)).above.not_exhausted h.loaded.subset)

/-- A run numbers its pages as expected exactly if no call needs a page after the page counter
wrapped around. -/
theorem numbersPages_iff {t₀ : Table} (h : t₀.Counted (t₀.pages.map Page.id))
    (calls : List TableCall) : t₀.NumbersPages calls ↔ Along Table.call CounterHolds t₀ calls := by
  have hstep : ∀ {t call response t'}, Counted (t₀.pages.map Page.id) t → t.CounterHolds call →
      t.call call = .ok (response, t') → Counted (t₀.pages.map Page.id) t' := by
    intro t call response t' hcounted hholds hcall
    obtain ⟨_, t₁, hcall₁, hcounted', _⟩ := hcounted.call hholds
    rw [hcall] at hcall₁
    cases hcall₁
    exact hcounted'
  have hcongr := @along_congr _ _ _ _ Table.call CounterHolds (Counted (t₀.pages.map Page.id))
    _ hstep (fun hcounted => hcounted.refused_iff _) _ calls h
  constructor
  · intro hnumbers
    exact hcongr.mp hnumbers.refused
  · intro halong
    let simulation : Simulation Table.call (MapAnswers t₀.schema) CounterHolds :=
      { Related := fun t m => Counted (t₀.pages.map Page.id) t ∧ t.schema = t₀.schema ∧
          m = t.contents
        step_follows := by
          rintro t m call ⟨hcounted, hschema, rfl⟩ hholds
          obtain ⟨response, t', hcall, hcounted', hschema', hanswers⟩ := hcounted.call hholds
          exact ⟨response, t', _, hcall, hschema ▸ hanswers, hcounted', hschema'.trans hschema,
            rfl⟩ }
    obtain ⟨responses, t, m, hrun, hfollows, _, _, rfl⟩ :=
      simulation.run_follows ⟨h, rfl, rfl⟩ halong
    refine ⟨⟨responses, t, hrun, ?_⟩, ?_, hcongr.mpr halong⟩
    · exact Follows.imp (fun hanswers => Or.inl hanswers) hfollows
    · exact (halong.throughout hstep h).imp fun hcounted =>
        ⟨hcounted.wired.mapped.pageIds, hcounted.loaded⟩

end Counted

/-- A table decoded from distinct pages and records is counted. -/
theorem counted_of_ofEnvelope? {envelope : Json} {t : Table}
    (h : ofEnvelope? envelope = some t) (hpages : (t.pages.map Page.id).Nodup)
    (hrecords : (t.liveRecords.map Record.id).Nodup) : t.Counted (t.pages.map Page.id) := by
  have hexact := exactPages_of_ofEnvelope? h
  unfold ofEnvelope? at h
  split at h
  · obtain ⟨id, _, h⟩ := Option.bind_eq_some_iff.mp h
    obtain ⟨schema, _, h⟩ := Option.bind_eq_some_iff.mp h
    obtain ⟨pages, _, rfl⟩ := Option.map_eq_some_iff.mp h
    exact ⟨⟨hexact, rebuildIndex_mapped hpages hrecords⟩, counts_resume Page.id pages,
      List.prefix_refl _⟩
  · cases h

end Runs

end Table

/-- A call that may change which table a name leads to. -/
def DatabaseCall.Renames (name : String) : DatabaseCall → Prop
  | .createTable created _ => created = name
  | .dropTable dropped => dropped = name
  | .onTable _ _ => False

namespace Database

/-- Whether a call will create a table. -/
def CreatesTable (db : Database) : DatabaseCall → Prop
  | .createTable name _ => db.tables.length < DBConstants.MAX_TABLES ∧ db.hasTable name = false
  | _ => False

/-- A database and the identifiers of all tables that it has had. -/
structure Tracked where
  /-- The database. -/
  db : Database
  /-- The identifiers, in the order in which they were issued. -/
  issued : List TableID

/-- The identifiers of the tables that a call put behind the others. -/
def added (db db' : Database) : List TableID :=
  ((db'.tables.drop db.tables.length).filterMap db'.heap.get?).map Table.getID

/-- The start of a run, with the tables that were loaded. -/
def tracked (db : Database) : Tracked := ⟨db, db.livingTables.map Table.getID⟩

/-- No table is created after the table counter wrapped around. -/
def CounterHolds (s : Tracked) (call : DatabaseCall) : Prop :=
  s.db.CreatesTable call → s.issued = [] ∨ s.db.nextTableId ≠ 0

section Runs

variable [InsertPolicy]

/-- One call, which notes the identifiers of new tables. -/
def trackedCall (s : Tracked) (call : DatabaseCall) :
    Except Fault (DatabaseResponse × Tracked) := do
  let (response, db') ← s.db.call call
  return (response, ⟨db', s.issued ++ added s.db db'⟩)

/-- What is expected of a run of calls on a loaded database: no identifier is issued twice, names
lead to their own tables and stay so until the name is dropped, and a creation fails when no
identifier above those of the loaded tables is left. -/
structure NumbersTables (db₀ : Database) (calls : List DatabaseCall) : Prop where
  /-- The run completes. -/
  completes : ∃ responses s, run trackedCall db₀.tracked calls = .ok (responses, s)
  /-- New tables differ from loaded ones and from each other, and each is found by its name. -/
  tables : Throughout trackedCall (fun s => s.issued.Nodup ∧ ∀ address ∈ s.db.tables,
    ∃ t, s.db.heap.get? address = some t ∧ s.db.getTable t.getName = some address)
      db₀.tracked calls
  /-- A call leaves the tables under other names alone. -/
  names : Along trackedCall (fun s call => ∀ response s',
    trackedCall s call = .ok (response, s') → ∀ name, ¬call.Renames name →
      s'.db.getTable name = s.db.getTable name) db₀.tracked calls
  /-- A table is refused when no identifier is left. -/
  refused : Along trackedCall (fun s call => s.db.CreatesTable call →
    Exhausted db₀.tracked.issued s.issued →
      ∃ status s', trackedCall s call = .ok (.status status, s') ∧ status ≠ .OK)
        db₀.tracked calls

omit [InsertPolicy] in
/-- A wired database whose table counter resumed above some identifiers. -/
structure Counted (first : List TableID) (s : Tracked) (entries : List Entry) : Prop where
  /-- The database is wired. -/
  wired : s.db.Wired entries
  /-- The counter counts the issued identifiers. -/
  counts : Counts first s.db.nextTableId s.issued
  /-- The identifiers of the tables have been issued. -/
  held : ∀ entry ∈ entries, entry.2.id ∈ s.issued
  /-- No identifier was issued twice. -/
  nodup : s.issued.Nodup
  /-- The first identifiers count as issued. -/
  loaded : first ⊆ s.issued

omit [InsertPolicy] in
/-- What names lead to, in terms of the tables. -/
theorem Wired.getTable_eq_some {db : Database} {entries : List Entry} (h : db.Wired entries)
    {name : String} {address : Address} :
    db.getTable name = some address ↔ ∃ t, (address, t) ∈ entries ∧ t.name = name := by
  constructor
  · intro hget
    rcases @Wired.getTable _ _ h name with ⟨hnone, _⟩ | ⟨⟨found, t⟩, hentry, hname, hsome⟩
    · rw [hnone] at hget
      cases hget
    · rw [hsome] at hget
      cases hget
      exact ⟨t, hentry, hname⟩
  · rintro ⟨t, hentry, rfl⟩
    exact h.getTable_of_mem hentry

omit [InsertPolicy] in
/-- A name leads to the same table if the tables under it are the same. -/
theorem Wired.getTable_congr {db db' : Database} {entries entries' : List Entry}
    (h : db.Wired entries) (h' : db'.Wired entries') {name : String}
    (hsame : ∀ address, (∃ t, (address, t) ∈ entries' ∧ t.name = name) ↔
      ∃ t, (address, t) ∈ entries ∧ t.name = name) : db'.getTable name = db.getTable name := by
  apply Option.ext
  intro address
  rw [h.getTable_eq_some, h'.getTable_eq_some, hsame]

omit [InsertPolicy] in
/-- A call that does not lengthen the row of tables adds none. -/
theorem added_of_length_le {db db' : Database} (h : db'.tables.length ≤ db.tables.length) :
    added db db' = [] := by
  unfold added
  rw [List.drop_of_length_le h]
  rfl

/-- What a tracked call does, in terms of the call. -/
theorem trackedCall_of_ok {s : Tracked} {call : DatabaseCall} {response : DatabaseResponse}
    {db' : Database} (h : s.db.call call = .ok (response, db')) :
    trackedCall s call = .ok (response, ⟨db', s.issued ++ added s.db db'⟩) := by
  unfold trackedCall
  rw [h]
  rfl

/-- A call that leaves the database as it is adds no table. -/
theorem trackedCall_of_same {s : Tracked} {call : DatabaseCall} {response : DatabaseResponse}
    (h : s.db.call call = .ok (response, s.db)) : trackedCall s call = .ok (response, s) := by
  rw [trackedCall_of_ok h, added_of_length_le (Nat.le_refl _), List.append_nil]

/-- A call that creates a table succeeds, whatever the identifier of the table. -/
theorem call_of_createsTable {db : Database} {name : String} {schema : List ColumnDef}
    (h : db.CreatesTable (.createTable name schema)) :
    ∃ db', db.call (.createTable name schema) = .ok (.status .OK, db') := by
  obtain ⟨hlength, hname⟩ := h
  refine ⟨(db.createTable name schema).2, ?_⟩
  unfold Database.call Database.createTable
  dsimp only
  rw [if_neg (Nat.not_le.mpr hlength), hname, if_neg Bool.false_ne_true]

namespace Counted

variable {first : List TableID} {s : Tracked} {entries : List Entry}

/-- Creating a table keeps the database counted as long as the counter holds. -/
private theorem createTable (h : Counted first s entries) (name : String)
    (schema : List ColumnDef) (hholds : CounterHolds s (.createTable name schema)) :
    ∃ response s' entries', trackedCall s (.createTable name schema) = .ok (response, s') ∧
      Counted first s' entries' ∧ ∀ other, name ≠ other →
        s'.db.getTable other = s.db.getTable other := by
  have hcount : s.db.tables.length = entries.length := by rw [h.wired.tables, List.length_map]
  have hfails : ∀ {status}, s.db.createTable name schema = (status, s.db) →
      trackedCall s (.createTable name schema) = .ok (.status status, s) := by
    intro status hfail
    apply trackedCall_of_same
    unfold Database.call
    dsimp only
    rw [hfail]
  rcases h.wired.createTable name schema with ⟨_, hfail⟩ | ⟨_, _, hfail⟩ |
    ⟨hlength, hother, db', hcreate, htables, hheap, hcounter, hwired⟩
  · exact ⟨_, s, entries, hfails hfail, h, fun _ _ => rfl⟩
  · exact ⟨_, s, entries, hfails hfail, h, fun _ _ => rfl⟩
  · have hcreates : s.db.CreatesTable (.createTable name schema) := by
      refine ⟨hcount ▸ hlength, Bool.eq_false_iff.mpr fun hhas => ?_⟩
      obtain ⟨entry, hentry, heq⟩ := h.wired.exists_of_hasTable hhas
      exact hother entry hentry heq
    have hcounting := h.counts.counting (hholds hcreates)
    have hnew : s.db.nextTableId ∉ s.issued := hcounting.above.notMem
    have hwired' := hwired fun entry hentry heq => hnew (heq ▸ h.held entry hentry)
    have hadded : added s.db db' = [s.db.nextTableId] := by
      unfold added
      rw [htables, List.drop_left, hheap, List.filterMap_cons_some (Heap.get?_alloc_self _ _)]
      rfl
    have hcall : s.db.call (.createTable name schema) = .ok (.status .OK, db') := by
      unfold Database.call
      dsimp only
      rw [hcreate]
    refine ⟨_, _, _, trackedCall_of_ok hcall, ⟨hwired', ?_, ?_, ?_, ?_⟩, ?_⟩
    · dsimp only
      rw [hadded, hcounter]
      exact hcounting.issue
    · dsimp only
      rw [hadded, List.forall_mem_append, List.forall_mem_singleton]
      exact ⟨fun entry hentry => List.mem_append_left _ (h.held entry hentry),
        List.mem_append_right _ (List.mem_singleton_self _)⟩
    · dsimp only
      rw [hadded, List.nodup_append]
      refine ⟨h.nodup, List.nodup_singleton _, ?_⟩
      rintro old hold new hmem rfl
      exact hnew (List.mem_singleton.mp hmem ▸ hold)
    · exact List.Subset.trans h.loaded (List.subset_append_left _ _)
    · intro other hne
      apply h.wired.getTable_congr hwired'
      intro address
      constructor
      · rintro ⟨t, hmem, hname⟩
        rcases List.mem_append.mp hmem with hold | hlast
        · exact ⟨t, hold, hname⟩
        · cases List.mem_singleton.mp hlast
          exact absurd hname hne
      · rintro ⟨t, hmem, hname⟩
        exact ⟨t, List.mem_append_left _ hmem, hname⟩

/-- Dropping a table keeps the database counted. -/
private theorem dropTable (h : Counted first s entries) (name : String) :
    ∃ response s' entries', trackedCall s (.dropTable name) = .ok (response, s') ∧
      Counted first s' entries' ∧ ∀ other, name ≠ other →
        s'.db.getTable other = s.db.getTable other := by
  rcases h.wired.dropTable name with ⟨hdrop, _⟩ | ⟨db', hdrop, hwired, hcounter, _⟩
  · have hcall : s.db.call (.dropTable name) = .ok (.status .TABLE_NOT_FOUND, s.db) := by
      unfold Database.call
      dsimp only
      rw [hdrop]
    exact ⟨_, s, entries, trackedCall_of_same hcall, h, fun _ _ => rfl⟩
  · have hcall : s.db.call (.dropTable name) = .ok (.status .OK, db') := by
      unfold Database.call
      dsimp only
      rw [hdrop]
    have hadded : added s.db db' = [] := by
      apply added_of_length_le
      rw [hwired.tables, h.wired.tables, List.length_map, List.length_map]
      exact List.length_filter_le _ _
    refine ⟨_, _, _, trackedCall_of_ok hcall, ⟨hwired, ?_, ?_, ?_, ?_⟩, ?_⟩
    · dsimp only
      rw [hadded, List.append_nil, hcounter]
      exact h.counts
    · intro entry hentry
      exact List.mem_append_left _ (h.held entry (List.mem_filter.mp hentry).1)
    · dsimp only
      rw [hadded, List.append_nil]
      exact h.nodup
    · exact List.Subset.trans h.loaded (List.subset_append_left _ _)
    · intro other hne
      apply h.wired.getTable_congr hwired
      intro address
      constructor
      · rintro ⟨t, hmem, hname⟩
        exact ⟨t, (List.mem_filter.mp hmem).1, hname⟩
      · rintro ⟨t, hmem, hname⟩
        refine ⟨t, List.mem_filter.mpr ⟨hmem, ?_⟩, hname⟩
        simpa [hname] using Ne.symm hne

/-- A call on a table keeps the database counted. -/
private theorem onTable (h : Counted first s entries) (name : String) (call : TableCall) :
    ∃ response s' entries', trackedCall s (.onTable name call) = .ok (response, s') ∧
      Counted first s' entries' ∧ ∀ other, s'.db.getTable other = s.db.getTable other := by
  rcases @Wired.getTable _ _ h.wired name with ⟨hget, _⟩ | ⟨entry, hentry, _, hget⟩
  · have hcall : s.db.call (.onTable name call) = .ok (.noTable, s.db) := by
      unfold Database.call
      dsimp only
      rw [hget]
    exact ⟨_, s, entries, trackedCall_of_same hcall, h, fun _ => rfl⟩
  · obtain ⟨response, t', htable⟩ := Table.call_total entry.2 call
    have hgrows := Table.grows_call htable
    obtain ⟨heap, hwrite, hwired⟩ := h.wired.write hentry hgrows
    have hcall : s.db.call (.onTable name call) =
        .ok (.table response, { s.db with heap := heap }) := by
      unfold Database.call
      dsimp only
      rw [hget]
      dsimp only
      rw [Heap.read_eq_ok.mpr (h.wired.heap hentry)]
      change (entry.2.call call >>= _) = _
      rw [htable]
      change (s.db.heap.write entry.1 t' >>= _) = _
      rw [hwrite]
      rfl
    have hadded : added s.db { s.db with heap := heap } = [] :=
      added_of_length_le (Nat.le_refl _)
    refine ⟨_, _, _, trackedCall_of_ok hcall, ⟨hwired, ?_, ?_, ?_, ?_⟩, fun _ => rfl⟩
    · dsimp only
      rw [hadded, List.append_nil]
      exact h.counts
    · intro other hmem
      apply List.mem_append_left
      rcases mem_replaced hmem with rfl | ⟨hold, _⟩
      · change t'.id ∈ s.issued
        rw [hgrows.id]
        exact h.held entry hentry
      · exact h.held other hold
    · dsimp only
      rw [hadded, List.append_nil]
      exact h.nodup
    · exact List.Subset.trans h.loaded (List.subset_append_left _ _)

/-- A call keeps the database counted as long as the counter holds. -/
theorem call (h : Counted first s entries) {call : DatabaseCall} (hholds : CounterHolds s call) :
    ∃ response s' entries', trackedCall s call = .ok (response, s') ∧
      Counted first s' entries' ∧ ∀ name, ¬call.Renames name →
        s'.db.getTable name = s.db.getTable name := by
  cases call with
  | createTable name schema => exact h.createTable name schema hholds
  | dropTable name => exact h.dropTable name
  | onTable name call =>
    obtain ⟨response, s', entries', hcall, hcounted, hsame⟩ := h.onTable name call
    exact ⟨response, s', entries', hcall, hcounted, fun other _ => hsame other⟩

/-- A call that creates a table fails for want of identifiers exactly if the counter holds. -/
theorem refused_iff (h : Counted first s entries) (call : DatabaseCall) :
    (s.db.CreatesTable call → Exhausted first s.issued →
      ∃ status s', trackedCall s call = .ok (.status status, s') ∧ status ≠ .OK) ↔
        CounterHolds s call := by
  constructor
  · intro hrefused hcreates
    by_contra hnot
    rw [not_or, not_not] at hnot
    obtain ⟨hissued, hzero⟩ := hnot
    obtain ⟨status, s', hcall, hstatus⟩ := hrefused hcreates (h.counts.exhausted hissued hzero)
    cases call with
    | createTable name schema =>
      obtain ⟨db', hok⟩ := call_of_createsTable hcreates
      rw [trackedCall_of_ok hok] at hcall
      cases hcall
      exact hstatus rfl
    | _ => exact hcreates
  · intro hholds hcreates hexhausted
    exact absurd hexhausted
      ((h.counts.counting (hholds hcreates)).above.not_exhausted h.loaded)

omit [InsertPolicy] in
/-- In a counted database every table is found under its name. -/
theorem found (h : Counted first s entries) : ∀ address ∈ s.db.tables,
    ∃ t, s.db.heap.get? address = some t ∧ s.db.getTable t.getName = some address := by
  intro address haddress
  rw [h.wired.tables] at haddress
  obtain ⟨entry, hentry, rfl⟩ := List.mem_map.mp haddress
  exact ⟨entry.2, h.wired.heap hentry, h.wired.getTable_of_mem hentry⟩

/-- A run numbers its tables as expected exactly if no table is created after the table counter
wrapped around. -/
theorem numbersTables_iff {db₀ : Database}
    (h : Counted db₀.tracked.issued db₀.tracked entries) (calls : List DatabaseCall) :
    db₀.NumbersTables calls ↔ Along trackedCall CounterHolds db₀.tracked calls := by
  let Inv : Tracked → Prop := fun s => ∃ entries, Counted db₀.tracked.issued s entries
  have hstep : ∀ {s call}, Inv s → CounterHolds s call →
      ∃ response s', trackedCall s call = .ok (response, s') ∧ Inv s' := by
    rintro s call ⟨entries, hcounted⟩ hholds
    obtain ⟨response, s', entries', hcall, hcounted', _⟩ := hcounted.call hholds
    exact ⟨response, s', hcall, entries', hcounted'⟩
  have hkeeps : ∀ {s call response s'}, Inv s → CounterHolds s call →
      trackedCall s call = .ok (response, s') → Inv s' := by
    intro s call response s' hinv hholds hcall
    obtain ⟨_, _, hcall', hinv'⟩ := hstep hinv hholds
    rw [hcall] at hcall'
    cases hcall'
    exact hinv'
  have hstart : Inv db₀.tracked := ⟨entries, h⟩
  have hrefused : ∀ {s call}, Inv s → ((s.db.CreatesTable call →
      Exhausted db₀.tracked.issued s.issued → ∃ status s',
        trackedCall s call = .ok (.status status, s') ∧ status ≠ .OK) ↔ CounterHolds s call) := by
    rintro s call ⟨_, hcounted⟩
    exact hcounted.refused_iff call
  constructor
  · intro hnumbers
    exact (along_congr hkeeps hrefused hstart).mp hnumbers.refused
  · intro halong
    refine ⟨?_, ?_, ?_, (along_congr hkeeps hrefused hstart).mpr halong⟩
    · obtain ⟨responses, s, hrun, _⟩ := halong.run_invariant hstep hstart
      exact ⟨responses, s, hrun⟩
    · apply (halong.throughout hkeeps hstart).imp
      rintro s ⟨entries, hcounted⟩
      exact ⟨hcounted.nodup, hcounted.found⟩
    · apply halong.imp hkeeps _ hstart
      rintro s call ⟨entries, hcounted⟩ hholds response s' hcall
      obtain ⟨_, s₁, _, hcall₁, _, hsame⟩ := hcounted.call hholds
      rw [hcall] at hcall₁
      cases hcall₁
      exact hsame

end Counted

/-- A reload of tables with distinct names and identifiers leaves a counted database. -/
theorem counted_of_fromJson {db db' : Database} (howned : db.Owned) {envelope : Json}
    (h : fromJson envelope db = .ok .OK db')
    (hnames : ((itemsOf "tables" envelope).map tableNameOf?).Nodup)
    (hids : ((itemsOf "tables" envelope).map tableIdOf?).Nodup) :
    ∃ entries, Counted db'.tracked.issued db'.tracked entries := by
  obtain ⟨tables, name, heap, htables, hlength, rfl, hheap⟩ := eq_reload_of_fromJson howned h
  have hissued : (reload name db.heap.next tables heap).tracked.issued = tables.map Table.id :=
    congrArg (List.map Table.getID) (livingTables_of_allocated hheap)
  obtain ⟨hnames', hids'⟩ := nodup_of_items htables hnames hids
  refine ⟨_, reload_wired hheap hnames' hids' hlength, ?_, ?_, ?_, List.Subset.refl _⟩
  · rw [hissued]
    exact counts_resume Table.id tables
  · rw [hissued, ← map_allocated Table.id db.heap.next tables]
    intro entry hentry
    exact List.mem_map_of_mem hentry
  · rw [hissued]
    exact hids'

end Runs

end Database

variable [InsertPolicy]

/-- In every run on a table loaded from distinct pages and records, and in every run on a database
loaded from distinct tables, identifiers are issued as expected exactly if nothing is created after
the counter wrapped around. -/
theorem issued_after_load_iff :
    (∀ (tableJson : Json) (name : String) (id : TableID) (schema : List ColumnDef) (t : Table),
      Table.fromJson tableJson (Table.new name id schema) = .ok .OK t →
      ((itemsOf "page" tableJson).map pageIdOf?).Nodup → (liveIdsOf tableJson).Nodup →
      ∀ calls : List TableCall,
        t.NumbersPages calls ↔ Along Table.call Table.CounterHolds t calls) ∧
    (∀ (envelope : Json) (db db' : Database), db.Owned →
      Database.fromJson envelope db = .ok .OK db' →
      ((itemsOf "tables" envelope).map tableNameOf?).Nodup →
      ((itemsOf "tables" envelope).map tableIdOf?).Nodup →
      ∀ calls : List DatabaseCall, db'.NumbersTables calls ↔
        Along Database.trackedCall Database.CounterHolds db'.tracked calls) := by
  constructor
  · intro tableJson name id schema t hload hpages hrecords calls
    have hdecoded : Table.ofEnvelope? tableJson = some t := Table.fromJson_eq_ok.mp hload
    have hresolved := Table.resolved_of_items hdecoded hpages hrecords
    exact (Table.counted_of_ofEnvelope? hdecoded hresolved.pageIds hresolved.recordIds)
      |>.numbersPages_iff calls
  · intro envelope db db' howned hload hnames hids calls
    obtain ⟨entries, hcounted⟩ := Database.counted_of_fromJson howned hload hnames hids
    exact hcounted.numbersTables_iff calls

/-- A table document with one page and no columns. -/
def onePageTable (page : ℤ) : Json :=
  .object [("__table_id___", .ofInt 0), ("__name__", .string "orders"), ("schema", .array []),
    ("page", .array [.object [("__page_id__", .ofInt page), ("records", .array [])]])]

omit [InsertPolicy] in
/-- After a load of page 5 and of tables 0 and 7, pages and tables are numbered as expected. -/
theorem issued_after_load_small :
    letI : InsertPolicy := ⟨true⟩
    (∃ t, Table.fromJson (onePageTable 5) (Table.new "" 0 []) = .ok .OK t ∧
      t.NumbersPages [.insertRecord (Record.new 7 Json.emptyObject)]) ∧
    ∃ db, Database.fromJson (Database.bareDocument [("orders", 0), ("items", 7)])
        (Database.new "shop") = .ok .OK db ∧ db.NumbersTables [.createTable "users" []] := by
  let _ : InsertPolicy := ⟨true⟩
  constructor
  · have hload : Table.fromJson (onePageTable 5) (Table.new "" 0 []) =
        .ok .OK (Table.loaded "orders" 0 [] [Page.new 5]) := Table.fromJson_eq_ok.mpr rfl
    refine ⟨_, hload, (issued_after_load_iff.1 _ _ _ _ _ hload ?_ ?_ _).mpr ?_⟩
    · decide
    · decide
    · exact ⟨fun _ => Or.inr (by decide), fun _ _ _ => trivial⟩
  · obtain ⟨heap, hload, _⟩ := @Database.fromJson_eq_reload _ (Database.new "shop")
      (Database.Consistent.new "shop").owned (Database.bareDocument [("orders", 0), ("items", 7)])
      _ [Table.loaded "orders" 0 [] [], Table.loaded "items" 7 [] []] "shop" rfl (by decide) rfl rfl
    refine ⟨_, hload, (issued_after_load_iff.2 _ _ _ (Database.Consistent.new "shop").owned
      hload ?_ ?_ _).mpr ?_⟩
    · decide
    · decide
    · exact ⟨fun _ => Or.inr (by decide : (8 : UInt32) ≠ 0), fun _ _ _ => trivial⟩

omit [InsertPolicy] in
/-- After a load of tables 0 and `2 ^ 32 - 1` the next table is created with identifier 0. -/
theorem not_numbersTables_largest :
    letI : InsertPolicy := ⟨true⟩
    let envelope := Database.bareDocument [("orders", 0), ("items", 4294967295)]
    ((itemsOf "tables" envelope).map tableNameOf?).Nodup ∧
      ((itemsOf "tables" envelope).map tableIdOf?).Nodup ∧
      ∃ db, Database.fromJson envelope (Database.new "shop") = .ok .OK db ∧
        ¬db.NumbersTables [.createTable "users" []] := by
  let _ : InsertPolicy := ⟨true⟩
  refine ⟨by decide, by decide, ?_⟩
  obtain ⟨heap, hload, hheap⟩ := @Database.fromJson_eq_reload _ (Database.new "shop")
    (Database.Consistent.new "shop").owned
    (Database.bareDocument [("orders", 0), ("items", 4294967295)]) _
    [Table.loaded "orders" 0 [] [], Table.loaded "items" 4294967295 [] []] "shop" rfl (by decide)
    rfl rfl
  refine ⟨_, hload, fun hnumbers => ?_⟩
  obtain ⟨entries, hcounted⟩ := Database.counted_of_fromJson (Database.Consistent.new "shop").owned
    hload (by decide) (by decide)
  have hroom : 2 < DBConstants.MAX_TABLES := by decide
  have hcounter : Database.counterAbove
    [Table.loaded "orders" 0 [] [], Table.loaded "items" 4294967295 [] []] = 0 := by decide
  rcases ((hcounted.numbersTables_iff _).mp hnumbers).1 ⟨hroom, rfl⟩ with hempty | hzero
  · have hissued := congrArg (List.map Table.getID) (Database.livingTables_of_allocated hheap)
    cases hempty.symm.trans hissued
  · exact hzero hcounter

end MiniDB.Core
