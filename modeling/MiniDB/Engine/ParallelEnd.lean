import MiniDB.Engine.ParallelLoad

/-!
# When a parallel load is over

The caller of `loadAllTablesParallel` waits for the tasks in the order of the tables. A task that
throws makes it throw, so it leaves the other tasks behind and reports no status.
-/

namespace MiniDB.Engine

open MiniDB.Common MiniDB.Common.FileIO MiniDB.JsonPro MiniDB.Core Memory Posix TaskPool

/-- The file of a table cannot be read, or the table can be imported from its content. -/
def TableLoadable [JsonText] [InsertPolicy] (files : FileSystem) (stem : String) (io : Schedule)
    (t : Table) : Prop :=
  (readFile files (tableFile stem t) io).1 = .OK →
    TableImportable (readFile files (tableFile stem t) io).2 t

/-- The call for a table returns exactly if the table can be loaded. -/
theorem loadTable_returns_iff [JsonText] [InsertPolicy] {stem : String} {io : Address → Schedule}
    {address : Address} {w : World} {t : Table} (ht : w.heap.get? address = some t) :
    (∃ s, (loadTable stem io address w).1 = .ok s) ↔
      TableLoadable w.files stem (io address) t := by
  unfold TableLoadable loadTable
  rw [Heap.read_eq_ok.mpr ht]
  dsimp only
  cases hread : readFile w.files (tableFile stem t) (io address) with
  | mk status raw =>
    dsimp only
    by_cases hstatus : status = .OK
    · subst hstatus
      rw [← importTableFromJson_returns_iff]
      have hparsed : importTableFromFile (.OK, raw) t = importTableFromJson raw t := rfl
      rw [hparsed]
      cases importTableFromJson raw t with
      | error fault t' =>
        dsimp only
        rw [Heap.write_of_some ht]
        constructor
        · rintro ⟨_, h⟩
          cases h
        · intro h
          obtain ⟨_, _, h⟩ := h rfl
          cases h
      | ok s t' =>
        dsimp only
        rw [Heap.write_of_some ht]
        exact ⟨fun _ _ => ⟨s, t', rfl⟩, fun _ => ⟨s, rfl⟩⟩
    · have himport : importTableFromFile (status, raw) t = .ok status t := by
        cases status with
        | OK => contradiction
        | _ => rfl
      rw [himport]
      dsimp only
      rw [Heap.write_of_some ht]
      exact ⟨fun _ h => absurd h hstatus, fun _ => ⟨status, rfl⟩⟩

/-- Whenever `loadAllTablesParallel` gives back control, by returning or by an exception, all its
tasks have ended and it has returned a status, exactly if every table can be loaded or has a file
that cannot be read. -/
theorem loadAllTablesParallel_ends_iff [JsonText] [InsertPolicy] {db : Database}
    (howned : db.Owned) (files : FileSystem) (baseFilename : String) (io : Address → Schedule)
    {pool : TaskPool.Pool} (hthreads : 0 < pool.threads) :
    (∀ moves s, run (loadAllTablesParallel db baseFilename) pool moves
        (start (loadAllTablesParallel db baseFilename) ⟨db.heap, files⟩ (loadStart io)) = some s →
      s.caller.GivenBack →
        (∀ address ∈ db.tables, s.phase address = .done) ∧ ∃ status, s.caller = .returned status) ↔
    ∀ address ∈ db.tables, ∀ t, db.heap.get? address = some t →
      TableLoadable files (baseFilename ++ "_") (io address) t := by
  have hreports := (separate_load db.tables (baseFilename ++ "_") ⟨db.heap, files⟩).reports_iff
    howned.nodup hthreads (loadKept_start howned files (loadStart io))
    (realizes_load db.tables (baseFilename ++ "_") ⟨db.heap, files⟩ io)
  refine hreports.trans ?_
  constructor
  · intro hall address haddress t ht
    exact (@loadTable_returns_iff _ _ _ _ _ ⟨db.heap, files⟩ _ ht).mp (hall address haddress)
  · intro hall address haddress
    obtain ⟨t, ht⟩ := howned.alive address haddress
    exact (@loadTable_returns_iff _ _ _ _ _ ⟨db.heap, files⟩ _ ht).mpr
      (hall address haddress t ht)

/-- A database with two tables. -/
def twoTables [InsertPolicy] : Database :=
  (Database.createTable "b" [] (Database.createTable "a" [] (Database.new "shop")).2).2

/-- Its tables are its own. -/
theorem owned_twoTables [InsertPolicy] : twoTables.Owned where
  nodup := by
    change [0, 1].Nodup
    decide
  alive := by
    intro address haddress
    rcases List.mem_pair.mp haddress with rfl | rfl
    · exact ⟨_, rfl⟩
    · exact ⟨_, rfl⟩

/-- One table has a file with an empty array, the other has none: both can be loaded. -/
theorem loadAllTablesParallel_ends_iff_missing :
    letI : InsertPolicy := ⟨true⟩
    letI := JsonText.ofDocument [0x5B, 0x5D] (.array [])
    (∀ address ∈ twoTables.tables, ∀ t, twoTables.heap.get? address = some t →
      TableLoadable ((FileSystem.empty.openTruncate "db_a.json").2.write 0 0 [0x5B, 0x5D])
        ("db" ++ "_") [] t) ∧
    ∀ moves s, run (loadAllTablesParallel twoTables "db") ⟨2, false⟩ moves
        (start (loadAllTablesParallel twoTables "db")
          ⟨twoTables.heap, (FileSystem.empty.openTruncate "db_a.json").2.write 0 0 [0x5B, 0x5D]⟩
          (loadStart fun _ => [])) = some s →
      s.caller.GivenBack →
        (∀ address ∈ twoTables.tables, s.phase address = .done) ∧
          ∃ status, s.caller = .returned status := by
  let _ : InsertPolicy := ⟨true⟩
  let _ := JsonText.ofDocument [0x5B, 0x5D] (.array [])
  have hends := @loadAllTablesParallel_ends_iff _ _ twoTables owned_twoTables
    ((FileSystem.empty.openTruncate "db_a.json").2.write 0 0 [0x5B, 0x5D]) "db" (fun _ => [])
    ⟨2, false⟩ (by decide)
  refine and_iff_left_of_imp hends.mpr |>.mpr ?_
  intro address haddress t ht hread
  rcases List.mem_pair.mp haddress with rfl | rfl
  · cases ht
    refine ⟨.array [], rfl, fun entries hentries before entry after t' hsplit _ => ?_⟩
    cases hentries
    exact absurd hsplit (by simp)
  · cases ht
    cases hread

/-- The first of two files is not JSON: on a pool with one thread the load throws while the task
of the second table is still in the queue. -/
theorem load_throws_with_task_queued :
    letI : InsertPolicy := ⟨true⟩
    letI := JsonText.ofDocument [0x5B, 0x5D] (.array [])
    ∃ s, run (loadAllTablesParallel twoTables "db") ⟨1, false⟩
        ([.enqueue, .enqueue, .enqueue, .start 0] ++ List.replicate 5 (.work 0) ++
          [.finish 0, .get, .leave])
        (start (loadAllTablesParallel twoTables "db")
          ⟨twoTables.heap, (FileSystem.empty.openTruncate "db_a.json").2.write 0 0 [0x7B]⟩
          (loadStart fun _ => [])) = some s ∧
      s.caller = .threw .exception ∧ s.phase 1 = .queued ∧
      ∀ status, s.caller ≠ .returned status :=
  ⟨_, rfl, rfl, rfl, nofun⟩

end MiniDB.Engine
