import MiniDB.Engine.LosslessExport
import MiniDB.Engine.ParallelBatches

/-!
# Saving and loading in parallel

`saveAllTablesParallel` writes one file for every table and `loadAllTablesParallel` reads them
into the tables of another database that have the same names. Whatever the two schedules are and
whatever fails on the way: if both report `OK`, the data is the same.
-/

namespace MiniDB.Common.FileIO

open Posix

/-- A call that returns `OK` has installed its content. -/
theorem read_of_writeFileFully_ok {fs : FileSystem} {path : String} {content : List UInt8}
    {io : Schedule} (h : (writeFileFully fs path content io).2 = .ok .OK) :
    (writeFileFully fs path content io).1.read path = some content := by
  have hstart : Achieved fs path content (fs, WriteStage.opening).1 (fs, WriteStage.opening).2 :=
    fun _ _ => rfl
  have hresult := writeResult_fully fs path content io
  rw [h] at hresult
  have hdone := hstart.steps (io ++ List.replicate (content.length + 5) .full)
  unfold writeFileAtomic at hresult
  have hstage : (writeSteps path content (io ++ List.replicate (content.length + 5) .full)
      (fs, .opening)).2 = .returned .OK := by
    generalize (writeSteps path content (io ++ List.replicate (content.length + 5) .full)
      (fs, .opening)).2 = stage at hresult
    cases stage with
    | returned s =>
      cases hresult
      rfl
    | _ => cases hresult
  rw [hstage] at hdone
  exact hdone.1

end MiniDB.Common.FileIO

namespace MiniDB.Engine

open MiniDB.Common MiniDB.Common.FileIO MiniDB.JsonPro MiniDB.Core Memory Posix TaskPool

section RoundTrip

variable [JsonText]

/-- A parallel save that reports `OK` has written the file of every table, whatever the schedule
was and whatever failed on the way. -/
theorem files_of_saved {db : Database} (howned : db.Owned) (hnames : NamesDistinct db)
    {stem : String} {files : FileSystem} {io : Address → Schedule} {pool : TaskPool.Pool}
    {moves : List (Move Address)} {s : State Address World ExportTask Fault Status}
    (hrun : run (exportTasks db.tables stem) pool moves
      (start (exportTasks db.tables stem) ⟨db.heap, files⟩ (exportStart io)) = some s)
    (hreturned : s.caller = .returned .OK) {address : Address} (haddress : address ∈ db.tables)
    {t : Table} (ht : db.heap.get? address = some t) :
    ∃ content, exportTableToJson t = .ok content ∧
      s.shared.files.read (tableFile stem t) = some content := by
  have hseparate := @separate_export _ db.tables stem ⟨db.heap, files⟩
    (filesApart howned hnames stem)
  have hkept : ExportKept db.tables stem ⟨db.heap, files⟩ (⟨db.heap, files⟩, exportStart io) :=
    ⟨rfl, fun _ _ => rfl, fun _ _ => trivial⟩
  have hcalls := realizes_export db.tables stem ⟨db.heap, files⟩ io
  obtain ⟨⟨statuses, hstatuses, hfinal⟩, hviews⟩ :=
    hseparate.calls_of_returned howned.nodup hkept hcalls hrun hreturned
  obtain ⟨status, hmem, hstatus⟩ := exists_value hstatuses haddress
  rw [foldl_lastNotOk_eq_ok_iff.mp hfinal status hmem] at hstatus
  obtain ⟨tasks', hview⟩ := hviews address haddress
  have htarget := congrArg (fun v => v.2.target) hview
  dsimp only [siteOf] at htarget
  have hfile : fileAt stem db.heap address = tableFile stem t := by
    unfold fileAt
    rw [ht]
  rw [hfile] at htarget
  unfold exportTable at hstatus htarget
  rw [Heap.read_eq_ok.mpr ht] at hstatus htarget
  dsimp only at hstatus htarget
  cases hcontent : exportTableToJson t with
  | error fault =>
    rw [hcontent] at hstatus
    cases hstatus
  | ok content =>
    rw [hcontent] at hstatus htarget
    exact ⟨content, rfl, htarget.trans (read_of_writeFileFully_ok hstatus)⟩

variable [InsertPolicy]

/-- What a load makes of a table whose file imports: the table with the entries, or an I/O error
and the table as it was. -/
theorem loadTable_of_file {stem : String} {io : Address → Schedule} {address : Address}
    {w : World} {t t' : Table} {content : List UInt8} (ht : w.heap.get? address = some t)
    (hfile : w.files.read (tableFile stem t) = some content)
    (himport : importTableFromJson content t = .ok .OK t') :
    (∃ s, (loadTable stem io address w).1 = .ok s) ∧
      ((loadTable stem io address w).1 = .ok .OK →
        (loadTable stem io address w).2.heap.get? address = some t') ∧
      ((io address).Unfailing → (loadTable stem io address w).1 = .ok .OK) := by
  unfold loadTable
  rw [Heap.read_eq_ok.mpr ht]
  dsimp only
  rcases readFile_of_read hfile (io address) with hread | hread
  · rw [hread]
    unfold importTableFromFile
    dsimp only
    rw [himport]
    dsimp only
    rw [Heap.write_of_some ht]
    exact ⟨⟨_, rfl⟩, fun _ => if_pos rfl, fun _ => rfl⟩
  · have hfailed : importTableFromFile (.IO_ERROR, []) t = .ok .IO_ERROR t := rfl
    rw [hread, hfailed]
    dsimp only
    rw [Heap.write_of_some ht]
    refine ⟨⟨_, rfl⟩, fun h => (by cases h), fun hio => ?_⟩
    rw [readFile_of_unfailing hfile hio] at hread
    cases hread

/-- Two databases have tables of the same names and schemas; those of the second are empty. -/
structure Mirrored (db copy : Database) : Prop where
  /-- Every table has a counterpart. -/
  tables : ∀ address ∈ db.tables, ∀ t, db.heap.get? address = some t →
    ∃ other ∈ copy.tables, ∃ empty, copy.heap.get? other = some empty ∧ empty.name = t.name
  /-- Every counterpart is empty. -/
  empties : ∀ other ∈ copy.tables, ∀ empty, copy.heap.get? other = some empty →
    empty.Consistent ∧ empty.liveRecords = [] ∧ ∃ address ∈ db.tables, ∃ t,
      db.heap.get? address = some t ∧ t.name = empty.name ∧ t.schema = empty.schema

/-- A parallel load whose tables' files all import ends. It reports `OK` if nothing fails, and if
it reports `OK` every table holds what its file imports to. -/
theorem loads_files {copy : Database} (howned : copy.Owned) {stem : String} {files : FileSystem}
    {pool : TaskPool.Pool} (hthreads : 0 < pool.threads) (io : Address → Schedule)
    {imported : Address → Table}
    (himport : ∀ address ∈ copy.tables, ∃ t content, copy.heap.get? address = some t ∧
      files.read (tableFile stem t) = some content ∧
      importTableFromJson content t = .ok .OK (imported address)) :
    EndsIn (loadTasks copy.tables stem) pool ⟨copy.heap, files⟩ (loadStart io) fun s =>
      ((∀ address ∈ copy.tables, (io address).Unfailing) → s.caller = .returned .OK) ∧
      (s.caller = .returned .OK → ∀ address ∈ copy.tables,
        s.shared.heap.get? address = some (imported address)) := by
  have hseparate := separate_load copy.tables stem ⟨copy.heap, files⟩
  have hkept := loadKept_start howned files (loadStart io)
  have hcalls := realizes_load copy.tables stem ⟨copy.heap, files⟩ io
  have hload : ∀ address ∈ copy.tables,
      (∃ s, (loadTable stem io address ⟨copy.heap, files⟩).1 = .ok s) ∧
      ((loadTable stem io address ⟨copy.heap, files⟩).1 = .ok .OK →
        (loadTable stem io address ⟨copy.heap, files⟩).2.heap.get? address =
          some (imported address)) ∧
      ((io address).Unfailing → (loadTable stem io address ⟨copy.heap, files⟩).1 = .ok .OK) := by
    intro address haddress
    obtain ⟨t, content, ht, hfile, hok⟩ := himport address haddress
    exact loadTable_of_file ht hfile hok
  refine hseparate.endsIn howned.nodup hthreads hkept hcalls fun moves s hrun hback => ?_
  refine ⟨fun hio => ?_, fun hreturned address haddress => ?_⟩
  · obtain ⟨_, combined, hreturned⟩ := (hseparate.reports_iff howned.nodup hthreads hkept
      hcalls).mpr (fun address haddress => (hload address haddress).1) moves s hrun hback
    obtain ⟨⟨statuses, hstatuses, hfinal⟩, _⟩ :=
      hseparate.calls_of_returned howned.nodup hkept hcalls hrun hreturned
    have hok : ∀ status ∈ statuses, status = .OK := by
      intro status hstatus
      obtain ⟨i, hi, rfl⟩ := List.mem_iff_getElem.mp hstatus
      have hi' : i < (loadTasks copy.tables stem).order.length := by
        rw [hstatuses.length_eq]
        exact hi
      have hcall := (List.forall₂_iff_get.mp hstatuses).2 i hi' hi
      have hmem : copy.tables[i] ∈ copy.tables := List.getElem_mem hi'
      exact (Except.ok.inj (((hload _ hmem).2.2 (hio _ hmem)).symm.trans hcall)).symm
    rw [hreturned, ← hfinal]
    exact congrArg _ (foldl_lastNotOk_eq_ok_iff.mpr hok)
  · obtain ⟨⟨statuses, hstatuses, hfinal⟩, hviews⟩ :=
      hseparate.calls_of_returned howned.nodup hkept hcalls hrun hreturned
    obtain ⟨status, hmem, hstatus⟩ := exists_value hstatuses haddress
    rw [foldl_lastNotOk_eq_ok_iff.mp hfinal status hmem] at hstatus
    obtain ⟨tasks', hview⟩ := hviews address haddress
    have hcell := congrArg Prod.snd hview
    exact hcell.trans ((hload address haddress).2.1 hstatus)

/-- A database made by creating and dropping tables and by calls on them, of records without a
member of their own under the key `id`, is saved in parallel and loaded in parallel into empty
tables of the same names and schemas. If the save reports `OK`, whatever failed on the way, then
the load always ends; with nothing failing it reports `OK`, and if it reports `OK` every table has
come back with the data of every record. -/
theorem parallel_round_trip {db copy : Database} (hdb : DatabaseMadeByChanges db)
    (hkept : ∀ address ∈ db.tables, ∀ t, db.heap.get? address = some t →
      ∀ r ∈ t.liveRecords, r.data.contains "id" = false)
    (htext : ∀ address ∈ db.tables, ∀ t, db.heap.get? address = some t → ∀ entries,
      exportRecords (t.getPages.flatMap Page.records) = .ok entries →
        JsonText.parse (JsonText.dump (.array entries)) = .ok (.array entries))
    (hcopy : copy.Owned) (hmirrored : Mirrored db copy) {baseFilename : String}
    {files : FileSystem} {io : Address → Schedule} {pool : TaskPool.Pool}
    {moves : List (Move Address)} {s : State Address World ExportTask Fault Status}
    (hrun : run (saveAllTablesParallel db baseFilename) pool moves
      (start (saveAllTablesParallel db baseFilename) ⟨db.heap, files⟩ (exportStart io)) = some s)
    (hreturned : s.caller = .returned .OK) {pool' : TaskPool.Pool} (hthreads : 0 < pool'.threads)
    (io' : Address → Schedule) :
    EndsIn (loadAllTablesParallel copy baseFilename) pool' ⟨copy.heap, s.shared.files⟩
      (loadStart io') fun s' =>
        ((∀ address ∈ copy.tables, (io' address).Unfailing) → s'.caller = .returned .OK) ∧
        (s'.caller = .returned .OK → ∀ address ∈ db.tables, ∀ t,
          db.heap.get? address = some t → ∃ other ∈ copy.tables, ∃ empty t',
            copy.heap.get? other = some empty ∧ empty.name = t.name ∧
            s'.shared.heap.get? other = some t' ∧ t'.contents = t.contents) := by
  obtain ⟨entries, hlinked, hexportable⟩ := hdb.exportable
  have hlisted : ∀ address ∈ db.tables, ∀ t, db.heap.get? address = some t →
      (address, t) ∈ entries := by
    intro address haddress t ht
    rw [hlinked.tables] at haddress
    obtain ⟨entry, hentry, rfl⟩ := List.mem_map.mp haddress
    rw [hlinked.heap hentry] at ht
    cases ht
    exact hentry
  have howned : db.Owned := hlinked.owned
  have hnames : NamesDistinct db := by
    intro address haddress other hother t t' ht ht' hname
    exact congrArg Prod.fst (List.inj_on_of_nodup_map hlinked.names
      (hlisted address haddress t ht) (hlisted other hother t' ht') hname)
  -- every table of the copy imports the file of its counterpart
  have himport : ∀ other ∈ copy.tables, ∀ empty, copy.heap.get? other = some empty →
      ∃ content t', s.shared.files.read (tableFile (baseFilename ++ "_") empty) = some content ∧
        importTableFromJson content empty = .ok .OK t' ∧
        ∀ address ∈ db.tables, ∀ t, db.heap.get? address = some t → t.name = empty.name →
          t'.contents = t.contents := by
    intro other hother empty hempty
    obtain ⟨hconsistent, hnone, address, haddress, t, ht, hname, hschema⟩ :=
      hmirrored.empties other hother empty hempty
    obtain ⟨content, hcontent, hfile⟩ := files_of_saved howned hnames hrun hreturned haddress ht
    have hexport := hexportable _ (hlisted address haddress t ht)
    obtain ⟨text, t', hdump, himported, hcontents⟩ :=
      (hexport.restored_iff hconsistent hnone hschema.symm (htext address haddress t ht)).mpr
        (hkept address haddress t ht)
    rw [hcontent] at hdump
    cases hdump
    have hpath : tableFile (baseFilename ++ "_") empty = tableFile (baseFilename ++ "_") t := by
      unfold tableFile Table.getName
      rw [hname]
    refine ⟨content, t', hpath ▸ hfile, himported, fun address' haddress' t₂ ht₂ hname₂ => ?_⟩
    have hsame := hnames address haddress address' haddress' t t₂ ht ht₂ (hname.trans hname₂.symm)
    subst hsame
    rw [ht] at ht₂
    cases ht₂
    exact hcontents
  choose! content imported himported using himport
  have hloads := @loads_files _ _ copy hcopy (baseFilename ++ "_") s.shared.files pool' hthreads
    io' (fun other => ((copy.heap.get? other).map (imported other)).getD (.new "" 0 []))
    (by
      intro other hother
      obtain ⟨empty, hempty⟩ := hcopy.alive other hother
      obtain ⟨hfile, hok, _⟩ := himported other hother empty hempty
      refine ⟨empty, content other empty, hempty, hfile, ?_⟩
      rw [hempty]
      exact hok)
  refine ⟨hloads.1, fun moves' s' hrun' => ⟨(hloads.2 moves' s' hrun').1, fun hback => ?_⟩⟩
  obtain ⟨hunfailing, hrestored⟩ := (hloads.2 moves' s' hrun').2 hback
  refine ⟨hunfailing, fun hok address haddress t ht => ?_⟩
  obtain ⟨other, hother, empty, hempty, hname⟩ := hmirrored.tables address haddress t ht
  obtain ⟨_, _, hcontents⟩ := himported other hother empty hempty
  have hcell := hrestored hok other hother
  rw [hempty] at hcell
  exact ⟨other, hother, empty, imported other empty, hempty, hname, hcell,
    hcontents address haddress t ht hname.symm⟩

end RoundTrip

/-- A pen. -/
def pen : Record := .new 7 (.object [("item", .string "pen")])

/-- One task is put on the pool, works until it has written its file, and is waited for. -/
def singleSave : List (Move Address) :=
  [.enqueue, .enqueue, .start 0] ++ List.replicate 6 (.work 0) ++ [.finish 0, .get, .get]

/-- A database with one record is saved in parallel and loaded into another one. -/
theorem parallel_round_trip_pen :
    letI : InsertPolicy := ⟨true⟩
    letI := arrayAndObject [.object [("item", .string "pen"), ("id", .ofInt 7)]] []
    ∃ db copy s,
      Refinement.run Database.directoryCall (Database.new "shop")
        [.createTable "orders" [], .through 0 (.insertRecord pen)] =
          .ok ([.status .OK, .table (.status .OK)], db) ∧
      (Database.new "copy").createTable "orders" [] = (.OK, copy) ∧
      run (saveAllTablesParallel db "db") ⟨1, true⟩ singleSave
        (start (saveAllTablesParallel db "db") ⟨db.heap, .empty⟩ (exportStart fun _ => [])) =
          some s ∧
      EndsIn (loadAllTablesParallel copy "db") ⟨1, true⟩ ⟨copy.heap, s.shared.files⟩
        (loadStart fun _ => []) fun s' =>
          s'.caller = .returned .OK ∧ ∃ t t', db.heap.get? 0 = some t ∧
            s'.shared.heap.get? 0 = some t' ∧ t'.contents = t.contents := by
  let _ : InsertPolicy := ⟨true⟩
  let _ := arrayAndObject [.object [("item", .string "pen"), ("id", .ofInt 7)]] []
  have hheld : Refinement.Along Database.directoryCall Database.PointerHeld (Database.new "shop")
      [.createTable "orders" [], .through 0 (.insertRecord pen)] := by
    refine ⟨trivial, fun _ db h => ?_⟩
    obtain rfl := congrArg Prod.snd (Except.ok.inj h)
    exact ⟨List.mem_singleton_self 0, fun _ _ _ => trivial⟩
  have hplain : Plain (.insertRecord pen) := ⟨by decide, rfl⟩
  have hmade : ∀ db, Refinement.run Database.directoryCall (Database.new "shop")
      [.createTable "orders" [], .through 0 (.insertRecord pen)] =
        .ok ([.status .OK, .table (.status .OK)], db) → DatabaseMadeByChanges db :=
    fun db hrun => ⟨"shop", _, _, by simpa using hplain, hheld, hrun, by decide⟩
  obtain ⟨db, t, hrun, htables, hheap, hname, hschema, hlive, copy, hcreate, hcopies, hempty,
      s, hsave, hreturned⟩ : ∃ db t,
      Refinement.run Database.directoryCall (Database.new "shop")
        [.createTable "orders" [], .through 0 (.insertRecord pen)] =
          .ok ([.status .OK, .table (.status .OK)], db) ∧ db.tables = [0] ∧
      db.heap.get? 0 = some t ∧ t.name = "orders" ∧ t.schema = [] ∧ t.liveRecords = [pen] ∧
      ∃ copy, (Database.new "copy").createTable "orders" [] = (.OK, copy) ∧ copy.tables = [0] ∧
      copy.heap.get? 0 = some (Table.new "orders" 0 []) ∧
      ∃ s, run (saveAllTablesParallel db "db") ⟨1, true⟩ singleSave
        (start (saveAllTablesParallel db "db") ⟨db.heap, .empty⟩ (exportStart fun _ => [])) =
          some s ∧ s.caller = .returned .OK :=
    ⟨_, _, rfl, rfl, rfl, rfl, rfl, rfl, _, rfl, rfl, rfl, _, rfl, rfl⟩
  have hmem : ∀ {address : Address}, address ∈ db.tables → address = 0 := by
    intro address haddress
    rw [htables] at haddress
    exact List.mem_singleton.mp haddress
  have hcopyMem : ∀ {other : Address}, other ∈ copy.tables → other = 0 := by
    intro other hother
    rw [hcopies] at hother
    exact List.mem_singleton.mp hother
  have hcopy : copy.Owned := by
    refine ⟨hcopies ▸ List.nodup_singleton _, fun other hother => ?_⟩
    rw [hcopyMem hother]
    exact ⟨_, hempty⟩
  have hentries : exportRecords (t.getPages.flatMap Page.records) =
      .ok [.object [("item", .string "pen"), ("id", .ofInt 7)]] := by
    have hid : toInt32 (7 : UInt64).toNat = 7 := by decide
    have hentry : exportEntry pen = .ok (.object [("item", .string "pen"),
        ("id", .ofInt (toInt32 (7 : UInt64).toNat))]) := rfl
    rw [exportRecords_pages, hlive, List.mapM_cons, hentry, hid]
    rfl
  have hmirrored : Mirrored db copy := by
    refine ⟨fun address haddress t' ht' => ?_, fun other hother empty hother' => ?_⟩
    · rw [hmem haddress, hheap] at ht'
      cases ht'
      exact ⟨0, hcopies ▸ List.mem_singleton_self 0, _, hempty, hname.symm⟩
    · rw [hcopyMem hother, hempty] at hother'
      cases hother'
      exact ⟨Table.Consistent.new _ _ _, rfl, 0, htables ▸ List.mem_singleton_self 0, t, hheap,
        hname, hschema⟩
  refine ⟨db, copy, s, hrun, hcreate, hsave, ?_⟩
  have hends := parallel_round_trip (hmade db hrun)
    (by
      intro address haddress t' ht' r hr
      rw [hmem haddress, hheap] at ht'
      cases ht'
      rw [hlive, List.mem_singleton] at hr
      rw [hr]
      rfl)
    (by
      intro address haddress t' ht' entries h
      rw [hmem haddress, hheap] at ht'
      cases ht'
      rw [hentries] at h
      cases h
      rfl)
    hcopy hmirrored hsave hreturned (show 0 < (⟨1, true⟩ : TaskPool.Pool).threads by decide)
    fun _ => []
  refine ⟨hends.1, fun moves s' hload => ⟨(hends.2 moves s' hload).1, fun hback => ?_⟩⟩
  obtain ⟨hunfailing, hrestored⟩ := (hends.2 moves s' hload).2 hback
  have hok := hunfailing fun _ _ => Schedule.unfailing_nil
  obtain ⟨other, hother, _, t', _, _, ht', hcontents⟩ :=
    hrestored hok 0 (htables ▸ List.mem_singleton_self 0) t hheap
  rw [hcopyMem hother] at ht'
  exact ⟨hok, t, t', hheap, ht', hcontents⟩

end MiniDB.Engine
