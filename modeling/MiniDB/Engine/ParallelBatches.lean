import MiniDB.Core.LoadIntegrity
import MiniDB.Engine.ParallelEnd
import MiniDB.Engine.ParallelExport

/-!
# Parallel batches and sequential loops

A batch does what the loop over the tables does that makes one call after the other: loading
always, saving and exporting if no two tables have the same name. Tables of one name share a
file and the file beside it, so one task can rename the file that the other is writing.
-/

namespace MiniDB.Engine

open MiniDB.Common MiniDB.Common.FileIO MiniDB.JsonPro MiniDB.Core Memory Posix TaskPool

/-- The last status that is not `OK`; `OK` if there is none. -/
def lastFailure (statuses : List Status) : Status :=
  ((statuses.filter fun s => s ≠ .OK).getLast?).getD .OK

/-- Folding statuses finds the last that is not `OK`. -/
theorem foldl_lastNotOk (statuses : List Status) :
    statuses.foldl lastNotOk .OK = lastFailure statuses := by
  induction statuses using List.reverseRecOn with
  | nil => rfl
  | append_singleton statuses s ih =>
    rw [List.foldl_append, ih]
    unfold lastFailure
    rw [List.filter_append]
    dsimp only [List.foldl, lastNotOk]
    by_cases hs : s = .OK
    · subst hs
      rw [if_neg (by decide), List.filter_cons_of_neg (by decide), List.filter_nil,
        List.append_nil]
    · rw [if_pos hs, List.filter_cons_of_pos (by simpa using hs), List.filter_nil,
        List.getLast?_append]
      rfl

/-- The same tables and the same files. -/
def World.Same (w w' : World) : Prop :=
  w.heap = w'.heap ∧ ∀ path, w.files.read path = w'.files.read path

/-- The same table at an address and the same file at a path. -/
def World.SameAt (address : Address) (path : String) (w w' : World) : Prop :=
  w.heap.get? address = w'.heap.get? address ∧ w.files.read path = w'.files.read path

/-- A batch over the tables of a database always ends; where the loop returns a status it returns
the same, which is the last of the tables' statuses that is not `OK`, and leaves the same tables
and files. Each table's status, table and file are those of its call alone. -/
def DoesAsLoop {τ : Type} (db : Database) (stem : String) (b : Batch Address World τ Fault Status)
    (tasks : Address → τ) (call : Address → World → Except Fault Status × World) : Prop :=
  ∀ (files : FileSystem) (pool : TaskPool.Pool) (finalStatus : Status) (after : World),
    0 < pool.threads →
    loop lastNotOk call db.tables .OK ⟨db.heap, files⟩ = (.ok finalStatus, after) →
    EndsIn b pool ⟨db.heap, files⟩ tasks fun s =>
      s.caller = .returned finalStatus ∧
      (∃ statuses, List.Forall₂ (fun address status =>
        (call address ⟨db.heap, files⟩).1 = .ok status) db.tables statuses ∧
          finalStatus = lastFailure statuses) ∧
      s.shared.Same after ∧
      ∀ address ∈ db.tables,
        b.result (s.tasks address) = some (call address ⟨db.heap, files⟩).1 ∧
        s.shared.SameAt address (fileAt stem db.heap address) (call address ⟨db.heap, files⟩).2

section Batches

variable [JsonText]

/-- `loadAllTablesParallel` does what the loop over `importTableFromFile` does. -/
def LoadsAsLoop [InsertPolicy] (db : Database) : Prop :=
  ∀ baseFilename io, DoesAsLoop db (baseFilename ++ "_") (loadAllTablesParallel db baseFilename)
    (loadStart io) (loadTable (baseFilename ++ "_") io)

/-- `saveAllTablesParallel` does what the loop over `exportTableToFile` does. -/
def SavesAsLoop (db : Database) : Prop :=
  ∀ baseFilename io, DoesAsLoop db (baseFilename ++ "_") (saveAllTablesParallel db baseFilename)
    (exportStart io) (exportTable (baseFilename ++ "_") io)

/-- `exportAllTablesParallel` does what the loop over `exportTableToFile` does. -/
def ExportsAsLoop (db : Database) : Prop :=
  ∀ outputDirectory io, DoesAsLoop db (outputDirectory ++ "/")
    (exportAllTablesParallel db outputDirectory) (exportStart io)
    (exportTable (outputDirectory ++ "/") io)

/-- No two tables have the same name. -/
def NamesDistinct (db : Database) : Prop :=
  ∀ address ∈ db.tables, ∀ other ∈ db.tables, ∀ t t', db.heap.get? address = some t →
    db.heap.get? other = some t' → t.getName = t'.getName → address = other

/-- Loading a table does not change files. -/
theorem loadTable_files [InsertPolicy] (stem : String) (io : Address → Schedule)
    (address : Address) (w : World) : (loadTable stem io address w).2.files = w.files := by
  unfold loadTable
  split
  · rfl
  · split
    · split
      · rfl
      · rfl
    · split
      · rfl
      · rfl

/-- Exporting a table does not change tables. -/
theorem exportTable_heap (stem : String) (io : Address → Schedule) (address : Address)
    (w : World) : (exportTable stem io address w).2.heap = w.heap := by
  unfold exportTable
  split
  · rfl
  · split
    · rfl
    · rfl

/-- Loading in parallel is loading one table after the other. -/
theorem loadsAsLoop [InsertPolicy] {db : Database} (howned : db.Owned) : LoadsAsLoop db := by
  intro baseFilename io files pool finalStatus after hthreads hloop
  have hseparate := separate_load db.tables (baseFilename ++ "_") ⟨db.heap, files⟩
  have hkept := loadKept_start howned files (loadStart io)
  have hcalls := realizes_load db.tables (baseFilename ++ "_") ⟨db.heap, files⟩ io
  refine hseparate.endsIn howned.nodup hthreads hkept hcalls fun moves s hrun hback => ?_
  obtain ⟨hreturned, ⟨statuses, hstatuses, hfinal⟩, ⟨tasks', hinv, hinv', hviews⟩, hcall⟩ :=
    hseparate.eq_loop howned.nodup hkept hcalls hloop hrun hback
  refine ⟨hreturned, ⟨statuses, hstatuses, ?_⟩, ⟨?_, fun path => ?_⟩, fun address haddress => ?_⟩
  · rw [← hfinal]
    exact foldl_lastNotOk statuses
  · apply Heap.eq_of_fields
    · intro address
      by_cases haddress : address ∈ db.tables
      · exact congrArg Prod.snd (hviews address haddress)
      · exact (hinv.outside address haddress).trans (hinv'.outside address haddress).symm
    · exact hinv.next.trans hinv'.next.symm
  · rw [hinv.files, hinv'.files]
  · obtain ⟨hresult, tasks'', hview⟩ := hcall address haddress
    refine ⟨hresult, congrArg Prod.snd hview, ?_⟩
    rw [hinv.files, loadTable_files]

omit [JsonText] in
/-- Tables with different names have files of their own. -/
theorem filesApart {db : Database} (howned : db.Owned) (hnames : NamesDistinct db)
    (stem : String) : FilesApart db.tables stem db.heap where
  files := by
    intro address haddress other hother hne hfile
    obtain ⟨t, ht⟩ := howned.alive address haddress
    obtain ⟨t', ht'⟩ := howned.alive other hother
    unfold fileAt at hfile
    rw [ht, ht'] at hfile
    exact hne (hnames address haddress other hother t t' ht ht' (tableFile_injective hfile))
  tmps := by
    intro address _ other hother
    obtain ⟨t', ht'⟩ := howned.alive other hother
    conv_rhs => unfold fileAt
    rw [ht']
    exact tmpOf_ne_tableFile _ stem t'

/-- Exporting tables with different names in parallel is exporting one after the other. -/
theorem exportsAsLoop_of_distinct {db : Database} (howned : db.Owned)
    (hnames : NamesDistinct db) (stem : String) (io : Address → Schedule) :
    DoesAsLoop db stem (exportTasks db.tables stem) (exportStart io) (exportTable stem io) := by
  intro files pool finalStatus after hthreads hloop
  have hseparate := @separate_export _ db.tables stem ⟨db.heap, files⟩
    (filesApart howned hnames stem)
  have hkept : ExportKept db.tables stem ⟨db.heap, files⟩ (⟨db.heap, files⟩, exportStart io) :=
    ⟨rfl, fun _ _ => rfl, fun _ _ => trivial⟩
  have hcalls := realizes_export db.tables stem ⟨db.heap, files⟩ io
  refine hseparate.endsIn howned.nodup hthreads hkept hcalls fun moves s hrun hback => ?_
  obtain ⟨hreturned, ⟨statuses, hstatuses, hfinal⟩, ⟨tasks', hinv, hinv', hviews⟩, hcall⟩ :=
    hseparate.eq_loop howned.nodup hkept hcalls hloop hrun hback
  refine ⟨hreturned, ⟨statuses, hstatuses, ?_⟩, ⟨hinv.heap.trans hinv'.heap.symm, fun path => ?_⟩,
    fun address haddress => ?_⟩
  · rw [← hfinal]
    exact foldl_lastNotOk statuses
  · by_cases hpath : ∀ address ∈ db.tables, path ≠ fileAt stem db.heap address ∧
        path ≠ tmpOf (fileAt stem db.heap address)
    · exact (hinv.outside path hpath).trans (hinv'.outside path hpath).symm
    · push Not at hpath
      obtain ⟨address, haddress, hown⟩ := hpath
      have hsite := congrArg Prod.snd (hviews address haddress)
      dsimp only at hsite
      by_cases htarget : path = fileAt stem db.heap address
      · rw [htarget]
        exact congrArg Site.target hsite
      · rw [hown htarget]
        exact congrArg Site.tmp hsite
  · obtain ⟨hresult, tasks'', hview⟩ := hcall address haddress
    refine ⟨hresult, ?_, congrArg Site.target (congrArg Prod.snd hview)⟩
    rw [hinv.heap, exportTable_heap]

section Collision

omit [JsonText] in
/-- With nothing failing the calls up to the renaming bring a task there. -/
private theorem exists_replacing (path : String) (content : List UInt8) (fs : FileSystem) :
    ∃ turns, (writeSteps path content (List.replicate turns .full) (fs, .opening)).2 =
      .replacing := by
  cases content with
  | nil => exact ⟨3, rfl⟩
  | cons byte bytes =>
    have hwritten : ∀ fs fd, (writeStep path (byte :: bytes) .full fs
        (.writing fd 0 (byte :: bytes))).2 = .writing fd (0 + (byte :: bytes).length) [] := by
      intro fs fd
      change WriteStage.writing fd _ ((byte :: bytes).drop (byte :: bytes).length) = _
      rw [List.drop_length]
    refine ⟨4, ?_⟩
    change (writeSteps path (byte :: bytes) (List.replicate 2 .full)
      (writeStep path (byte :: bytes) .full (fs.openTruncate (tmpOf path)).2
        (.writing (fs.openTruncate (tmpOf path)).1 0 (byte :: bytes)))).2 = _
    have hstage := hwritten (fs.openTruncate (tmpOf path)).2 (fs.openTruncate (tmpOf path)).1
    generalize writeStep path (byte :: bytes) .full (fs.openTruncate (tmpOf path)).2
      (.writing (fs.openTruncate (tmpOf path)).1 0 (byte :: bytes)) = s at hstage ⊢
    obtain ⟨fs', stage⟩ := s
    dsimp only at hstage
    subst hstage
    rfl

/-- A task whose export does not fail can be brought to the renaming. -/
private theorem reaches_replacing {stem : String} {address : Address} {w : World} {t : Table}
    (ht : w.heap.get? address = some t) {content : List UInt8}
    (hcontent : exportTableToJson t = .ok content) :
    ∃ fs, Interleaving.Reaches (fun p : World × ExportTask => exportStep stem address p.1 p.2)
      (w, ([], .dumping)) (⟨w.heap, fs⟩, ([], .writing (tableFile stem t) content .replacing)) := by
  obtain ⟨turns, hturns⟩ := exists_replacing (tableFile stem t) content w.files
  obtain ⟨io', hempty, hreaches⟩ := @reaches_writeSteps _ stem address w.heap (tableFile stem t)
    content [] _ turns rfl w.files .opening
  rw [hempty rfl, List.nil_append, hturns] at hreaches
  refine ⟨(writeSteps (tableFile stem t) content (List.replicate turns .full)
    (w.files, .opening)).1, Interleaving.Reaches.next ?_⟩
  have hfirst : exportStep stem address w ([], .dumping) = (w, ([], dump stem w.heap address)) :=
    rfl
  dsimp only
  rw [hfirst]
  unfold dump
  rw [Heap.read_eq_ok.mpr ht]
  dsimp only
  rw [hcontent]
  exact hreaches

/-- A renaming leaves nothing beside the target. -/
private theorem reaches_renamed (stem : String) (address : Address) (heap : Heap Table)
    (fs : FileSystem) (path : String) (content : List UInt8) :
    ∃ fs' task, fs'.directory.get? (tmpOf path) = none ∧
      Interleaving.Reaches (fun p : World × ExportTask => exportStep stem address p.1 p.2)
        (⟨heap, fs⟩, ([], .writing path content .replacing)) (⟨heap, fs'⟩, task) := by
  refine ⟨(writeStep path content .full fs .replacing).1, _, ?_, Interleaving.Reaches.next
    (.refl _ _)⟩
  cases hfile : fs.directory.get? (tmpOf path) with
  | none =>
    rw [writeStep_replacing_of_none (FileSystem.rename_of_none hfile)]
    exact hfile
  | some file =>
    obtain ⟨fs', hrename, _, _, hdirectory⟩ := @FileSystem.rename_of_some fs _ path _ hfile
    rw [writeStep_replacing_of_some hrename, hdirectory, FiniteMap.get?_put,
      if_neg (tmpOf_ne path), FiniteMap.get?_erase, if_pos rfl]

/-- A renaming with nothing beside the target fails. -/
private theorem reaches_failed (stem : String) (address : Address) (heap : Heap Table)
    {fs : FileSystem} {path : String} (htmp : fs.directory.get? (tmpOf path) = none)
    (content : List UInt8) :
    Interleaving.Reaches (fun p : World × ExportTask => exportStep stem address p.1 p.2)
      (⟨heap, fs⟩, ([], .writing path content .replacing))
      (⟨heap, fs.remove (tmpOf path)⟩, ([], .writing path content (.returned .IO_ERROR))) := by
  have hfailed : writeStep path content .full fs .replacing = (fs, .removing) :=
    writeStep_replacing_of_none (FileSystem.rename_of_none htmp)
  apply Interleaving.Reaches.next
  change Interleaving.Reaches _
    (World.mk heap (writeStep path content .full fs .replacing).1, (([] : Schedule),
      ExportStage.writing path content (writeStep path content .full fs .replacing).2)) _
  rw [hfailed]
  exact Interleaving.Reaches.next (.refl _ _)

/-- Two tables with one file: with both tasks about to rename, the second finds nothing. -/
private theorem exists_collision {tables : List Address} {stem : String} {w : World}
    {address other : Address} (haddress : address ∈ tables) (hother : other ∈ tables)
    (hne : address ≠ other) {t t' : Table} (ht : w.heap.get? address = some t)
    (ht' : w.heap.get? other = some t') (hname : t.getName = t'.getName)
    {content content' : List UInt8} (hcontent : exportTableToJson t = .ok content)
    (hcontent' : exportTableToJson t' = .ok content') :
    ∃ schedule : List Address, (∀ i ∈ schedule, i ∈ tables) ∧
      ((Interleaving.run (exportTasks tables stem).step schedule
        (w, exportStart fun _ => [])).2 other).2.result = some (.ok .IO_ERROR) := by
  have hfile : tableFile stem t = tableFile stem t' := by
    unfold tableFile
    rw [hname]
  obtain ⟨fs₁, hreaches₁⟩ := @reaches_replacing _ stem address w t ht content hcontent
  obtain ⟨turns₁, hshared₁, hown₁, hothers₁⟩ := @Interleaving.Reaches.exists_run _ _ _ _
    (exportTasks tables stem).step address (w, exportStart fun _ => []) _ _ hreaches₁
  generalize hs₁ : Interleaving.run (exportTasks tables stem).step
    (List.replicate turns₁ address) (w, exportStart fun _ => []) = s₁ at *
  obtain ⟨fs₂, hreaches₂⟩ := @reaches_replacing _ stem other s₁.1 t'
    (by rw [hshared₁]; exact ht') content' hcontent'
  have hbefore₂ := hothers₁ other (Ne.symm hne)
  obtain ⟨turns₂, hshared₂, hown₂, hothers₂⟩ := @Interleaving.Reaches.exists_run _ _ _ _
    (exportTasks tables stem).step other s₁ _ _ (by rw [hbefore₂]; exact hreaches₂)
  generalize hs₂ : Interleaving.run (exportTasks tables stem).step
    (List.replicate turns₂ other) s₁ = s₂ at *
  obtain ⟨fs₃, task, htmp, hreaches₃⟩ :=
    reaches_renamed stem address s₁.1.heap fs₂ (tableFile stem t) content
  have hbefore₃ := (hothers₂ address hne).trans hown₁
  obtain ⟨turns₃, hshared₃, _, hothers₃⟩ := @Interleaving.Reaches.exists_run _ _ _ _
    (exportTasks tables stem).step address s₂ _ _ (by rw [hbefore₃, hshared₂]; exact hreaches₃)
  generalize hs₃ : Interleaving.run (exportTasks tables stem).step
    (List.replicate turns₃ address) s₂ = s₃ at *
  rw [hfile] at htmp
  have hbefore₄ := (hothers₃ other (Ne.symm hne)).trans hown₂
  obtain ⟨turns₄, _, hown₄, _⟩ := @Interleaving.Reaches.exists_run _ _ _ _
    (exportTasks tables stem).step other s₃ _ _
    (by rw [hbefore₄, hshared₃]; exact reaches_failed stem other s₁.1.heap htmp content')
  refine ⟨List.replicate turns₁ address ++ (List.replicate turns₂ other ++
    (List.replicate turns₃ address ++ List.replicate turns₄ other)), fun i hi => ?_, ?_⟩
  · simp only [List.mem_append, List.mem_replicate] at hi
    rcases hi with ⟨_, rfl⟩ | ⟨_, rfl⟩ | ⟨_, rfl⟩ | ⟨_, rfl⟩
    · exact haddress
    · exact hother
    · exact haddress
    · exact hother
  · rw [Interleaving.run_append, Interleaving.run_append, Interleaving.run_append, hs₁, hs₂, hs₃,
      hown₄]
    rfl

/-- Without a failure the loop returns `OK`. -/
private theorem loop_exportTable (stem : String) (heap : Heap Table) {tables : List Address}
    (hexports : ∀ address ∈ tables, ∃ t content, heap.get? address = some t ∧
      exportTableToJson t = .ok content) (files : FileSystem) :
    ∃ after, loop lastNotOk (exportTable stem fun _ => []) tables .OK ⟨heap, files⟩ =
      (.ok .OK, after) := by
  induction tables generalizing files with
  | nil => exact ⟨_, rfl⟩
  | cons address tables ih =>
    rw [List.forall_mem_cons] at hexports
    obtain ⟨⟨t, content, ht, hcontent⟩, hrest⟩ := hexports
    obtain ⟨after, hafter⟩ :=
      ih hrest (writeFileFully files (tableFile stem t) content []).1
    refine ⟨after, ?_⟩
    have hcall : exportTable stem (fun _ => []) address ⟨heap, files⟩ =
        (.ok .OK, ⟨heap, (writeFileFully files (tableFile stem t) content []).1⟩) := by
      unfold exportTable
      dsimp only
      rw [Heap.read_eq_ok.mpr ht]
      dsimp only
      rw [hcontent]
      dsimp only
      rw [writeFileFully_ok]
    unfold loop
    rw [hcall]
    exact hafter

omit [JsonText] in
/-- A status that is not `OK` is not folded away. -/
private theorem lastFailure_ne_ok {statuses : List Status} {s : Status} (hmem : s ∈ statuses)
    (hs : s ≠ .OK) : lastFailure statuses ≠ .OK := by
  unfold lastFailure
  have hfailed : s ∈ statuses.filter fun s => s ≠ .OK :=
    List.mem_filter.mpr ⟨hmem, by simpa using hs⟩
  cases hlast : (statuses.filter fun s => s ≠ .OK).getLast? with
  | none =>
    rw [List.getLast?_eq_none_iff.mp hlast] at hfailed
    cases hfailed
  | some last =>
    have hlastMem := List.mem_of_getLast? hlast
    simpa using (List.mem_filter.mp hlastMem).2

/-- Saving or exporting two tables of one name in parallel is not doing so one after the other. -/
theorem not_doesAsLoop_of_same_names {db : Database} (howned : db.Owned)
    (hexports : ∀ address ∈ db.tables, ∀ t, db.heap.get? address = some t →
      ∃ content, exportTableToJson t = .ok content) (hnames : ¬NamesDistinct db) (stem : String) :
    ¬DoesAsLoop db stem (exportTasks db.tables stem) (exportStart fun _ => [])
      (exportTable stem fun _ => []) := by
  intro hdoes
  unfold NamesDistinct at hnames
  push Not at hnames
  obtain ⟨address, haddress, other, hother, t, t', ht, ht', hname, hne⟩ := hnames
  obtain ⟨content, hcontent⟩ := hexports address haddress t ht
  obtain ⟨content', hcontent'⟩ := hexports other hother t' ht'
  obtain ⟨after, hloop⟩ := @loop_exportTable _ stem db.heap db.tables (by
    intro i hi
    obtain ⟨ti, hti⟩ := howned.alive i hi
    obtain ⟨contenti, hcontenti⟩ := hexports i hi ti hti
    exact ⟨ti, contenti, hti, hcontenti⟩) FileSystem.empty
  obtain ⟨schedule, hinside, hfailed⟩ := @exists_collision _ db.tables stem
    ⟨db.heap, FileSystem.empty⟩ address other haddress hother hne t t' ht ht' hname content
    content' hcontent hcontent'
  have hends := hdoes FileSystem.empty ⟨db.tables.length, false⟩ .OK after
    (List.length_pos_of_mem haddress) hloop
  obtain ⟨moves, s, hrun, hschedule⟩ := @exists_run_of_schedule _ _ _ _ _ _
    (exportTasks db.tables stem) ⟨db.tables.length, false⟩ le_rfl howned.nodup
    (fun _ _ _ _ hr => exportStep_of_result hr) schedule hinside ⟨db.heap, FileSystem.empty⟩
    (exportStart fun _ => [])
  rw [← hschedule] at hfailed
  obtain ⟨more, s', hmore, _, hreturned, _⟩ := hends.exists_end hrun
  have hkept := tasks_of_run hfailed hmore
  have hstanding := (((sound_start _ _ _ _).run howned.nodup hrun).run howned.nodup hmore).standing
  unfold Standing at hstanding
  rw [hreturned] at hstanding
  obtain ⟨statuses, hcollected, hfinal⟩ := hstanding
  obtain ⟨status, hmem, _, hstatus⟩ := exists_value hcollected hother
  rw [hkept] at hstatus
  cases hfailed.symm.trans hstatus
  have hok := (foldl_lastNotOk statuses).symm.trans hfinal
  exact lastFailure_ne_ok hmem (by decide) hok

end Collision

/-- The batches of a database whose tables can be exported do what the sequential loops do exactly
if no two of its tables have the same name. -/
theorem batches_equal_loops_iff [InsertPolicy] {db : Database} (howned : db.Owned)
    (hexports : ∀ address ∈ db.tables, ∀ t, db.heap.get? address = some t →
      ∃ content, exportTableToJson t = .ok content) :
    LoadsAsLoop db ∧ SavesAsLoop db ∧ ExportsAsLoop db ↔ NamesDistinct db := by
  constructor
  · rintro ⟨_, hsaves, _⟩
    by_contra hnames
    exact not_doesAsLoop_of_same_names howned hexports hnames ("" ++ "_") (hsaves "" fun _ => [])
  · intro hnames
    refine ⟨loadsAsLoop howned, fun baseFilename io => ?_, fun outputDirectory io => ?_⟩
    · exact exportsAsLoop_of_distinct howned hnames (baseFilename ++ "_") io
    · exact exportsAsLoop_of_distinct howned hnames (outputDirectory ++ "/") io

end Batches

/-- Two tables with different names: the batches do what the loops do. -/
theorem batches_equal_loops_iff_two :
    letI : InsertPolicy := ⟨true⟩
    letI := JsonText.ofDocument [0x5B, 0x5D] (.array [])
    LoadsAsLoop twoTables ∧ SavesAsLoop twoTables ∧ ExportsAsLoop twoTables := by
  let _ : InsertPolicy := ⟨true⟩
  let _ := JsonText.ofDocument [0x5B, 0x5D] (.array [])
  have hmem : ∀ address ∈ twoTables.tables, address = 0 ∨ address = 1 :=
    fun address haddress => List.mem_pair.mp haddress
  refine (@batches_equal_loops_iff _ _ twoTables owned_twoTables ?_).mpr ?_
  · intro address haddress t ht
    rcases hmem address haddress with rfl | rfl
    · cases ht
      exact ⟨_, rfl⟩
    · cases ht
      exact ⟨_, rfl⟩
  · intro address haddress other hother t t' ht ht' hname
    rcases hmem address haddress with rfl | rfl
    · rcases hmem other hother with rfl | rfl
      · rfl
      · cases ht
        cases ht'
        exact absurd hname (by decide)
    · rcases hmem other hother with rfl | rfl
      · cases ht
        cases ht'
        exact absurd hname (by decide)
      · rfl

/-- Two tasks are brought to their renaming, one after the other; then both go on. -/
def collision : List (Move Address) :=
  [.enqueue, .enqueue, .enqueue, .start 0, .start 1] ++ List.replicate 5 (.work 0) ++
    List.replicate 5 (.work 1) ++
    [.work 0, .work 1, .work 1, .finish 0, .finish 1, .get, .get, .get]

/-- A document with two tables of one name is loaded; saved in parallel with nothing failing, the
second table is reported not to be written, while the loop writes both. -/
theorem save_of_same_names :
    letI : InsertPolicy := ⟨true⟩
    letI := JsonText.ofDocument [0x5B, 0x5D] (.array [])
    ∃ db s after,
      Database.fromJson (Database.bareDocument [("orders", 0), ("orders", 1)])
        (Database.new "shop") = .ok .OK db ∧
      loop lastNotOk (exportTable "db_" fun _ => []) db.tables .OK ⟨db.heap, .empty⟩ =
        (.ok .OK, after) ∧
      run (saveAllTablesParallel db "db") ⟨2, false⟩ collision
        (start (saveAllTablesParallel db "db") ⟨db.heap, .empty⟩ (exportStart fun _ => [])) =
          some s ∧
      s.caller = .returned .IO_ERROR ∧ ¬SavesAsLoop db := by
  let _ : InsertPolicy := ⟨true⟩
  let _ := JsonText.ofDocument [0x5B, 0x5D] (.array [])
  refine ⟨_, _, _, rfl, rfl, rfl, rfl, fun hsaves => ?_⟩
  have hends := (hsaves "db" (fun _ => []) .empty ⟨2, false⟩ .OK _ (by decide) rfl).2
  cases ((hends collision _ rfl).2 trivial).1

end MiniDB.Engine
