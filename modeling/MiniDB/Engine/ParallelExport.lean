import MiniDB.Engine.Concurrency

/-!
# Parallel saving and exporting

The tasks of `saveAllTablesParallel` and `exportAllTablesParallel` read tables that nobody
changes. If the tables have different names then each writes files of its own: the target ends
in `.json`, the file beside it in `.tmp`. A task that is left alone does what
`exportTableToFile` does.
-/

namespace MiniDB.Engine

open MiniDB.Common MiniDB.Common.FileIO MiniDB.JsonPro MiniDB.Core Memory Posix Interleaving

/-- Names give different files. -/
theorem tableFile_injective {stem : String} {t t' : Table}
    (h : tableFile stem t = tableFile stem t') : t.getName = t'.getName := by
  unfold tableFile at h
  have hlist := congrArg String.toList h
  rw [String.toList_append, String.toList_append, String.toList_append, String.toList_append]
    at hlist
  exact String.toList_injective (List.append_cancel_left (List.append_cancel_right hlist))

/-- Paths give different files beside them. -/
theorem tmpOf_injective {path path' : String} (h : tmpOf path = tmpOf path') : path = path' := by
  unfold tmpOf at h
  have hlist := congrArg String.toList h
  rw [String.toList_append, String.toList_append] at hlist
  exact String.toList_injective (List.append_cancel_right hlist)

/-- The file beside a target is no table's file. -/
theorem tmpOf_ne_tableFile (path stem : String) (t : Table) : tmpOf path ≠ tableFile stem t := by
  intro h
  unfold tmpOf tableFile at h
  have hlast := congrArg (fun file => file.toList.getLast?) h
  rw [String.toList_append, String.toList_append, List.getLast?_append, List.getLast?_append]
    at hlast
  have htmp : ".tmp".toList.getLast? = some 'p' := rfl
  have hjson : ".json".toList.getLast? = some 'n' := rfl
  rw [htmp, hjson] at hlast
  cases hlast

/-- The file of the table at an address. -/
def fileAt (stem : String) (heap : Heap Table) (address : Address) : String :=
  match heap.get? address with
  | some t => tableFile stem t
  | none => ""

/-- A stage without the descriptor. -/
def ExportStage.blind : ExportStage → ExportStage
  | .writing path content stage => .writing path content stage.blind
  | stage => stage

/-- What a task sees: its own state and its two files. -/
abbrev ExportView := ExportTask × Site

section Turns

variable [JsonText]

/-- A turn of a task as it sees it. -/
def exportAlone (stem : String) (heap : Heap Table) (address : Address) (v : ExportView) :
    ExportView :=
  match v.1.2.result with
  | some _ => v
  | none =>
    match v.1 with
    | (io, .dumping) => ((io, dump stem heap address), v.2)
    | (io, .writing path content stage) =>
      ((io.next.2, .writing path content (siteStep content io.next.1 v.2 stage).2),
        (siteStep content io.next.1 v.2 stage).1)
    | (io, .failed fault) => ((io, .failed fault), v.2)

/-- A task that writes does so at a path, attached to the file beside it. -/
def WritesAt (path : String) (fs : FileSystem) : ExportStage → Prop
  | .writing path' _ stage => path' = path ∧ Attached fs path stage
  | _ => True

/-- What the turns of the tasks keep. -/
structure ExportKept (tables : List Address) (stem : String) (before : World)
    (s : World × (Address → ExportTask)) : Prop where
  /-- The tables do not change. -/
  heap : s.1.heap = before.heap
  /-- Other files do not change. -/
  outside : ∀ path, (∀ address ∈ tables, path ≠ fileAt stem before.heap address ∧
    path ≠ tmpOf (fileAt stem before.heap address)) → s.1.files.read path = before.files.read path
  /-- Every task writes at its own file. -/
  writes : ∀ address ∈ tables,
    WritesAt (fileAt stem before.heap address) s.1.files (s.2 address).2

/-- The tables have files of their own. -/
structure FilesApart (tables : List Address) (stem : String) (heap : Heap Table) : Prop where
  /-- No two tables have the same file. -/
  files : ∀ address ∈ tables, ∀ other ∈ tables, address ≠ other →
    fileAt stem heap address ≠ fileAt stem heap other
  /-- No table has the file beside that of another. -/
  tmps : ∀ address ∈ tables, ∀ other ∈ tables,
    tmpOf (fileAt stem heap address) ≠ fileAt stem heap other

omit [JsonText] in
/-- Descriptors do not matter to how a task has ended. -/
theorem result_blind (stage : ExportStage) : stage.blind.result = stage.result := by
  cases stage with
  | writing path content stage => cases stage <;> rfl
  | _ => rfl

/-- What a dump writes is the file of the table. -/
theorem writesAt_dump (stem : String) (heap : Heap Table) (address : Address) (fs : FileSystem) :
    WritesAt (fileAt stem heap address) fs (dump stem heap address) := by
  unfold dump fileAt
  cases ht : heap.get? address with
  | none =>
    have hread : heap.read address = .error .undefined := by
      unfold Heap.read
      rw [ht]
    rw [hread]
    trivial
  | some t =>
    rw [Heap.read_eq_ok.mpr ht]
    dsimp only
    cases exportTableToJson t with
    | error fault => trivial
    | ok content => exact ⟨rfl, trivial⟩

/-- A task that has ended does nothing. -/
theorem exportStep_of_result {stem : String} {address : Address} {w : World} {task : ExportTask}
    {r : Except Fault Status} (hresult : task.2.result = some r) :
    exportStep stem address w task = (w, task) := by
  unfold exportStep
  rw [hresult]

/-- A turn of a task changes nothing but its two files, and leaves the other tasks attached. -/
theorem exportStep_frame {stem path : String} {address : Address} {w : World} {task : ExportTask}
    (h : WritesAt path w.files task.2) (hpath : fileAt stem w.heap address = path) :
    (exportStep stem address w task).1.heap = w.heap ∧
    WritesAt path (exportStep stem address w task).1.files (exportStep stem address w task).2.2 ∧
    (∀ other, other ≠ path → other ≠ tmpOf path →
      (exportStep stem address w task).1.files.read other = w.files.read other) ∧
    ∀ other stage, tmpOf other ≠ path → tmpOf other ≠ tmpOf path → WritesAt other w.files stage →
      WritesAt other (exportStep stem address w task).1.files stage := by
  cases hresult : task.2.result with
  | some r =>
    rw [exportStep_of_result hresult]
    exact ⟨rfl, h, fun _ _ _ => rfl, fun _ _ _ _ h => h⟩
  | none =>
    unfold exportStep
    rw [hresult]
    obtain ⟨io, stage⟩ := task
    cases stage with
    | dumping =>
      refine ⟨rfl, ?_, fun _ _ _ => rfl, fun _ _ _ _ h => h⟩
      rw [← hpath]
      exact writesAt_dump stem w.heap address w.files
    | failed fault => exact ⟨rfl, trivial, fun _ _ _ => rfl, fun _ _ _ _ h => h⟩
    | writing path' content stage =>
      obtain ⟨rfl, hattached⟩ := h
      refine ⟨rfl, ⟨rfl, hattached.step content io.next.1⟩, fun other hne htmp => ?_, ?_⟩
      · exact read_writeStep hattached content io.next.1 hne htmp
      · intro other stage' hne htmp hwrites
        cases stage' with
        | writing path'' content' stage'' =>
          exact ⟨hwrites.1, hattached.other hwrites.2 content io.next.1 hne htmp⟩
        | _ => trivial

/-- A turn as the task sees it. -/
theorem exportStep_own {stem : String} {address : Address} {w : World} {task : ExportTask}
    (h : WritesAt (fileAt stem w.heap address) w.files task.2) :
    (((exportStep stem address w task).2.1, (exportStep stem address w task).2.2.blind),
      siteOf (exportStep stem address w task).1.files (fileAt stem w.heap address)) =
    exportAlone stem w.heap address
      ((task.1, task.2.blind), siteOf w.files (fileAt stem w.heap address)) := by
  unfold exportAlone
  dsimp only
  rw [result_blind]
  cases hresult : task.2.result with
  | some r =>
    rw [exportStep_of_result hresult]
  | none =>
    unfold exportStep
    rw [hresult]
    obtain ⟨io, stage⟩ := task
    cases stage with
    | dumping =>
      have hblind : (dump stem w.heap address).blind = dump stem w.heap address := by
        unfold dump
        split
        · rfl
        · split
          · rfl
          · rfl
      dsimp only
      rw [hblind]
      rfl
    | failed fault => rfl
    | writing path content stage =>
      obtain ⟨rfl, hattached⟩ := h
      have hsite := siteOf_writeStep hattached content io.next.1
      rw [Prod.ext_iff] at hsite
      dsimp only at hsite
      dsimp only [ExportStage.blind]
      rw [hsite.1, hsite.2]

/-- Tasks with files of their own see nothing of each other. -/
theorem separate_export {tables : List Address} {stem : String} {before : World}
    (hapart : FilesApart tables stem before.heap) :
    TaskPool.Separate (exportTasks tables stem) (ExportKept tables stem before)
      (fun address s => (((s.2 address).1, (s.2 address).2.blind),
        siteOf s.1.files (fileAt stem before.heap address)))
      (exportAlone stem before.heap) (fun v => v.1.2.result) where
  kept := by
    intro s address haddress h
    have hfile : fileAt stem s.1.heap address = fileAt stem before.heap address := by
      rw [h.heap]
    obtain ⟨hheap, hwrites, hread, hothers⟩ := exportStep_frame (h.writes address haddress) hfile
    refine ⟨hheap.trans h.heap, fun path hpath => ?_, fun other hother => ?_⟩
    · obtain ⟨hne, htmp⟩ := hpath address haddress
      exact (hread path hne htmp).trans (h.outside path hpath)
    · by_cases hne : other = address
      · subst hne
        rw [move_snd_self]
        exact hwrites
      · rw [move_snd_of_ne hne]
        apply hothers
        · exact hapart.tmps other hother address haddress
        · exact fun htmp => hapart.files other hother address haddress hne (tmpOf_injective htmp)
        · exact h.writes other hother
  own := by
    intro s address haddress h
    have hwrites := h.writes address haddress
    rw [← h.heap] at hwrites ⊢
    rw [move_snd_self]
    exact exportStep_own hwrites
  other := by
    intro s address haddress other hother hne h
    have hfile : fileAt stem s.1.heap address = fileAt stem before.heap address := by
      rw [h.heap]
    obtain ⟨_, _, hread, _⟩ := exportStep_frame (h.writes address haddress) hfile
    rw [move_snd_of_ne (Ne.symm hne)]
    unfold siteOf
    have hfiles := hapart.files other hother address haddress (Ne.symm hne)
    have htarget := hread (fileAt stem before.heap other) hfiles
      (hapart.tmps address haddress other hother).symm
    have htmp := hread (tmpOf (fileAt stem before.heap other))
      (hapart.tmps other hother address haddress) fun htmp => hfiles (tmpOf_injective htmp)
    unfold move
    dsimp only [exportTasks]
    rw [htarget, htmp]
  sees address s := (result_blind (s.2 address).2).symm
  settled _ _ _ _ hr := exportStep_of_result hr

/-- A task writes as `writeFileAtomic` does. -/
theorem reaches_writeSteps (stem : String) (address : Address) (heap : Heap Table)
    (path : String) (content : List UInt8) {io calls : Schedule} {more : ℕ}
    (hcalls : io ++ List.replicate more .full = calls) (fs : FileSystem) (stage : WriteStage) :
    ∃ io', (io = [] → io' = []) ∧
      Reaches (fun p : World × ExportTask => exportStep stem address p.1 p.2)
        (⟨heap, fs⟩, (io, .writing path content stage))
        (⟨heap, (writeSteps path content calls (fs, stage)).1⟩,
          (io', .writing path content (writeSteps path content calls (fs, stage)).2)) := by
  induction calls generalizing io more fs stage with
  | nil => exact ⟨io, id, .refl _ _⟩
  | cons outcome calls ih =>
    cases hresult : writeResult stage with
    | some r =>
      rw [writeSteps_of_result hresult]
      exact ⟨io, id, .refl _ _⟩
    | none =>
      have hnext : io.next.1 = outcome ∧
          ∃ more', io.next.2 ++ List.replicate more' .full = calls := by
        cases io with
        | nil =>
          cases more with
          | zero => cases hcalls
          | succ more =>
            cases hcalls
            exact ⟨rfl, more, rfl⟩
        | cons first io =>
          cases hcalls
          exact ⟨rfl, more, rfl⟩
      obtain ⟨hfirst, more', hrest⟩ := hnext
      obtain ⟨io', hempty, hreaches⟩ := ih hrest (writeStep path content outcome fs stage).1
        (writeStep path content outcome fs stage).2
      refine ⟨io', ?_, Reaches.next ?_⟩
      · rintro rfl
        exact hempty rfl
      dsimp only
      unfold exportStep
      dsimp only [ExportStage.result]
      rw [hresult, hfirst]
      exact hreaches

/-- The turns of a task that is left alone do what its call does. -/
theorem realizes_export (tables : List Address) (stem : String) (before : World)
    (io : Address → Schedule) :
    TaskPool.Realizes (exportTasks tables stem) (exportStart io)
      (ExportKept tables stem before) (exportTable stem io) := by
  apply TaskPool.realizes_of_reaches
  intro address _ s _ _
  have hfirst : (exportTasks tables stem).step address s.1 (exportStart io address) =
      (s.1, (io address, dump stem s.1.heap address)) := rfl
  unfold exportTable
  cases hread : s.1.heap.read address with
  | error fault =>
    refine ⟨(io address, .failed fault), Reaches.next ?_, rfl⟩
    dsimp only
    rw [hfirst]
    unfold dump
    rw [hread]
    exact .refl _ _
  | ok t =>
    dsimp only
    cases hexport : exportTableToJson t with
    | error fault =>
      refine ⟨(io address, .failed fault), Reaches.next ?_, rfl⟩
      dsimp only
      rw [hfirst]
      unfold dump
      rw [hread]
      dsimp only
      rw [hexport]
      exact .refl _ _
    | ok content =>
      obtain ⟨io', _, hreaches⟩ := @reaches_writeSteps _ stem address s.1.heap (tableFile stem t)
        content (io address) _ (content.length + 5) rfl s.1.files .opening
      refine ⟨(io', .writing (tableFile stem t) content _), Reaches.next ?_,
        writeResult_fully s.1.files (tableFile stem t) content (io address)⟩
      dsimp only
      rw [hfirst]
      unfold dump
      rw [hread]
      dsimp only
      rw [hexport]
      exact hreaches

end Turns

end MiniDB.Engine
