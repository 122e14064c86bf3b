import MiniDB.Engine.Concurrency
import MiniDB.Engine.ImportBoundary

/-!
# Parallel loading

The tasks of `loadAllTablesParallel` read files that nobody writes, and each changes its own
table alone. A task that is left alone does what `importTableFromFile` does.
-/

namespace MiniDB.Engine

open MiniDB.Common MiniDB.Common.FileIO MiniDB.JsonPro MiniDB.Core Memory Posix Interleaving

variable [JsonText] [InsertPolicy]

/-- What a task sees: its own state and its table. -/
abbrev LoadView := LoadTask × Option Table

/-- A turn of a task as it sees it. -/
def loadAlone (stem : String) (fs : FileSystem) (v : LoadView) : LoadView :=
  match v.1.2.result, v.2 with
  | none, some t => ((loadTurn stem fs v.1 t).1, some (loadTurn stem fs v.1 t).2)
  | _, _ => v

/-- What the turns of the tasks keep. -/
structure LoadKept (tables : List Address) (before : World) (s : World × (Address → LoadTask)) :
    Prop where
  /-- The files do not change. -/
  files : s.1.files = before.files
  /-- Nothing is allocated. -/
  next : s.1.heap.next = before.heap.next
  /-- Other tables do not change. -/
  outside : ∀ address, address ∉ tables → s.1.heap.get? address = before.heap.get? address
  /-- The tables are alive. -/
  alive : ∀ address ∈ tables, ∃ t, s.1.heap.get? address = some t

/-- A turn of a task that has not ended writes its table. -/
theorem loadStep_of_some {stem : String} {address : Address} {w : World} {task : LoadTask}
    {t : Table} (hresult : task.2.result = none) (ht : w.heap.get? address = some t) :
    loadStep stem address w task =
      ({ w with
          heap := w.heap.put address (Heap.lt_next ht) (some (loadTurn stem w.files task t).2) },
        (loadTurn stem w.files task t).1) := by
  unfold loadStep
  rw [hresult, Heap.read_eq_ok.mpr ht]
  dsimp only
  rw [Heap.write_of_some ht]

/-- A task that has ended does nothing. -/
theorem loadStep_of_result {stem : String} {address : Address} {w : World} {task : LoadTask}
    {r : Except Fault Status} (hresult : task.2.result = some r) :
    loadStep stem address w task = (w, task) := by
  unfold loadStep
  rw [hresult]

/-- What a turn of a task does to the tables. -/
theorem get?_move_load {tables : List Address} {stem : String} {address : Address}
    {s : World × (Address → LoadTask)} {t : Table} (ht : s.1.heap.get? address = some t) :
    (∃ t', (move (loadTasks tables stem).step address s).1.heap.get? address = some t') ∧
      (move (loadTasks tables stem).step address s).1.files = s.1.files ∧
      (move (loadTasks tables stem).step address s).1.heap.next = s.1.heap.next ∧
      ∀ other, other ≠ address →
        (move (loadTasks tables stem).step address s).1.heap.get? other = s.1.heap.get? other := by
  unfold move loadTasks
  dsimp only
  cases hresult : (s.2 address).2.result with
  | some r =>
    rw [loadStep_of_result hresult]
    exact ⟨⟨t, ht⟩, rfl, rfl, fun _ _ => rfl⟩
  | none =>
    rw [loadStep_of_some hresult ht]
    exact ⟨⟨_, if_pos rfl⟩, rfl, rfl, fun other hother => if_neg hother⟩

/-- The tasks see nothing of each other. -/
theorem separate_load (tables : List Address) (stem : String) (before : World) :
    TaskPool.Separate (loadTasks tables stem) (LoadKept tables before)
      (fun address s => (s.2 address, s.1.heap.get? address))
      (fun _ => loadAlone stem before.files) (fun v => v.1.2.result) where
  kept := by
    intro s address haddress h
    obtain ⟨t, ht⟩ := h.alive address haddress
    obtain ⟨hself, hfiles, hnext, hother⟩ := @get?_move_load _ _ tables stem address s t ht
    refine ⟨hfiles.trans h.files, hnext.trans h.next, fun other hnot => ?_, fun other hin => ?_⟩
    · rw [hother other (by rintro rfl; exact hnot haddress)]
      exact h.outside other hnot
    · by_cases hne : other = address
      · subst hne
        exact hself
      · rw [hother other hne]
        exact h.alive other hin
  own := by
    intro s address haddress h
    obtain ⟨t, ht⟩ := h.alive address haddress
    rw [move_snd_self]
    unfold move loadTasks loadAlone
    dsimp only
    rw [ht]
    cases hresult : (s.2 address).2.result with
    | some r =>
      rw [loadStep_of_result hresult]
      dsimp only
      rw [ht]
    | none =>
      rw [loadStep_of_some hresult ht, ← h.files]
      dsimp only
      rw [Heap.get?_put, if_pos rfl]
  other := by
    intro s address haddress other _ hne h
    obtain ⟨t, ht⟩ := h.alive address haddress
    obtain ⟨_, _, _, hother⟩ := @get?_move_load _ _ tables stem address s t ht
    rw [move_snd_of_ne (Ne.symm hne), hother other (Ne.symm hne)]
  sees _ _ := rfl
  settled _ _ _ _ hr := loadStep_of_result hr

/-- A task reads its file as `readFile` does. -/
private theorem reaches_readSteps (stem : String) (fs : FileSystem) (path : String) (t : Table)
    {s : Status} {out : List UInt8} {turns : ℕ} {io : Schedule} {stage : ReadStage}
    (h : readSteps fs path turns io stage = .returned s out) :
    ∃ io', Reaches (loadAlone stem fs) ((io, .reading path stage), some t)
      ((io', .reading path (.returned s out)), some t) := by
  induction turns generalizing io stage with
  | zero =>
    cases h
    exact ⟨io, .refl _ _⟩
  | succ turns ih =>
    cases stage with
    | returned s' out' =>
      rw [readSteps_returned] at h
      cases h
      exact ⟨io, .refl _ _⟩
    | _ =>
      obtain ⟨io', hreaches⟩ := ih h
      exact ⟨io', hreaches.next⟩

/-- A task imports the entries as `importTableFromJson` does. -/
private theorem reaches_importEntries (stem : String) (fs : FileSystem) (io : Schedule)
    (nextId : RecordID) (entries : List Json) (t : Table) :
    Reaches (loadAlone stem fs) ((io, .importing nextId entries), some t)
      (match importEntries nextId entries t with
        | .ok s t' => ((io, .ended (.ok s)), some t')
        | .error fault t' => ((io, .ended (.error fault)), some t')) := by
  induction entries generalizing nextId t with
  | nil => exact Reaches.next (.refl _ _)
  | cons entry entries ih =>
    apply Reaches.next
    unfold loadAlone
    dsimp only [LoadStage.result, loadTurn]
    rw [importEntries_step]
    cases entryRecord nextId entry with
    | error fault => exact .refl _ _
    | ok r =>
      dsimp only
      split
      · exact .refl _ _
      · exact ih (nextId + 1) (t.insertRecord r).2

/-- A task imports a text as `importTableFromJson` does. -/
private theorem reaches_importStart (stem : String) (fs : FileSystem) (io : Schedule)
    (raw : List UInt8) (t : Table) :
    Reaches (loadAlone stem fs) ((io, importStart raw), some t)
      (match importTableFromJson raw t with
        | .ok s t' => ((io, .ended (.ok s)), some t')
        | .error fault t' => ((io, .ended (.error fault)), some t')) := by
  unfold importStart importTableFromJson
  rw [lift_bind]
  cases JsonText.parse raw with
  | error fault => exact .refl _ _
  | ok parsed =>
    cases parsed with
    | array entries => exact reaches_importEntries stem fs io 0 entries t
    | _ => exact .refl _ _

/-- A task does what `importTableFromFile` does. -/
theorem reaches_importTableFromFile (stem : String) (fs : FileSystem) (io : Schedule)
    (t : Table) :
    ∃ io', Reaches (loadAlone stem fs) ((io, .naming), some t)
      (match importTableFromFile (readFile fs (tableFile stem t) io) t with
        | .ok s t' => ((io', .ended (.ok s)), some t')
        | .error fault t' => ((io', .ended (.error fault)), some t')) := by
  obtain ⟨io', hread⟩ := reaches_readSteps stem fs (tableFile stem t) t
    (readSteps_eq_readFile fs (tableFile stem t) io)
  refine ⟨io', Reaches.next (hread.trans (Reaches.next ?_))⟩
  cases hfile : readFile fs (tableFile stem t) io with
  | mk s out =>
    cases s with
    | OK => exact reaches_importStart stem fs io' out t
    | _ => exact .refl _ _

/-- The turns of one task change its own table at most. -/
private theorem get?_run_load {tables : List Address} {stem : String} {address : Address}
    {s : World × (Address → LoadTask)} {t : Table} (ht : s.1.heap.get? address = some t)
    (turns : ℕ) {cell : Option Table}
    (hcell : (run (loadTasks tables stem).step (List.replicate turns address) s).1.heap.get?
      address = cell) :
    ∃ t', cell = some t' ∧
      (run (loadTasks tables stem).step (List.replicate turns address) s).1 =
        { s.1 with heap := s.1.heap.put address (Heap.lt_next ht) (some t') } := by
  have hframe := @Interleaving.run_induction _ _ _ _ [address] (loadTasks tables stem).step
    (fun s' => (∃ t', s'.1.heap.get? address = some t') ∧ s'.1.files = s.1.files ∧
      s'.1.heap.next = s.1.heap.next ∧
      ∀ other, other ≠ address → s'.1.heap.get? other = s.1.heap.get? other) (by
      rintro s' i hi ⟨⟨t', ht'⟩, hfiles, hnext, hother⟩
      rw [List.mem_singleton.mp hi]
      obtain ⟨hself, hfiles', hnext', hother'⟩ :=
        @get?_move_load _ _ tables stem address s' t' ht'
      refine ⟨hself, hfiles'.trans hfiles, hnext'.trans hnext, fun other hne => ?_⟩
      rw [hother' other hne, hother other hne]) s ⟨⟨t, ht⟩, rfl, rfl, fun _ _ => rfl⟩
    (List.replicate turns address)
    fun other hother => List.mem_singleton.mpr (List.eq_of_mem_replicate hother)
  obtain ⟨⟨t', ht'⟩, hfiles, hnext, hother⟩ := hframe
  refine ⟨t', hcell.symm.trans ht', ?_⟩
  generalize (run (loadTasks tables stem).step (List.replicate turns address) s).1 = w at *
  obtain ⟨heap, files⟩ := w
  dsimp only at *
  subst hfiles
  congr 1
  apply Heap.eq_of_fields
  · intro other
    rw [Heap.get?_put]
    split
    · rename_i heq
      rw [heq, ht']
    · rename_i hne
      exact hother other hne
  · exact hnext

/-- The turns of a task that is left alone do what its call does. -/
theorem realizes_load (tables : List Address) (stem : String) (before : World)
    (io : Address → Schedule) :
    TaskPool.Realizes (loadTasks tables stem) (loadStart io) (LoadKept tables before)
      (loadTable stem io) := by
  intro address haddress s hkept htask
  obtain ⟨t, ht⟩ := hkept.alive address haddress
  obtain ⟨io', turns, hturns⟩ :=
    reaches_importTableFromFile stem s.1.files (io address) t
  have hschedule : ∀ other ∈ List.replicate turns address, other ∈ (loadTasks tables stem).order :=
    fun other hother => List.eq_of_mem_replicate hother ▸ haddress
  have hview := (separate_load tables stem before).view_run hkept hschedule haddress
  rw [List.count_replicate_self, htask, loadStart, ht, ← hkept.files, hturns] at hview
  refine ⟨turns, ?_⟩
  unfold loadTable
  rw [Heap.read_eq_ok.mpr ht]
  dsimp only
  rcases himport : importTableFromFile
      (readFile s.1.files (tableFile stem t) (io address)) t with ⟨status, t'⟩ | ⟨fault, t'⟩
  -- the task ends alike with a status and with an exception
  all_goals
    rw [himport] at hview
    obtain ⟨t'', hcell, hworld⟩ := get?_run_load ht turns (congrArg Prod.snd hview)
    cases hcell
    dsimp only
    rw [Heap.write_of_some ht]
    refine ⟨hworld, ?_⟩
    exact congrArg (fun v => v.1.2.result) hview

omit [JsonText] [InsertPolicy] in
/-- The tables of a database, before a batch. -/
theorem loadKept_start {db : Database} (howned : db.Owned) (files : FileSystem)
    (tasks : Address → LoadTask) :
    LoadKept db.tables ⟨db.heap, files⟩ (⟨db.heap, files⟩, tasks) :=
  ⟨rfl, rfl, fun _ _ => rfl, howned.alive⟩

end MiniDB.Engine
