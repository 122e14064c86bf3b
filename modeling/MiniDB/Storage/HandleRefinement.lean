import MiniDB.Library.Ownership
import MiniDB.Storage.LogHandles

/-!
# Files behind logs

If no file is opened while another object has it open, each file goes on as one list of entries,
whichever object is used, and every open descriptor belongs to exactly one object.
-/

namespace MiniDB.Storage

open MiniDB.Common ByteSequence Memory Posix Refinement

namespace LogProgram

variable {ι : Type}

/-- A program has the logs of a shelf, and its files hold what the shelf says. -/
structure Describes (p : LogProgram ι) (shelf : Shelf ι) : Prop where
  /-- Every open descriptor belongs to exactly one log. -/
  owned : p.descriptors.Apportioned p.held
  /-- The logs are those of the shelf. -/
  logs : ∀ i, shelf.logs i = (p.handles i).map fun h => (h.path, h.fd.isSome)
  /-- Descriptors are open for the paths of their logs. -/
  opened : ∀ {i h fd}, p.handles i = some h → h.fd = some fd →
    p.descriptors.get? fd = some h.path
  /-- No file is open twice. -/
  apart : ∀ {i j h other}, p.handles i = some h → p.handles j = some other → h.fd ≠ none →
    other.fd ≠ none → h.path = other.path → i = j
  /-- Files consist of the frames of their entries and the bytes behind them. -/
  content : ∀ path, (p.files path).bytes =
    logBytes (shelf.ledgers path).entries ++ (shelf.ledgers path).leftover
  /-- Entries fit their frames. -/
  allFit : ∀ path, logFraming.AllFit 1 (shelf.ledgers path).entries
  /-- An open log shows the entries of its file. -/
  shown : ∀ {i h}, p.handles i = some h → h.fd ≠ none →
    h.log = logOf (shelf.ledgers h.path).entries
  /-- A log that is not open has an offset for every index. -/
  indexed : ∀ {i h}, p.handles i = some h → h.fd = none → h.log.Indexed

namespace Describes

variable [DecidableEq ι] {p : LogProgram ι} {shelf : Shelf ι} {i j : ι}

/-- The logs after one has changed. -/
theorem handles_set (p : LogProgram ι) (i : ι) (h : Option LogHandle) (k : ι) :
    (p.set i h).handles k = if k = i then h else p.handles k :=
  Function.update_apply p.handles i h k

/-- The descriptors that the logs hold after one has changed. -/
theorem held_set (p : LogProgram ι) (i : ι) (h : Option LogHandle) :
    (p.set i h).held = Function.update p.held i (heldBy h) :=
  Function.comp_update heldBy p.handles i h

/-- What has become of one log, with what it has done to the descriptors. -/
theorem set (h : p.Describes shelf) (handle : Option LogHandle) {descriptors : Heap String}
    (hexchange : Heap.Exchange p.descriptors descriptors (p.held i) (heldBy handle))
    (hopened : ∀ new ∈ handle, ∀ fd, new.fd = some fd → descriptors.get? fd = some new.path)
    (hapart : ∀ new ∈ handle, new.fd ≠ none → ∀ j ≠ i, ∀ other, p.handles j = some other →
      other.fd ≠ none → other.path ≠ new.path)
    (hshown : ∀ new ∈ handle, new.fd ≠ none → new.log = logOf (shelf.ledgers new.path).entries)
    (hindexed : ∀ new ∈ handle, new.fd = none → new.log.Indexed) :
    Describes ({ p with descriptors }.set i handle)
      (shelf.set i (handle.map fun h => (h.path, h.fd.isSome))) where
  owned := by
    rw [held_set]
    exact h.owned.exchange hexchange
  logs k := by
    rw [handles_set]
    change Function.update shelf.logs i _ k = _
    rw [Function.update_apply]
    split
    · rfl
    · exact h.logs k
  opened {k found fd} hk hfd := by
    rw [handles_set] at hk
    split at hk
    · exact hopened found hk fd hfd
    · rename_i hne
      have hheld : fd ∈ p.held k := by
        unfold held heldBy LogHandle.held
        have hk : p.handles k = some found := hk
        rw [hk, Option.map_some, Option.getD_some, hfd]
        exact List.mem_singleton_self fd
      exact (h.owned.undisturbed hexchange hne hheld).trans (h.opened hk hfd)
  apart {k l found other} hk hl hfound hother hpath := by
    rw [handles_set] at hk hl
    split at hk
    · split at hl
      · rename_i hki hli
        exact hki.trans hli.symm
      · rename_i hli
        exact absurd hpath.symm (hapart found hk hfound l hli other hl hother)
    · split at hl
      · rename_i hki _
        exact absurd hpath (hapart other hl hother k hki found hk hfound)
      · exact h.apart hk hl hfound hother hpath
  content := h.content
  allFit := h.allFit
  shown {k found} hk hfound := by
    rw [handles_set] at hk
    split at hk
    · exact hshown found hk hfound
    · exact h.shown hk hfound
  indexed {k found} hk hfound := by
    rw [handles_set] at hk
    split at hk
    · exact hindexed found hk hfound
    · exact h.indexed hk hfound

omit [DecidableEq ι] in
/-- What has become of a file that no log has open. -/
theorem write (h : p.Describes shelf) {path : String} {file : File} (ledger : Ledger)
    (hclosed : ∀ j other, p.handles j = some other → other.fd ≠ none → other.path ≠ path)
    (hcontent : file.bytes = logBytes ledger.entries ++ ledger.leftover)
    (hfit : logFraming.AllFit 1 ledger.entries) :
    Describes { p with files := Function.update p.files path file } (shelf.write path ledger) where
  owned := h.owned
  logs := h.logs
  opened := h.opened
  apart := h.apart
  content other := by
    unfold Shelf.write
    dsimp only
    rw [Function.update_apply, Function.update_apply]
    split
    · exact hcontent
    · exact h.content other
  allFit other := by
    unfold Shelf.write
    dsimp only
    rw [Function.update_apply]
    split
    · exact hfit
    · exact h.allFit other
  shown {k found} hk hfound := by
    unfold Shelf.write
    dsimp only
    rw [Function.update_of_ne (hclosed k found hk hfound)]
    exact h.shown hk hfound
  indexed := h.indexed

omit [DecidableEq ι] in
/-- The descriptor of a log can be closed. -/
theorem close (h : p.Describes shelf) {handle : LogHandle} (hi : p.handles i = some handle) :
    ∃ descriptors, handle.close p.descriptors = .ok descriptors ∧
      Heap.Exchange p.descriptors descriptors (p.held i) [] := by
  have hheld : p.held i = handle.fd.toList := by
    unfold held
    rw [hi]
    rfl
  rw [hheld]
  unfold LogHandle.close
  cases hfd : handle.fd with
  | none =>
    exact ⟨_, rfl, .refl List.nodup_nil fun _ hmem => absurd hmem List.not_mem_nil⟩
  | some fd =>
    refine Heap.Exchange.free (h.owned.alive_of_mem (i := i) ?_)
    rw [hheld, hfd]
    exact List.mem_singleton_self fd

/-- A log that is not open gives way to another one, which leaves a new log behind. -/
theorem takeOver (h : p.Describes shelf) (hne : i ≠ j) (hempty : p.held i = []) {other : LogHandle}
    (hj : p.handles j = some other) (left : String) :
    Describes ((p.set j (some (LogHandle.movedFrom left))).set i (some other))
      ((shelf.set j (some (left, false))).set i (shelf.logs j)) := by
  have hhandles : ∀ k, ((p.set j (some (LogHandle.movedFrom left))).set i (some other)).handles k =
      if k = i then some other else if k = j then some (LogHandle.movedFrom left)
        else p.handles k := by
    intro k
    rw [handles_set, handles_set]
  -- where the logs that are open have come from
  have hfrom : ∀ {k found}, ((p.set j (some (LogHandle.movedFrom left))).set i
      (some other)).handles k = some found → found = LogHandle.movedFrom left ∨
        k = i ∧ p.handles j = some found ∨ k ≠ i ∧ k ≠ j ∧ p.handles k = some found := by
    intro k found hk
    rw [hhandles] at hk
    split at hk
    · rename_i hki
      cases hk
      exact Or.inr (Or.inl ⟨hki, hj⟩)
    · split at hk
      · cases hk
        exact Or.inl rfl
      · rename_i hki hkj
        exact Or.inr (Or.inr ⟨hki, hkj, hk⟩)
  have hheld : p.held j = other.held := by
    unfold held
    rw [hj]
    rfl
  constructor
  · rw [held_set, held_set]
    have howned := h.owned.takeOver hne hempty
    rw [Function.update_comm hne, hheld] at howned
    exact howned
  · intro k
    rw [hhandles]
    change Function.update (Function.update shelf.logs j _) i _ k = _
    rw [Function.update_apply, Function.update_apply, h.logs j, hj]
    split
    · rfl
    · split
      · rfl
      · exact h.logs k
  · intro k found fd hk hfd
    rcases hfrom hk with rfl | ⟨_, hold⟩ | ⟨_, _, hold⟩
    · cases hfd
    · exact h.opened hold hfd
    · exact h.opened hold hfd
  · intro k l found other' hk hl hfound hother hpath
    rcases hfrom hk with rfl | ⟨hki, hold⟩ | ⟨hki, hkj, hold⟩
    · exact absurd rfl hfound
    · rcases hfrom hl with rfl | ⟨hli, _⟩ | ⟨_, hlj, hold'⟩
      · exact absurd rfl hother
      · exact hki.trans hli.symm
      · exact absurd (h.apart hold hold' hfound hother hpath).symm hlj
    · rcases hfrom hl with rfl | ⟨_, hold'⟩ | ⟨_, _, hold'⟩
      · exact absurd rfl hother
      · exact absurd (h.apart hold hold' hfound hother hpath) hkj
      · exact h.apart hold hold' hfound hother hpath
  · exact h.content
  · exact h.allFit
  · intro k found hk hfound
    rcases hfrom hk with rfl | ⟨_, hold⟩ | ⟨_, _, hold⟩
    · exact absurd rfl hfound
    · exact h.shown hold hfound
    · exact h.shown hold hfound
  · intro k found hk hfound
    rcases hfrom hk with rfl | ⟨_, hold⟩ | ⟨_, _, hold⟩
    · rfl
    · exact h.indexed hold hfound
    · exact h.indexed hold hfound

omit [DecidableEq ι] in
/-- An open log and its file stand for the list of the file. -/
theorem represents (h : p.Describes shelf) {handle : LogHandle} (hi : p.handles i = some handle)
    (hopen : handle.fd ≠ none) :
    logSimulation.Related ⟨handle.log, p.files handle.path⟩ (shelf.ledgers handle.path) := by
  have hcontent := h.content handle.path
  have hlog := h.shown hi hopen
  refine ⟨⟨h.allFit handle.path, ⟨_, hcontent.symm⟩, hlog⟩, ?_⟩
  unfold residue
  dsimp only
  rw [hlog, hcontent]
  exact List.drop_left

omit [DecidableEq ι] in
/-- Logs have an offset for every index, be they open or closed. -/
theorem log_indexed (h : p.Describes shelf) {handle : LogHandle} (hi : p.handles i = some handle) :
    handle.log.Indexed := by
  by_cases hclosed : handle.fd = none
  · exact h.indexed hi hclosed
  · have hlength := (h.represents hi hclosed).1.length_lt
    rw [h.shown hi hclosed]
    exact indexed_logOf (by omega)

/-- A log whose descriptor is closed. -/
theorem closed (h : p.Describes shelf) (handle : LogHandle) {descriptors : Heap String}
    (hexchange : Heap.Exchange p.descriptors descriptors (p.held i) []) (hfd : handle.fd = none)
    (hindexed : handle.log.Indexed) :
    Describes ({ p with descriptors }.set i (some handle))
      (shelf.set i (some (handle.path, false))) := by
  have hset := h.set (some handle) (by
      unfold heldBy LogHandle.held
      rw [Option.map_some, Option.getD_some, hfd]
      exact hexchange)
    (by
      rintro _ ⟨⟩ fd hsome
      cases hfd.symm.trans hsome)
    (by
      rintro _ ⟨⟩ hsome
      exact absurd hfd hsome)
    (by
      rintro _ ⟨⟩ hsome
      exact absurd hfd hsome)
    (by
      rintro _ ⟨⟩ _
      exact hindexed)
  rw [Option.map_some, hfd] at hset
  exact hset

end Describes

variable [DecidableEq ι] {p : LogProgram ι} {shelf : Shelf ι} {i j : ι}

end LogProgram

end MiniDB.Storage
