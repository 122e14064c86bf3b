import MiniDB.Library.Heap
import MiniDB.Library.TaskLoop

/-!
# Tasks on objects of their own

A batch in which every task reads and writes one object of a heap, its own. Such tasks see
nothing of each other: whatever the schedule, every object ends as its task alone would leave
it, and the others do not change.
-/

namespace TaskPool

open Interleaving Memory

variable {α τ ρ : Type}

/-- What a task on an object does. -/
structure ObjectTask (α τ ρ : Type) where
  /-- One turn on its own state and on the object. -/
  turn : τ → α → τ × α
  /-- How a task has ended. -/
  result : τ → Option (Except Fault ρ)
  /-- The state of a task whose access failed. -/
  failed : Fault → τ

/-- One turn of the task on the object at an address. -/
def ObjectTask.step (task : ObjectTask α τ ρ) (address : Address) (heap : Heap α) (own : τ) :
    Heap α × τ :=
  match task.result own with
  | some _ => (heap, own)
  | none =>
    match heap.read address with
    | .error fault => (heap, task.failed fault)
    | .ok object =>
      match heap.write address (task.turn own object).2 with
      | .error fault => (heap, task.failed fault)
      | .ok heap => (heap, (task.turn own object).1)

/-- The batch of one task for every object. -/
def ObjectTask.batch (task : ObjectTask α τ ρ) (order : List Address) (initial : ρ)
    (combine : ρ → ρ → ρ) : Batch Address (Heap α) τ Fault ρ where
  order := order
  step := task.step
  result := task.result
  initial := initial
  combine := combine

/-- A turn of a task as it sees it: with its own state and its object. -/
def ObjectTask.alone (task : ObjectTask α τ ρ) (v : τ × Option α) : τ × Option α :=
  match task.result v.1, v.2 with
  | none, some object => ((task.turn v.1 object).1, some (task.turn v.1 object).2)
  | _, _ => v

/-- What the turns of the tasks keep. -/
structure ObjectsKept (order : List Address) (before : Heap α) (s : Heap α × (Address → τ)) :
    Prop where
  /-- Nothing is allocated. -/
  next : s.1.next = before.next
  /-- Other objects do not change. -/
  outside : ∀ address, address ∉ order → s.1.get? address = before.get? address
  /-- The objects are alive. -/
  alive : ∀ address ∈ order, ∃ object, s.1.get? address = some object

variable {task : ObjectTask α τ ρ} {order : List Address} {initial : ρ} {combine : ρ → ρ → ρ}
  {heap : Heap α}

/-- A task that has ended does nothing. -/
theorem ObjectTask.step_of_result {address : Address} {own : τ} {r : Except Fault ρ}
    (hr : task.result own = some r) : task.step address heap own = (heap, own) := by
  unfold ObjectTask.step
  rw [hr]

/-- A turn of a task that has not ended writes its object. -/
theorem ObjectTask.step_of_some {address : Address} {own : τ} {object : α}
    (hnone : task.result own = none) (hobject : heap.get? address = some object) :
    task.step address heap own =
      (heap.put address (Heap.lt_next hobject) (some (task.turn own object).2),
        (task.turn own object).1) := by
  unfold ObjectTask.step
  rw [hnone, Heap.read_eq_ok.mpr hobject]
  dsimp only
  rw [Heap.write_of_some hobject]

/-- What a turn of a task does to the objects. -/
theorem ObjectTask.move_frame {address : Address} {s : Heap α × (Address → τ)} {object : α}
    (hobject : s.1.get? address = some object) :
    (∃ object', (move task.step address s).1.get? address = some object') ∧
      (move task.step address s).1.next = s.1.next ∧
      ∀ other, other ≠ address → (move task.step address s).1.get? other = s.1.get? other := by
  unfold move
  dsimp only
  cases hresult : task.result (s.2 address) with
  | some r =>
    rw [ObjectTask.step_of_result hresult]
    exact ⟨⟨object, hobject⟩, rfl, fun _ _ => rfl⟩
  | none =>
    rw [ObjectTask.step_of_some hresult hobject]
    exact ⟨⟨_, if_pos rfl⟩, rfl, fun other hother => if_neg hother⟩

/-- The tasks see nothing of each other. -/
theorem ObjectTask.separate (task : ObjectTask α τ ρ) (order : List Address) (initial : ρ)
    (combine : ρ → ρ → ρ) (before : Heap α) :
    Separate (task.batch order initial combine) (ObjectsKept order before)
      (fun address s => (s.2 address, s.1.get? address)) (fun _ => task.alone)
      (fun v => task.result v.1) where
  kept := by
    intro s address haddress h
    obtain ⟨object, hobject⟩ := h.alive address haddress
    obtain ⟨hself, hnext, hother⟩ := @ObjectTask.move_frame _ _ _ task address s object hobject
    refine ⟨hnext.trans h.next, fun other hnot => ?_, fun other hin => ?_⟩
    · refine (hother other ?_).trans (h.outside other hnot)
      rintro rfl
      exact hnot haddress
    · by_cases hne : other = address
      · subst hne
        exact hself
      · obtain ⟨object', hobject'⟩ := h.alive other hin
        exact ⟨object', (hother other hne).trans hobject'⟩
  own := by
    intro s address haddress h
    obtain ⟨object, hobject⟩ := h.alive address haddress
    rw [move_snd_self]
    unfold move ObjectTask.batch ObjectTask.alone
    dsimp only
    rw [hobject]
    cases hresult : task.result (s.2 address) with
    | some r =>
      rw [ObjectTask.step_of_result hresult]
      dsimp only
      rw [hobject]
    | none =>
      rw [ObjectTask.step_of_some hresult hobject]
      dsimp only
      rw [Heap.get?_put, if_pos rfl]
  other := by
    intro s address haddress other _ hne h
    obtain ⟨object, hobject⟩ := h.alive address haddress
    obtain ⟨_, _, hother⟩ := @ObjectTask.move_frame _ _ _ task address s object hobject
    rw [move_snd_of_ne (Ne.symm hne)]
    exact congrArg (Prod.mk (s.2 other)) (hother other (Ne.symm hne))
  sees _ _ := rfl
  settled _ _ _ _ hr := ObjectTask.step_of_result hr

/-- A call on the object at an address. -/
def objectCall (call : α → Except Fault ρ × α) (address : Address) (heap : Heap α) :
    Except Fault ρ × Heap α :=
  match heap.read address with
  | .error fault => (.error fault, heap)
  | .ok object =>
    match heap.write address (call object).2 with
    | .error fault => (.error fault, heap)
    | .ok heap => ((call object).1, heap)

/-- A call on a living object replaces it. -/
theorem objectCall_of_some {call : α → Except Fault ρ × α} {address : Address} {object : α}
    (hobject : heap.get? address = some object) :
    objectCall call address heap =
      ((call object).1, heap.put address (Heap.lt_next hobject) (some (call object).2)) := by
  unfold objectCall
  rw [Heap.read_eq_ok.mpr hobject]
  dsimp only
  rw [Heap.write_of_some hobject]

/-- The turns of one task change its own object at most. -/
theorem ObjectTask.run_frame {address : Address} {s : Heap α × (Address → τ)} {object : α}
    (hobject : s.1.get? address = some object) (turns : ℕ) {cell : Option α}
    (hcell : (Interleaving.run task.step (List.replicate turns address) s).1.get? address = cell) :
    ∃ object', cell = some object' ∧
      (Interleaving.run task.step (List.replicate turns address) s).1 =
        s.1.put address (Heap.lt_next hobject) (some object') := by
  have hframe := @Interleaving.run_induction _ _ _ _ [address] task.step
    (fun s' => (∃ object', s'.1.get? address = some object') ∧ s'.1.next = s.1.next ∧
      ∀ other, other ≠ address → s'.1.get? other = s.1.get? other) (by
      rintro s' i hi ⟨⟨object', hobject'⟩, hnext, hother⟩
      rw [List.mem_singleton.mp hi]
      obtain ⟨hself, hnext', hother'⟩ :=
        @ObjectTask.move_frame _ _ _ task address s' object' hobject'
      exact ⟨hself, hnext'.trans hnext, fun other hne => (hother' other hne).trans
        (hother other hne)⟩) s ⟨⟨object, hobject⟩, rfl, fun _ _ => rfl⟩
    (List.replicate turns address)
    fun other hother => List.mem_singleton.mpr (List.eq_of_mem_replicate hother)
  obtain ⟨⟨object', hobject'⟩, hnext, hother⟩ := hframe
  refine ⟨object', hcell.symm.trans hobject', Heap.eq_of_fields (fun other => ?_) hnext⟩
  rw [Heap.get?_put]
  split
  · rename_i heq
    rw [heq, hobject']
  · rename_i hne
    exact hother other hne

/-- The turns of a task that is left alone do what a call does, if they do so to every object. -/
theorem ObjectTask.realizes {start : τ} {call : α → Except Fault ρ × α}
    (hcall : ∀ object, ∃ own, Reaches task.alone (start, some object)
      (own, some (call object).2) ∧ task.result own = some (call object).1)
    (order : List Address) (initial : ρ) (combine : ρ → ρ → ρ) (before : Heap α) :
    Realizes (task.batch order initial combine) (fun _ => start) (ObjectsKept order before)
      (objectCall call) := by
  intro address haddress s hkept htask
  obtain ⟨object, hobject⟩ := hkept.alive address haddress
  obtain ⟨own, ⟨turns, hturns⟩, hresult⟩ := hcall object
  have hschedule : ∀ other ∈ List.replicate turns address,
      other ∈ (task.batch order initial combine).order :=
    fun other hother => List.eq_of_mem_replicate hother ▸ haddress
  have hview := (task.separate order initial combine before).view_run hkept hschedule haddress
  rw [List.count_replicate_self, htask, hobject, hturns] at hview
  obtain ⟨object', hcell, hheap⟩ :=
    ObjectTask.run_frame hobject turns (congrArg Prod.snd hview)
  cases hcell
  refine ⟨turns, ?_⟩
  rw [objectCall_of_some hobject]
  refine ⟨hheap, ?_⟩
  have hown := congrArg Prod.fst hview
  dsimp only at hown
  change task.result _ = _
  rw [hown]
  exact hresult

/-- A batch on objects of their own whose tasks do what calls do that return always ends, returns
what the caller makes of the values, and leaves every object as its call does and the others as
they were. -/
theorem ObjectTask.endsIn {start : τ} {call : α → Except Fault ρ × α}
    (hcall : ∀ object, ∃ own, Reaches task.alone (start, some object)
      (own, some (call object).2) ∧ task.result own = some (call object).1)
    (hnodup : order.Nodup) {pool : Pool} (hthreads : 0 < pool.threads)
    (halive : ∀ address ∈ order, ∃ object value, heap.get? address = some object ∧
      (call object).1 = .ok value) :
    EndsIn (task.batch order initial combine) pool heap (fun _ => start) fun s =>
      (∃ values, List.Forall₂ (fun address value => ∃ object, heap.get? address = some object ∧
          (call object).1 = .ok value) order values ∧
        s.caller = .returned (values.foldl combine initial)) ∧
      (∀ address ∈ order, ∀ object, heap.get? address = some object →
        s.shared.get? address = some (call object).2) ∧
      (∀ address, address ∉ order → s.shared.get? address = heap.get? address) ∧
      s.shared.next = heap.next := by
  have hseparate := task.separate order initial combine heap
  have hkept : ObjectsKept order heap (heap, fun _ : Address => start) :=
    ⟨rfl, fun _ _ => rfl, fun address haddress => by
      obtain ⟨object, _, hobject, _⟩ := halive address haddress
      exact ⟨object, hobject⟩⟩
  have hcalls := ObjectTask.realizes hcall order initial combine heap
  refine hseparate.endsIn hnodup hthreads hkept hcalls fun moves s hrun hback => ?_
  have hok : ∀ i ∈ (task.batch order initial combine).order,
      ∃ a, (objectCall call i heap).1 = .ok a := by
    intro address haddress
    obtain ⟨object, value, hobject, hvalue⟩ := halive address haddress
    rw [objectCall_of_some hobject]
    exact ⟨value, hvalue⟩
  obtain ⟨_, combined, hreturned⟩ :=
    (hseparate.reports_iff hnodup hthreads hkept hcalls).mpr hok moves s hrun hback
  obtain ⟨⟨values, hvalues, hcombined⟩, hviews⟩ :=
    hseparate.calls_of_returned hnodup hkept hcalls hrun hreturned
  obtain ⟨schedule, hinside, hschedule⟩ :=
    (sound_start (task.batch order initial combine) pool heap fun _ => start).exists_schedule
      hnodup hrun
  have hinv : ObjectsKept order heap (s.shared, s.tasks) := by
    rw [hschedule]
    exact Interleaving.run_induction (fun j => hseparate.kept j) hkept hinside
  refine ⟨⟨values, ?_, ?_⟩, fun address haddress object hobject => ?_, hinv.outside, hinv.next⟩
  · refine forall₂_of_mem hvalues fun address haddress value hvalue => ?_
    obtain ⟨object, _, hobject, _⟩ := halive address haddress
    rw [objectCall_of_some hobject] at hvalue
    exact ⟨object, hobject, hvalue⟩
  · rw [hreturned, ← hcombined]
    rfl
  · obtain ⟨tasks', hview⟩ := hviews address haddress
    rw [objectCall_of_some hobject] at hview
    have hcell := congrArg Prod.snd hview
    dsimp only at hcell
    rw [hcell, Heap.get?_put, if_pos rfl]

end TaskPool
