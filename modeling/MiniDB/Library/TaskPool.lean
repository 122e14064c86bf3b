import MiniDB.Library.Interleaving
import Mathlib.Data.List.Forall2
import Mathlib.Data.List.Nodup

/-!
# Batches of tasks on a pool of threads

A caller puts one task after the other on a pool. Threads take them up in any order, as many
at a time as there are threads, and work on them by turns. The caller waits for the results in
the order of the tasks and combines them; the first error among them is thrown again. What
becomes of the tasks left then depends on whether futures wait for their tasks when they are
destroyed.
-/

namespace TaskPool

/-- Where a task is. -/
inductive Phase
  | waiting
  | queued
  | running
  | done
  deriving DecidableEq

/-- What the caller does: it has tasks left to put on the pool or results left to wait for, it
has returned, or an error is on its way or has arrived. -/
inductive Caller (ι ε α : Type)
  | enqueuing (rest : List ι)
  | collecting (rest : List ι) (combined : α)
  | returned (combined : α)
  | unwinding (error : ε)
  | threw (error : ε)

/-- Tasks and what is made of their results. -/
structure Batch (ι σ τ ε α : Type) where
  /-- The tasks, in order. -/
  order : List ι
  /-- One turn of a task on what is shared and on its own state. -/
  step : ι → σ → τ → σ × τ
  /-- How a task has ended. -/
  result : τ → Option (Except ε α)
  /-- What the caller starts with. -/
  initial : α
  /-- What the caller makes of one more result. -/
  combine : α → α → α

/-- A pool. -/
structure Pool where
  /-- How many tasks run at a time. -/
  threads : ℕ
  /-- Whether a future waits for its task when it is destroyed. -/
  waits : Bool

/-- A batch under way. -/
structure State (ι σ τ ε α : Type) where
  /-- What the tasks share. -/
  shared : σ
  /-- What each task has of its own. -/
  tasks : ι → τ
  /-- Where each task is. -/
  phase : ι → Phase
  /-- What the caller does. -/
  caller : Caller ι ε α

/-- What may happen next. -/
inductive Move (ι : Type)
  | enqueue
  | start (i : ι)
  | work (i : ι)
  | finish (i : ι)
  | get
  | leave

variable {ι σ τ ε α : Type} [DecidableEq ι]

/-- A batch before its first task is put on the pool. -/
def start (b : Batch ι σ τ ε α) (shared : σ) (tasks : ι → τ) : State ι σ τ ε α where
  shared := shared
  tasks := tasks
  phase _ := .waiting
  caller := .enqueuing b.order

/-- How many tasks are running. -/
def State.busy (s : State ι σ τ ε α) (order : List ι) : ℕ :=
  order.countP fun i => s.phase i = .running

/-- The state with a task in another phase. -/
def State.put (s : State ι σ τ ε α) (i : ι) (phase : Phase) : State ι σ τ ε α :=
  { s with phase := Function.update s.phase i phase }

/-- The state behind a turn of a task. -/
def State.turn (s : State ι σ τ ε α) (b : Batch ι σ τ ε α) (i : ι) : State ι σ τ ε α :=
  { s with
    shared := (Interleaving.move b.step i (s.shared, s.tasks)).1
    tasks := (Interleaving.move b.step i (s.shared, s.tasks)).2 }

/-- What a move does, if it is possible. -/
def act (b : Batch ι σ τ ε α) (pool : Pool) :
    Move ι → State ι σ τ ε α → Option (State ι σ τ ε α)
  | .enqueue, s =>
    match s.caller with
    | .enqueuing (i :: rest) => some { s.put i .queued with caller := .enqueuing rest }
    | .enqueuing [] => some { s with caller := .collecting b.order b.initial }
    | _ => none
  | .start i, s =>
    if s.phase i = .queued ∧ s.busy b.order < pool.threads then some (s.put i .running) else none
  | .work i, s =>
    if s.phase i = .running ∧ (b.result (s.tasks i)).isNone then some (s.turn b i) else none
  | .finish i, s =>
    if s.phase i = .running ∧ (b.result (s.tasks i)).isSome then some (s.put i .done) else none
  | .get, s =>
    match s.caller with
    | .collecting (i :: rest) combined =>
      match if s.phase i = .done then b.result (s.tasks i) else none with
      | some (.ok a) => some { s with caller := .collecting rest (b.combine combined a) }
      | some (.error e) => some { s with caller := .unwinding e }
      | none => none
    | .collecting [] combined => some { s with caller := .returned combined }
    | _ => none
  | .leave, s =>
    match s.caller with
    | .unwinding e =>
      if pool.waits = true → ∀ i ∈ b.order, s.phase i = .done then
        some { s with caller := .threw e }
      else none
    | _ => none

/-- Moves one after the other, if all are possible. -/
def run (b : Batch ι σ τ ε α) (pool : Pool) :
    List (Move ι) → State ι σ τ ε α → Option (State ι σ τ ε α)
  | [], s => some s
  | move :: moves, s => (act b pool move s).bind (run b pool moves)

/-- The caller has control again. -/
def Caller.GivenBack : Caller ι ε α → Prop
  | .returned _ => True
  | .threw _ => True
  | _ => False

/-- A task has ended and its result is there. -/
def Delivered (b : Batch ι σ τ ε α) (s : State ι σ τ ε α) (i : ι) (r : Except ε α) : Prop :=
  s.phase i = .done ∧ b.result (s.tasks i) = some r

/-- Tasks have ended well, with these results. -/
def Collected (b : Batch ι σ τ ε α) (s : State ι σ τ ε α) (tasks : List ι) (values : List α) :
    Prop :=
  List.Forall₂ (fun i a => Delivered b s i (.ok a)) tasks values

/-- What the caller knows. -/
def Standing (b : Batch ι σ τ ε α) (pool : Pool) (s : State ι σ τ ε α) : Prop :=
  match s.caller with
  | .enqueuing rest => ∃ before, b.order = before ++ rest ∧
      (∀ i ∈ rest, s.phase i = .waiting) ∧ ∀ i ∈ before, s.phase i ≠ .waiting
  | .collecting rest combined => (∀ i ∈ b.order, s.phase i ≠ .waiting) ∧
      ∃ before values, b.order = before ++ rest ∧ Collected b s before values ∧
        values.foldl b.combine b.initial = combined
  | .returned combined => ∃ values, Collected b s b.order values ∧
      values.foldl b.combine b.initial = combined
  | .unwinding e => (∀ i ∈ b.order, s.phase i ≠ .waiting) ∧
      ∃ i ∈ b.order, Delivered b s i (.error e)
  | .threw e => (∃ i ∈ b.order, Delivered b s i (.error e)) ∧
      (pool.waits = true → ∀ i ∈ b.order, s.phase i = .done)

/-- What holds of a batch under way. -/
structure Sound (b : Batch ι σ τ ε α) (pool : Pool) (s : State ι σ τ ε α) : Prop where
  /-- Only the tasks of the batch are on the pool. -/
  inside : ∀ i, s.phase i ≠ .waiting → i ∈ b.order
  /-- Tasks that are done have a result. -/
  ended : ∀ i, s.phase i = .done → ∃ r, b.result (s.tasks i) = some r
  /-- The caller has kept account. -/
  standing : Standing b pool s

/-- The moves that are possible, with what they need and what they do. -/
inductive Moved (b : Batch ι σ τ ε α) (pool : Pool) (s : State ι σ τ ε α) :
    Move ι → State ι σ τ ε α → Prop
  | enqueue {i : ι} {rest : List ι} : s.caller = .enqueuing (i :: rest) →
      Moved b pool s .enqueue { s.put i .queued with caller := .enqueuing rest }
  | wait : s.caller = .enqueuing [] →
      Moved b pool s .enqueue { s with caller := .collecting b.order b.initial }
  | start {i : ι} : s.phase i = .queued → s.busy b.order < pool.threads →
      Moved b pool s (.start i) (s.put i .running)
  | work {i : ι} : s.phase i = .running → b.result (s.tasks i) = none →
      Moved b pool s (.work i) (s.turn b i)
  | finish {i : ι} {r : Except ε α} : s.phase i = .running → b.result (s.tasks i) = some r →
      Moved b pool s (.finish i) (s.put i .done)
  | get {i : ι} {rest : List ι} {combined a : α} : s.caller = .collecting (i :: rest) combined →
      Delivered b s i (.ok a) →
      Moved b pool s .get { s with caller := .collecting rest (b.combine combined a) }
  | rethrow {i : ι} {rest : List ι} {combined : α} {e : ε} :
      s.caller = .collecting (i :: rest) combined → Delivered b s i (.error e) →
      Moved b pool s .get { s with caller := .unwinding e }
  | returned {combined : α} : s.caller = .collecting [] combined →
      Moved b pool s .get { s with caller := .returned combined }
  | leave {e : ε} : s.caller = .unwinding e →
      (pool.waits = true → ∀ i ∈ b.order, s.phase i = .done) →
      Moved b pool s .leave { s with caller := .threw e }

variable {b : Batch ι σ τ ε α} {pool : Pool} {s s' : State ι σ τ ε α}

/-- A move that is possible. -/
theorem act_eq_some {move : Move ι} : act b pool move s = some s' ↔ Moved b pool s move s' := by
  constructor
  · intro h
    cases move with
    | enqueue =>
      dsimp only [act] at h
      split at h
      · cases h
        exact .enqueue ‹_›
      · cases h
        exact .wait ‹_›
      · cases h
    | start i =>
      dsimp only [act] at h
      split at h
      · rename_i hqueued
        cases h
        exact .start hqueued.1 hqueued.2
      · cases h
    | work i =>
      dsimp only [act] at h
      split at h
      · rename_i hrunning
        cases h
        exact .work hrunning.1 (Option.isNone_iff_eq_none.mp hrunning.2)
      · cases h
    | finish i =>
      dsimp only [act] at h
      split at h
      · rename_i hrunning
        cases h
        obtain ⟨r, hr⟩ := Option.isSome_iff_exists.mp hrunning.2
        exact .finish hrunning.1 hr
      · cases h
    | get =>
      dsimp only [act] at h
      split at h
      · rename_i i rest combined hcaller
        by_cases hdone : s.phase i = .done
        · rw [if_pos hdone] at h
          split at h
          · rename_i a hresult
            cases h
            exact .get hcaller ⟨hdone, hresult⟩
          · rename_i e hresult
            cases h
            exact .rethrow hcaller ⟨hdone, hresult⟩
          · cases h
        · rw [if_neg hdone] at h
          cases h
      · cases h
        exact .returned ‹_›
      · cases h
    | leave =>
      dsimp only [act] at h
      split at h
      · split at h
        · cases h
          exact .leave ‹_› ‹_›
        · cases h
      · cases h
  · intro h
    cases h with
    | enqueue hcaller =>
      dsimp only [act]
      rw [hcaller]
    | wait hcaller =>
      dsimp only [act]
      rw [hcaller]
    | start hqueued hbusy => exact if_pos ⟨hqueued, hbusy⟩
    | work hrunning hnone => exact if_pos ⟨hrunning, Option.isNone_iff_eq_none.mpr hnone⟩
    | finish hrunning hr => exact if_pos ⟨hrunning, Option.isSome_iff_exists.mpr ⟨_, hr⟩⟩
    | get hcaller hdelivered =>
      dsimp only [act]
      rw [hcaller]
      dsimp only
      rw [if_pos hdelivered.1, hdelivered.2]
    | rethrow hcaller hdelivered =>
      dsimp only [act]
      rw [hcaller]
      dsimp only
      rw [if_pos hdelivered.1, hdelivered.2]
    | returned hcaller =>
      dsimp only [act]
      rw [hcaller]
    | leave hcaller hwaits =>
      dsimp only [act]
      rw [hcaller]
      exact if_pos hwaits

/-- A first move and the moves behind it. -/
theorem run_cons_eq_some {move : Move ι} {moves : List (Move ι)} :
    run b pool (move :: moves) s = some s' ↔
      ∃ s₁, Moved b pool s move s₁ ∧ run b pool moves s₁ = some s' := by
  change (act b pool move s).bind (run b pool moves) = some s' ↔ _
  rw [Option.bind_eq_some_iff]
  constructor
  · rintro ⟨s₁, hact, hrest⟩
    exact ⟨s₁, act_eq_some.mp hact, hrest⟩
  · rintro ⟨s₁, hmoved, hrest⟩
    exact ⟨s₁, act_eq_some.mpr hmoved, hrest⟩

/-- Moves behind moves. -/
theorem run_append {first second : List (Move ι)} {s₁ : State ι σ τ ε α}
    (hfirst : run b pool first s = some s₁) (hsecond : run b pool second s₁ = some s') :
    run b pool (first ++ second) s = some s' := by
  induction first generalizing s with
  | nil =>
    cases hfirst
    exact hsecond
  | cons move first ih =>
    obtain ⟨s₂, hmoved, hrest⟩ := run_cons_eq_some.mp hfirst
    exact run_cons_eq_some.mpr ⟨s₂, hmoved, ih hrest⟩

/-- A state that holds the invariant at every move holds it at the end. -/
theorem run_induction {P : State ι σ τ ε α → Prop}
    (hmove : ∀ {s s' move}, P s → Moved b pool s move s' → P s') {moves : List (Move ι)} (hs : P s)
    (h : run b pool moves s = some s') : P s' := by
  induction moves generalizing s with
  | nil =>
    cases h
    exact hs
  | cons move moves ih =>
    obtain ⟨s₁, hmoved, hrest⟩ := run_cons_eq_some.mp h
    exact ih (hmove hs hmoved) hrest

/-- The phase of a task behind a change. -/
theorem State.put_phase (i j : ι) (phase : Phase) :
    (s.put i phase).phase j = if j = i then phase else s.phase j := by
  unfold State.put
  exact Function.update_apply _ _ _ _

/-- What has been delivered stays so, and a task that is on the pool stays there. -/
theorem Moved.frame {move : Move ι} (h : Moved b pool s move s') (hs : Sound b pool s) :
    (∀ j r, Delivered b s j r → Delivered b s' j r) ∧
      ∀ j, s.phase j ≠ .waiting → s'.phase j ≠ .waiting := by
  cases h with
  | enqueue hcaller =>
    rename_i i rest
    have hstanding := hs.standing
    unfold Standing at hstanding
    rw [hcaller] at hstanding
    obtain ⟨_, _, hwaiting, _⟩ := hstanding
    have hi := hwaiting i List.mem_cons_self
    have hphase : ∀ j, s.phase j ≠ .waiting → (s.put i .queued).phase j = s.phase j := by
      intro j hj
      rw [State.put_phase, if_neg]
      rintro rfl
      exact hj hi
    refine ⟨fun j r hj => ⟨?_, hj.2⟩, fun j hj => ?_⟩
    · exact (hphase j (by rw [hj.1]; decide)).trans hj.1
    · exact (hphase j hj).trans_ne hj
  | start hqueued _ =>
    refine ⟨fun j r hj => ⟨?_, hj.2⟩, fun j hj => ?_⟩
    · rw [State.put_phase, if_neg, hj.1]
      rintro rfl
      exact absurd (hqueued.symm.trans hj.1) (by decide)
    · rw [State.put_phase]
      split
      · decide
      · exact hj
  | work hrunning hnone =>
    refine ⟨fun j r hj => ⟨hj.1, ?_⟩, fun j hj => hj⟩
    unfold State.turn
    dsimp only
    rw [Interleaving.move_snd_of_ne, hj.2]
    rintro rfl
    cases hnone.symm.trans hj.2
  | finish hrunning hr =>
    refine ⟨fun j r hj => ⟨?_, hj.2⟩, fun j hj => ?_⟩
    · rw [State.put_phase, hj.1, ite_self]
    · rw [State.put_phase]
      split
      · decide
      · exact hj
  | _ => exact ⟨fun j r hj => hj, fun j hj => hj⟩

omit [DecidableEq ι] in
/-- What has been collected stays so. -/
theorem Collected.mono {tasks : List ι} {values : List α} (h : Collected b s tasks values)
    (hkept : ∀ j r, Delivered b s j r → Delivered b s' j r) : Collected b s' tasks values :=
  h.imp fun i _ hi => hkept i _ hi

omit [DecidableEq ι] in
/-- The caller's account survives moves of the tasks. -/
theorem Standing.mono (h : Standing b pool s) (hcaller : s'.caller = s.caller)
    (hkept : ∀ j r, Delivered b s j r → Delivered b s' j r)
    (hphase : ∀ j, s.phase j ≠ .waiting → s'.phase j ≠ .waiting)
    (hwaiting : ∀ j, s.phase j = .waiting → s'.phase j = .waiting)
    (hdone : ∀ j, s.phase j = .done → s'.phase j = .done) : Standing b pool s' := by
  unfold Standing at h ⊢
  rw [hcaller]
  cases hs : s.caller with
  | enqueuing rest =>
    rw [hs] at h
    obtain ⟨before, horder, hrest, hbefore⟩ := h
    exact ⟨before, horder, fun i hi => hwaiting i (hrest i hi), fun i hi => hphase i (hbefore i hi)⟩
  | collecting rest combined =>
    rw [hs] at h
    obtain ⟨hall, before, values, horder, hcollected, hcombined⟩ := h
    exact ⟨fun i hi => hphase i (hall i hi), before, values, horder, hcollected.mono hkept,
      hcombined⟩
  | returned combined =>
    rw [hs] at h
    obtain ⟨values, hcollected, hcombined⟩ := h
    exact ⟨values, hcollected.mono hkept, hcombined⟩
  | unwinding e =>
    rw [hs] at h
    obtain ⟨hall, i, hi, hdelivered⟩ := h
    exact ⟨fun j hj => hphase j (hall j hj), i, hi, hkept i _ hdelivered⟩
  | threw e =>
    rw [hs] at h
    obtain ⟨⟨i, hi, hdelivered⟩, hwaits⟩ := h
    exact ⟨⟨i, hi, hkept i _ hdelivered⟩, fun hpool j hj => hdone j (hwaits hpool j hj)⟩

/-- A task on the pool changes its phase without the caller noticing. -/
private theorem Sound.put (hs : Sound b pool s) {i : ι} {phase : Phase} (hi : s.phase i ≠ .waiting)
    (hnot : s.phase i ≠ .done) (hphase : phase ≠ .waiting)
    (hended : phase = .done → ∃ r, b.result (s.tasks i) = some r) :
    Sound b pool (s.put i phase) := by
  have hother : ∀ j, s.phase j = .waiting → (s.put i phase).phase j = .waiting := by
    intro j hj
    rw [State.put_phase, if_neg, hj]
    rintro rfl
    exact hi hj
  have hdone : ∀ j, s.phase j = .done → (s.put i phase).phase j = .done := by
    intro j hj
    rw [State.put_phase, if_neg, hj]
    rintro rfl
    exact hnot hj
  have hkept : ∀ j, s.phase j ≠ .waiting → (s.put i phase).phase j ≠ .waiting := by
    intro j hj
    rw [State.put_phase]
    split
    · exact hphase
    · exact hj
  refine ⟨fun j hj => ?_, fun j hj => ?_, ?_⟩
  · apply hs.inside
    intro hwaiting
    exact hj (hother j hwaiting)
  · rw [State.put_phase] at hj
    split at hj
    · rename_i hji
      subst hji
      exact hended hj
    · exact hs.ended j hj
  · exact hs.standing.mono rfl (fun j r hj => ⟨hdone j hj.1, hj.2⟩) hkept hother hdone

omit [DecidableEq ι] in
/-- The invariant when the caller alone moves. -/
private theorem Sound.of_caller (hs : Sound b pool s) {caller : Caller ι ε α}
    (h : Standing b pool { s with caller := caller }) :
    Sound b pool { s with caller := caller } := ⟨hs.inside, hs.ended, h⟩

/-- Every move keeps the invariant. -/
theorem Sound.moved (hs : Sound b pool s) (hnodup : b.order.Nodup) {move : Move ι}
    (h : Moved b pool s move s') : Sound b pool s' := by
  have hframe := h.frame hs
  have hstanding := hs.standing
  unfold Standing at hstanding
  cases h with
  | @enqueue i rest hcaller =>
    rw [hcaller] at hstanding
    obtain ⟨before, horder, hrest, hbefore⟩ := hstanding
    have hi := hrest i List.mem_cons_self
    refine ⟨fun j hj => ?_, fun j hj => ?_, before ++ [i], ?_, fun j hj => ?_, fun j hj => ?_⟩
    · dsimp only at hj
      rw [State.put_phase] at hj
      split at hj
      · rename_i hji
        rw [hji, horder]
        exact List.mem_append_right before List.mem_cons_self
      · exact hs.inside j hj
    · dsimp only at hj
      rw [State.put_phase] at hj
      split at hj
      · cases hj
      · exact hs.ended j hj
    · rw [horder, List.append_assoc, List.singleton_append]
    · dsimp only
      rw [State.put_phase, if_neg, hrest j (List.mem_cons_of_mem i hj)]
      rintro rfl
      rw [horder] at hnodup
      exact (List.nodup_cons.mp (List.nodup_append.mp hnodup).2.1).1 hj
    · dsimp only
      rw [State.put_phase]
      rcases List.mem_append.mp hj with hj | hj
      · split
        · decide
        · exact hbefore j hj
      · rw [if_pos (List.mem_singleton.mp hj)]
        decide
  | wait hcaller =>
    rw [hcaller] at hstanding
    obtain ⟨before, horder, _, hbefore⟩ := hstanding
    rw [List.append_nil] at horder
    apply hs.of_caller
    exact ⟨fun i hi => hbefore i (horder ▸ hi), [], [], rfl, .nil, rfl⟩
  | start hqueued _ =>
    apply hs.put
    · rw [hqueued]
      decide
    · rw [hqueued]
      decide
    · decide
    · nofun
  | @work i hrunning hnone =>
    refine ⟨hs.inside, fun j hj => ?_, ?_⟩
    · obtain ⟨r, hr⟩ := hs.ended j hj
      exact ⟨r, (hframe.1 j r ⟨hj, hr⟩).2⟩
    · exact hs.standing.mono rfl hframe.1 hframe.2 (fun _ hj => hj) fun _ hj => hj
  | finish hrunning hr =>
    apply hs.put
    · rw [hrunning]
      decide
    · rw [hrunning]
      decide
    · decide
    · exact fun _ => ⟨_, hr⟩
  | @get i rest combined a hcaller hdelivered =>
    rw [hcaller] at hstanding
    obtain ⟨hall, before, values, horder, hcollected, hcombined⟩ := hstanding
    apply hs.of_caller
    refine ⟨hall, before ++ [i], values ++ [a], ?_, ?_, ?_⟩
    · rw [horder, List.append_assoc, List.singleton_append]
    · exact List.rel_append hcollected (.cons hdelivered .nil)
    · rw [List.foldl_append, hcombined]
      rfl
  | @rethrow i rest combined e hcaller hdelivered =>
    rw [hcaller] at hstanding
    obtain ⟨hall, before, values, horder, _⟩ := hstanding
    apply hs.of_caller
    refine ⟨hall, i, ?_, hdelivered⟩
    rw [horder]
    exact List.mem_append_right before List.mem_cons_self
  | returned hcaller =>
    rw [hcaller] at hstanding
    obtain ⟨_, before, values, horder, hcollected, hcombined⟩ := hstanding
    rw [List.append_nil] at horder
    apply hs.of_caller
    exact ⟨values, horder ▸ hcollected, hcombined⟩
  | leave hcaller hwaits =>
    rw [hcaller] at hstanding
    exact hs.of_caller ⟨hstanding.2, hwaits⟩

omit [DecidableEq ι] in
/-- A batch starts with the invariant. -/
theorem sound_start (b : Batch ι σ τ ε α) (pool : Pool) (shared : σ) (tasks : ι → τ) :
    Sound b pool (start b shared tasks) :=
  ⟨fun _ hi => absurd rfl hi, fun _ hi => (nomatch hi), [], rfl, fun _ _ => rfl,
    fun _ hi => absurd hi List.not_mem_nil⟩

/-- Every run keeps the invariant. -/
theorem Sound.run (hs : Sound b pool s) (hnodup : b.order.Nodup) {moves : List (Move ι)}
    (h : TaskPool.run b pool moves s = some s') : Sound b pool s' :=
  run_induction (fun hsound hmoved => hsound.moved hnodup hmoved) hs h

/-- A state in which a move is possible. -/
def CanMove (b : Batch ι σ τ ε α) (pool : Pool) (s : State ι σ τ ε α) : Prop :=
  ∃ move s', Moved b pool s move s'

/-- A running task can take a turn or end. -/
theorem canMove_of_running {i : ι} (h : s.phase i = .running) : CanMove b pool s := by
  cases hresult : b.result (s.tasks i) with
  | none => exact ⟨_, _, .work h hresult⟩
  | some r => exact ⟨_, _, .finish h hresult⟩

/-- As long as a task on the pool is not done, a move is possible. -/
theorem canMove_of_not_done (hthreads : 0 < pool.threads) {i : ι} (hwaiting : s.phase i ≠ .waiting)
    (hdone : s.phase i ≠ .done) : CanMove b pool s := by
  cases hphase : s.phase i with
  | waiting => exact absurd hphase hwaiting
  | done => exact absurd hphase hdone
  | running => exact canMove_of_running hphase
  | queued =>
    by_cases hbusy : s.busy b.order < pool.threads
    · exact ⟨_, _, .start hphase hbusy⟩
    · have hsome : 0 < s.busy b.order := by omega
      obtain ⟨j, _, hj⟩ := List.countP_pos_iff.mp hsome
      exact canMove_of_running (of_decide_eq_true hj)

/-- As long as the caller has not control again, a move is possible. -/
theorem Sound.canMove (hs : Sound b pool s) (hthreads : 0 < pool.threads)
    (hcaller : ¬s.caller.GivenBack) : CanMove b pool s := by
  have hstanding := hs.standing
  unfold Standing at hstanding
  cases h : s.caller with
  | enqueuing rest =>
    cases rest with
    | nil => exact ⟨_, _, .wait h⟩
    | cons i rest => exact ⟨_, _, .enqueue h⟩
  | collecting rest combined =>
    rw [h] at hstanding
    obtain ⟨hall, before, values, horder, _⟩ := hstanding
    cases rest with
    | nil => exact ⟨_, _, .returned h⟩
    | cons i rest =>
      have hi : i ∈ b.order := by
        rw [horder]
        exact List.mem_append_right before List.mem_cons_self
      by_cases hdone : s.phase i = .done
      · obtain ⟨r, hr⟩ := hs.ended i hdone
        cases r with
        | error e => exact ⟨_, _, .rethrow h ⟨hdone, hr⟩⟩
        | ok a => exact ⟨_, _, .get h ⟨hdone, hr⟩⟩
      · exact canMove_of_not_done hthreads (hall i hi) hdone
  | returned combined =>
    rw [h] at hcaller
    exact absurd trivial hcaller
  | unwinding e =>
    rw [h] at hstanding
    obtain ⟨hall, _⟩ := hstanding
    by_cases hdone : ∀ i ∈ b.order, s.phase i = .done
    · exact ⟨_, _, .leave h fun _ => hdone⟩
    · push Not at hdone
      obtain ⟨i, hi, hnot⟩ := hdone
      exact canMove_of_not_done hthreads (hall i hi) hnot
  | threw e =>
    rw [h] at hcaller
    exact absurd trivial hcaller

/-- Moves keep what the turns of the tasks keep. -/
theorem Moved.inv {Inv : σ × (ι → τ) → Prop}
    (hkept : ∀ {s}, ∀ i ∈ b.order, Inv s → Inv (Interleaving.move b.step i s))
    (hinv : Inv (s.shared, s.tasks)) (hs : Sound b pool s) {move : Move ι}
    (h : Moved b pool s move s') : Inv (s'.shared, s'.tasks) := by
  cases h with
  | @work i hrunning _ => exact hkept i (hs.inside i (by rw [hrunning]; decide)) hinv
  | _ => exact hinv

/-- The tasks of a batch take turns according to some schedule. -/
theorem Sound.exists_schedule (hs : Sound b pool s) (hnodup : b.order.Nodup)
    {moves : List (Move ι)} (h : TaskPool.run b pool moves s = some s') :
    ∃ schedule : List ι, (∀ i ∈ schedule, i ∈ b.order) ∧
      (s'.shared, s'.tasks) = Interleaving.run b.step schedule (s.shared, s.tasks) := by
  induction moves generalizing s with
  | nil =>
    cases h
    exact ⟨[], fun _ hi => absurd hi List.not_mem_nil, rfl⟩
  | cons move moves ih =>
    obtain ⟨s₁, hmoved, hrest⟩ := run_cons_eq_some.mp h
    obtain ⟨schedule, hschedule, heq⟩ := ih (hs.moved hnodup hmoved) hrest
    cases hmoved with
    | @work i hrunning _ =>
      refine ⟨i :: schedule, ?_, heq⟩
      intro j hj
      rcases List.mem_cons.mp hj with rfl | hj
      · exact hs.inside j (by rw [hrunning]; decide)
      · exact hschedule j hj
    | _ => exact ⟨schedule, hschedule, heq⟩

/-- A task that has a result is not changed any more. -/
theorem tasks_of_run {j : ι} {r : Except ε α} (hr : b.result (s.tasks j) = some r)
    {moves : List (Move ι)} (h : run b pool moves s = some s') : s'.tasks j = s.tasks j := by
  suffices hkept : b.result (s'.tasks j) = some r ∧ s'.tasks j = s.tasks j from hkept.2
  refine run_induction (P := fun s' => b.result (s'.tasks j) = some r ∧ s'.tasks j = s.tasks j) ?_
    ⟨hr, rfl⟩ h
  rintro s₁ s₂ move ⟨hresult, htask⟩ hmoved
  cases hmoved with
  | @work i _ hnone =>
    have hji : j ≠ i := by
      rintro rfl
      cases hnone.symm.trans hresult
    unfold State.turn
    dsimp only
    rw [Interleaving.move_snd_of_ne hji]
    exact ⟨hresult, htask⟩
  | _ => exact ⟨hresult, htask⟩

section Schedules

/-- All tasks can be put on the pool. -/
private theorem exists_enqueued {rest : List ι} (hcaller : s.caller = .enqueuing rest) :
    ∃ moves s', run b pool moves s = some s' ∧ s'.caller = .enqueuing [] ∧
      (s'.shared, s'.tasks) = (s.shared, s.tasks) ∧
      ∀ i, s'.phase i = if i ∈ rest then .queued else s.phase i := by
  induction rest generalizing s with
  | nil => exact ⟨[], s, rfl, hcaller, rfl, fun _ => (if_neg List.not_mem_nil).symm⟩
  | cons i rest ih =>
    obtain ⟨moves, s', hrun, hcaller', hsame, hphase⟩ :=
      @ih { s.put i .queued with caller := .enqueuing rest } rfl
    refine ⟨.enqueue :: moves, s', run_cons_eq_some.mpr ⟨_, .enqueue hcaller, hrun⟩, hcaller',
      hsame, fun j => ?_⟩
    rw [hphase j]
    dsimp only
    rw [State.put_phase]
    by_cases hj : j ∈ rest
    · rw [if_pos hj, if_pos (List.mem_cons_of_mem i hj)]
    · rw [if_neg hj]
      by_cases hji : j = i
      · rw [if_pos hji, if_pos (List.mem_cons.mpr (Or.inl hji))]
      · rw [if_neg hji, if_neg (by simp [hji, hj])]

/-- With a thread for every task all queued tasks can be started. -/
private theorem exists_started (hthreads : b.order.length ≤ pool.threads) {tasks : List ι}
    (hnodup : tasks.Nodup) (htasks : ∀ i ∈ tasks, i ∈ b.order ∧ s.phase i = .queued) :
    ∃ moves s', run b pool moves s = some s' ∧ (s'.shared, s'.tasks) = (s.shared, s.tasks) ∧
      ∀ i, s'.phase i = if i ∈ tasks then .running else s.phase i := by
  induction tasks generalizing s with
  | nil => exact ⟨[], s, rfl, rfl, fun _ => (if_neg List.not_mem_nil).symm⟩
  | cons i tasks ih =>
    obtain ⟨hi, hqueued⟩ := htasks i List.mem_cons_self
    rw [List.nodup_cons] at hnodup
    have hbusy : s.busy b.order < pool.threads := by
      refine Nat.lt_of_lt_of_le ?_ hthreads
      apply Nat.lt_of_le_of_ne List.countP_le_length
      intro hall
      have hrunning := List.countP_eq_length.mp hall i hi
      rw [hqueued] at hrunning
      cases of_decide_eq_true hrunning
    obtain ⟨moves, s', hrun, hsame, hphase⟩ := @ih (s.put i .running) hnodup.2 (by
      intro j hj
      refine ⟨(htasks j (List.mem_cons_of_mem i hj)).1, ?_⟩
      rw [State.put_phase, if_neg, (htasks j (List.mem_cons_of_mem i hj)).2]
      rintro rfl
      exact hnodup.1 hj)
    refine ⟨.start i :: moves, s', run_cons_eq_some.mpr ⟨_, .start hqueued hbusy, hrun⟩, hsame,
      fun j => ?_⟩
    rw [hphase j, State.put_phase]
    by_cases hj : j ∈ tasks
    · rw [if_pos hj, if_pos (List.mem_cons_of_mem i hj)]
    · rw [if_neg hj]
      by_cases hji : j = i
      · rw [if_pos hji, if_pos (List.mem_cons.mpr (Or.inl hji))]
      · rw [if_neg hji, if_neg (by simp [hji, hj])]

/-- Tasks that run can take turns in any order. -/
private theorem exists_worked
    (hsettled : ∀ i shared t r, b.result t = some r → b.step i shared t = (shared, t))
    {schedule : List ι} (hrunning : ∀ i ∈ schedule, s.phase i = .running) :
    ∃ moves s', run b pool moves s = some s' ∧
      (s'.shared, s'.tasks) = Interleaving.run b.step schedule (s.shared, s.tasks) := by
  induction schedule generalizing s with
  | nil => exact ⟨[], s, rfl, rfl⟩
  | cons i schedule ih =>
    rw [List.forall_mem_cons] at hrunning
    cases hresult : b.result (s.tasks i) with
    | none =>
      obtain ⟨moves, s', hrun, heq⟩ := @ih (s.turn b i) hrunning.2
      exact ⟨.work i :: moves, s',
        run_cons_eq_some.mpr ⟨_, .work hrunning.1 hresult, hrun⟩, heq⟩
    | some r =>
      obtain ⟨moves, s', hrun, heq⟩ := ih hrunning.2
      refine ⟨moves, s', hrun, heq.trans ?_⟩
      conv_rhs => unfold Interleaving.run
      rw [Interleaving.move_eq_self (hsettled i _ _ r hresult)]

/-- With a thread for every task, every schedule can come about. -/
theorem exists_run_of_schedule (hthreads : b.order.length ≤ pool.threads)
    (hnodup : b.order.Nodup)
    (hsettled : ∀ i shared t r, b.result t = some r → b.step i shared t = (shared, t))
    {schedule : List ι} (hschedule : ∀ i ∈ schedule, i ∈ b.order) (shared : σ) (tasks : ι → τ) :
    ∃ moves s', run b pool moves (start b shared tasks) = some s' ∧
      (s'.shared, s'.tasks) = Interleaving.run b.step schedule (shared, tasks) := by
  obtain ⟨enqueues, s₁, hrun₁, _, hsame₁, hphase₁⟩ :=
    @exists_enqueued _ _ _ _ _ _ b pool (start b shared tasks) _ rfl
  obtain ⟨starts, s₂, hrun₂, hsame₂, hphase₂⟩ :=
    @exists_started _ _ _ _ _ _ b pool s₁ hthreads _ hnodup (by
      intro i hi
      exact ⟨hi, by rw [hphase₁, if_pos hi]⟩)
  obtain ⟨works, s₃, hrun₃, heq⟩ :=
    @exists_worked _ _ _ _ _ _ b pool s₂ hsettled schedule (by
      intro i hi
      rw [hphase₂, if_pos (hschedule i hi)])
  refine ⟨enqueues ++ (starts ++ works), s₃, run_append hrun₁ (run_append hrun₂ hrun₃), ?_⟩
  rw [heq, hsame₂, hsame₁]
  rfl

end Schedules

end TaskPool
