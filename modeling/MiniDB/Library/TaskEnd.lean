import MiniDB.Library.TaskPool
import Mathlib.Algebra.Order.BigOperators.Group.List
import Mathlib.Algebra.Order.Group.Nat
import Mathlib.Algebra.GroupWithZero.Nat

/-!
# The end of a batch

If every task ends after a number of its turns then every run of a batch ends: each move brings
it nearer to its end, and until the caller has control again there is a next move.
-/

namespace TaskPool

variable {ι σ τ ε α : Type} [DecidableEq ι] {b : Batch ι σ τ ε α} {pool : Pool}
  {s s' : State ι σ τ ε α}

/-- Every task ends after a number of its turns. -/
structure Bounded (b : Batch ι σ τ ε α) (Inv : σ × (ι → τ) → Prop)
    (left : ι → σ × (ι → τ) → ℕ) : Prop where
  /-- Turns keep the invariant. -/
  kept : ∀ {s}, ∀ i ∈ b.order, Inv s → Inv (Interleaving.move b.step i s)
  /-- A turn of a task that has not ended leaves fewer to do. -/
  fewer : ∀ {s : σ × (ι → τ)}, ∀ i ∈ b.order, Inv s → b.result (s.2 i) = none →
    left i (Interleaving.move b.step i s) < left i s
  /-- It does not leave more to another. -/
  other : ∀ {s}, ∀ i ∈ b.order, ∀ j ∈ b.order, i ≠ j → Inv s →
    left j (Interleaving.move b.step i s) ≤ left j s

/-- How far a task is from its end. -/
def distance (left : ι → σ × (ι → τ) → ℕ) (s : State ι σ τ ε α) (i : ι) : ℕ :=
  left i (s.shared, s.tasks) +
    match s.phase i with
    | .waiting => 3
    | .queued => 2
    | .running => 1
    | .done => 0

/-- How far the caller is from the end of the batch. -/
def Caller.distance (order : List ι) : Caller ι ε α → ℕ
  | .enqueuing rest => rest.length + order.length + 4
  | .collecting rest _ => rest.length + 2
  | .unwinding _ => 1
  | _ => 0

/-- How far a batch is from its end. -/
def potential (b : Batch ι σ τ ε α) (left : ι → σ × (ι → τ) → ℕ) (s : State ι σ τ ε α) : ℕ :=
  (b.order.map (distance left s)).sum + s.caller.distance b.order

/-- The tasks are nearer to their end if one of them is and no other is further. -/
private theorem sum_distance_lt {left : ι → σ × (ι → τ) → ℕ} {i : ι} (hi : i ∈ b.order)
    (hlt : distance left s' i < distance left s i)
    (hother : ∀ j ∈ b.order, j ≠ i → distance left s' j ≤ distance left s j) :
    (b.order.map (distance left s')).sum < (b.order.map (distance left s)).sum := by
  apply List.sum_lt_sum
  · intro j hj
    by_cases hji : j = i
    · rw [hji]
      exact hlt.le
    · exact hother j hj hji
  · exact ⟨i, hi, hlt⟩

/-- A task in a later phase is nearer to its end. -/
private theorem distance_put {left : ι → σ × (ι → τ) → ℕ} {i : ι} {phase : Phase} (hi : i ∈ b.order)
    (hlt : distance left (s.put i phase) i < distance left s i) :
    (b.order.map (distance left (s.put i phase))).sum < (b.order.map (distance left s)).sum := by
  apply sum_distance_lt hi hlt
  intro j _ hji
  unfold distance
  rw [State.put_phase, if_neg hji]
  exact le_rfl

/-- Every move brings a batch nearer to its end. -/
theorem Bounded.moved {Inv : σ × (ι → τ) → Prop} {left : ι → σ × (ι → τ) → ℕ}
    (h : Bounded b Inv left) (hinv : Inv (s.shared, s.tasks)) (hs : Sound b pool s) {move : Move ι}
    (hmoved : Moved b pool s move s') : potential b left s' < potential b left s := by
  have hstanding := hs.standing
  unfold Standing at hstanding
  unfold potential
  cases hmoved with
  | @enqueue i rest hcaller =>
    rw [hcaller] at hstanding
    obtain ⟨before, horder, hrest, _⟩ := hstanding
    have hi := hrest i List.mem_cons_self
    have hmem : i ∈ b.order := by
      rw [horder]
      exact List.mem_append_right before List.mem_cons_self
    have hsum := @distance_put _ _ _ _ _ _ b s left i .queued hmem (by
      unfold distance
      rw [State.put_phase, if_pos rfl, hi]
      exact Nat.lt_succ_self _)
    rw [hcaller]
    dsimp only [Caller.distance]
    rw [List.length_cons]
    change (b.order.map (distance left (s.put i .queued))).sum + _ < _
    omega
  | wait hcaller =>
    rw [hcaller]
    change (b.order.map (distance left s)).sum + (b.order.length + 2) <
      _ + (0 + b.order.length + 4)
    omega
  | @start i hqueued _ =>
    have hsum := @distance_put _ _ _ _ _ _ b s left i .running
      (hs.inside i (by rw [hqueued]; decide)) (by
        unfold distance
        rw [State.put_phase, if_pos rfl, hqueued]
        exact Nat.lt_succ_self _)
    exact Nat.add_lt_add_right hsum _
  | @work i hrunning hnone =>
    have hi := hs.inside i (by rw [hrunning]; decide)
    apply Nat.add_lt_add_right
    apply sum_distance_lt hi
    · exact Nat.add_lt_add_right (h.fewer i hi hinv hnone) _
    · intro j hj hji
      exact Nat.add_le_add_right (h.other i hi j hj (Ne.symm hji) hinv) _
  | @finish i r hrunning _ =>
    have hsum := @distance_put _ _ _ _ _ _ b s left i .done
      (hs.inside i (by rw [hrunning]; decide)) (by
        unfold distance
        rw [State.put_phase, if_pos rfl, hrunning]
        exact Nat.lt_succ_self _)
    exact Nat.add_lt_add_right hsum _
  | @get i rest combined a hcaller _ =>
    rw [hcaller]
    change (b.order.map (distance left s)).sum + (rest.length + 2) <
      _ + ((i :: rest).length + 2)
    rw [List.length_cons]
    omega
  | @rethrow i rest combined e hcaller _ =>
    rw [hcaller]
    change (b.order.map (distance left s)).sum + 1 < _ + ((i :: rest).length + 2)
    omega
  | @returned combined hcaller =>
    rw [hcaller]
    change (b.order.map (distance left s)).sum + 0 < _ + (0 + 2)
    omega
  | @leave e hcaller _ =>
    rw [hcaller]
    change (b.order.map (distance left s)).sum + 0 < _ + 1
    omega

/-- No run is longer than the batch is far from its end. -/
theorem Bounded.length_le {Inv : σ × (ι → τ) → Prop} {left : ι → σ × (ι → τ) → ℕ}
    (h : Bounded b Inv left) (hnodup : b.order.Nodup) (hinv : Inv (s.shared, s.tasks))
    (hs : Sound b pool s) {moves : List (Move ι)} (hrun : run b pool moves s = some s') :
    moves.length ≤ potential b left s := by
  induction moves generalizing s with
  | nil => exact Nat.zero_le _
  | cons move moves ih =>
    obtain ⟨s₁, hmoved, hrest⟩ := run_cons_eq_some.mp hrun
    have hlt := h.moved hinv hs hmoved
    have hle := ih (hmoved.inv (fun i => h.kept i) hinv hs) (hs.moved hnodup hmoved) hrest
    rw [List.length_cons]
    omega

/-- Every run of a batch ends, in a state with a property. -/
def EndsIn (b : Batch ι σ τ ε α) (pool : Pool) (shared : σ) (tasks : ι → τ)
    (P : State ι σ τ ε α → Prop) : Prop :=
  (∃ bound, ∀ moves s, run b pool moves (start b shared tasks) = some s → moves.length ≤ bound) ∧
  ∀ moves s, run b pool moves (start b shared tasks) = some s →
    (¬s.caller.GivenBack → CanMove b pool s) ∧ (s.caller.GivenBack → P s)

/-- Every run of a batch whose tasks end ends. -/
theorem Bounded.endsIn {Inv : σ × (ι → τ) → Prop} {left : ι → σ × (ι → τ) → ℕ}
    (h : Bounded b Inv left) (hnodup : b.order.Nodup) (hthreads : 0 < pool.threads) {shared : σ}
    {tasks : ι → τ} (hinv : Inv (shared, tasks)) {P : State ι σ τ ε α → Prop}
    (hend : ∀ moves s, run b pool moves (start b shared tasks) = some s → s.caller.GivenBack →
      P s) : EndsIn b pool shared tasks P := by
  have hsound := sound_start b pool shared tasks
  refine ⟨⟨_, fun moves s hrun => h.length_le hnodup hinv hsound hrun⟩, fun moves s hrun => ?_⟩
  exact ⟨(hsound.run hnodup hrun).canMove hthreads, hend moves s hrun⟩

/-- A run of a batch that ends can be brought to its end. -/
theorem EndsIn.exists_end {shared : σ} {tasks : ι → τ} {P : State ι σ τ ε α → Prop}
    (h : EndsIn b pool shared tasks P) {moves : List (Move ι)}
    (hrun : run b pool moves (start b shared tasks) = some s) :
    ∃ more s', run b pool more s = some s' ∧ s'.caller.GivenBack ∧ P s' := by
  obtain ⟨⟨bound, hbound⟩, hends⟩ := h
  -- induction on how many moves the bound leaves: every move uses one up
  induction hfar : bound - moves.length using Nat.strongRecOn generalizing moves s with
  | _ far ih =>
    obtain ⟨hmove, hback⟩ := hends moves s hrun
    by_cases hcaller : s.caller.GivenBack
    · exact ⟨[], s, rfl, hcaller, hback hcaller⟩
    · obtain ⟨move, s₁, hmoved⟩ := hmove hcaller
      have hone : run b pool [move] s = some s₁ := run_cons_eq_some.mpr ⟨s₁, hmoved, rfl⟩
      have hlong := run_append hrun hone
      have hless : bound - (moves ++ [move]).length < far := by
        have hle := hbound _ _ hlong
        rw [List.length_append, List.length_singleton] at hle ⊢
        omega
      obtain ⟨more, s', hmore, hend⟩ := ih _ hless hlong rfl
      exact ⟨move :: more, s', run_cons_eq_some.mpr ⟨s₁, hmoved, hmore⟩, hend⟩

end TaskPool
