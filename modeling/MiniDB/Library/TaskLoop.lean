import MiniDB.Library.TaskEnd
import Mathlib.Order.Lattice.Nat

/-!
# Batches and loops

A batch of independent tasks on a pool does what a loop does that calls one task after the
other: every run ends, with the result of the loop, and every task leaves what its call leaves.
-/

namespace TaskPool

open Interleaving

variable {ι σ τ ε α β : Type}

/-- A loop over calls that combines their results; the first error ends it. -/
def loop (combine : α → α → α) (call : ι → σ → Except ε α × σ) :
    List ι → α → σ → Except ε α × σ
  | [], combined, shared => (.ok combined, shared)
  | i :: rest, combined, shared =>
    match call i shared with
    | (.error e, shared) => (.error e, shared)
    | (.ok a, shared) => loop combine call rest (combine combined a) shared

/-- Every task has a place in the list of results. -/
theorem exists_value {R : ι → α → Prop} {tasks : List ι} {values : List α}
    (h : List.Forall₂ R tasks values) {i : ι} (hi : i ∈ tasks) : ∃ a ∈ values, R i a := by
  induction h with
  | nil => cases hi
  | cons ha _ ih =>
    rcases List.mem_cons.mp hi with rfl | hi
    · exact ⟨_, List.mem_cons_self, ha⟩
    · obtain ⟨a, hmem, ha⟩ := ih hi
      exact ⟨a, List.mem_cons_of_mem _ hmem, ha⟩

/-- Results with a property that holds of the tasks there are. -/
theorem forall₂_of_mem {R S : ι → α → Prop} {tasks : List ι} {values : List α}
    (h : List.Forall₂ R tasks values) (himp : ∀ i ∈ tasks, ∀ a, R i a → S i a) :
    List.Forall₂ S tasks values := by
  induction h with
  | nil => exact .nil
  | cons ha _ ih =>
    rw [List.forall_mem_cons] at himp
    exact .cons (himp.1 _ ha) (ih himp.2)

variable [DecidableEq ι]

/-- A call does what the turns of a task do that is left alone. -/
def Realizes (b : Batch ι σ τ ε α) (tasks : ι → τ) (Inv : σ × (ι → τ) → Prop)
    (call : ι → σ → Except ε α × σ) : Prop :=
  ∀ i ∈ b.order, ∀ s, Inv s → s.2 i = tasks i → ∃ turns,
    (Interleaving.run b.step (List.replicate turns i) s).1 = (call i s.1).2 ∧
    b.result ((Interleaving.run b.step (List.replicate turns i) s).2 i) = some (call i s.1).1

variable {b : Batch ι σ τ ε α} {pool : Pool}

/-- A call whose end the turns of a task reach. -/
theorem realizes_of_reaches {tasks : ι → τ} {Inv : σ × (ι → τ) → Prop}
    {call : ι → σ → Except ε α × σ}
    (h : ∀ i ∈ b.order, ∀ s, Inv s → s.2 i = tasks i → ∃ t,
      Reaches (fun p : σ × τ => b.step i p.1 p.2) (s.1, tasks i) ((call i s.1).2, t) ∧
        b.result t = some (call i s.1).1) : Realizes b tasks Inv call := by
  intro i hi s hinv htask
  obtain ⟨t, hreaches, hresult⟩ := h i hi s hinv htask
  rw [← htask] at hreaches
  obtain ⟨turns, hshared, hown, _⟩ := hreaches.exists_run
  refine ⟨turns, hshared, ?_⟩
  rw [hown]
  exact hresult

/-- A loop is a schedule in which every task has its turns at a stretch. -/
theorem Realizes.exists_schedule {tasks : ι → τ} {Inv : σ × (ι → τ) → Prop}
    {call : ι → σ → Except ε α × σ} (h : Realizes b tasks Inv call)
    (hkept : ∀ {s}, ∀ i ∈ b.order, Inv s → Inv (move b.step i s)) {rest : List ι}
    (hrest : ∀ i ∈ rest, i ∈ b.order) (hnodup : rest.Nodup) {s : σ × (ι → τ)} (hinv : Inv s)
    (htasks : ∀ i ∈ rest, s.2 i = tasks i) {combined total : α} {shared : σ}
    (hloop : loop b.combine call rest combined s.1 = (.ok total, shared)) :
    ∃ schedule : List ι, (∀ i ∈ schedule, i ∈ rest) ∧
      (Interleaving.run b.step schedule s).1 = shared ∧ ∃ values,
        List.Forall₂ (fun i a =>
          b.result ((Interleaving.run b.step schedule s).2 i) = some (.ok a)) rest values ∧
        values.foldl b.combine combined = total := by
  induction rest generalizing s combined with
  | nil =>
    cases hloop
    exact ⟨[], fun _ hi => absurd hi List.not_mem_nil, rfl, [], .nil, rfl⟩
  | cons i rest ih =>
    rw [List.forall_mem_cons] at hrest htasks
    rw [List.nodup_cons] at hnodup
    obtain ⟨turns, hshared, hresult⟩ := h i hrest.1 s hinv htasks.1
    have hturns : ∀ j ∈ List.replicate turns i, j ∈ b.order :=
      fun j hj => List.eq_of_mem_replicate hj ▸ hrest.1
    have hinv' := Interleaving.run_induction hkept hinv hturns
    have hother : ∀ j ∈ rest,
        (Interleaving.run b.step (List.replicate turns i) s).2 j = tasks j := by
      intro j hj
      rw [run_snd_of_not_mem, htasks.2 j hj]
      intro hmem
      rw [List.eq_of_mem_replicate hmem] at hj
      exact hnodup.1 hj
    unfold loop at hloop
    cases hcall : call i s.1 with
    | mk r shared₁ =>
      rw [hcall] at hloop hshared hresult
      cases r with
      | error e => cases hloop
      | ok a =>
        dsimp only at hloop hshared hresult
        rw [← hshared] at hloop
        obtain ⟨schedule, hschedule, hend, values, hvalues, htotal⟩ :=
          ih hrest.2 hnodup.2 hinv' hother hloop
        have hi : i ∉ schedule := fun hmem => hnodup.1 (hschedule i hmem)
        refine ⟨List.replicate turns i ++ schedule, fun j hj => ?_, ?_, a :: values, ?_, htotal⟩
        · rcases List.mem_append.mp hj with hj | hj
          · exact List.mem_cons.mpr (Or.inl (List.eq_of_mem_replicate hj))
          · exact List.mem_cons_of_mem i (hschedule j hj)
        · rw [Interleaving.run_append]
          exact hend
        · rw [Interleaving.run_append]
          refine .cons ?_ hvalues
          rw [run_snd_of_not_mem hi]
          exact hresult

/-- Tasks that see nothing of each other, and that stop once they have a result. -/
structure Separate (b : Batch ι σ τ ε α) (Inv : σ × (ι → τ) → Prop)
    (view : ι → σ × (ι → τ) → β) (alone : ι → β → β) (outcome : β → Option (Except ε α)) : Prop
    extends Independent b.order b.step Inv view alone where
  /-- A task sees its result. -/
  sees : ∀ i s, b.result (s.2 i) = outcome (view i s)
  /-- A task with a result does nothing. -/
  settled : ∀ i shared t r, b.result t = some r → b.step i shared t = (shared, t)

namespace Separate

variable {Inv : σ × (ι → τ) → Prop} {view : ι → σ × (ι → τ) → β} {alone : ι → β → β}
  {outcome : β → Option (Except ε α)}

/-- A task that has a result has nothing left to do. -/
theorem alone_eq_self (h : Separate b Inv view alone outcome) {s : σ × (ι → τ)} (hinv : Inv s)
    {i : ι} (hi : i ∈ b.order) {r : Except ε α} (hr : b.result (s.2 i) = some r) :
    alone i (view i s) = view i s := by
  rw [← h.own i hi hinv, move_eq_self (h.settled i _ _ r hr)]

/-- A task that has a result sees the same after any schedule that brought it there. -/
theorem view_eq (h : Separate b Inv view alone outcome) {s : σ × (ι → τ)} (hinv : Inv s)
    {first second : List ι} (hfirst : ∀ i ∈ first, i ∈ b.order)
    (hsecond : ∀ i ∈ second, i ∈ b.order) {i : ι} (hi : i ∈ b.order) {r r' : Except ε α}
    (hr : b.result ((Interleaving.run b.step first s).2 i) = some r)
    (hr' : b.result ((Interleaving.run b.step second s).2 i) = some r') :
    view i (Interleaving.run b.step first s) = view i (Interleaving.run b.step second s) := by
  have hfirst' := Interleaving.run_induction (fun j => h.kept j) hinv hfirst
  have hsecond' := Interleaving.run_induction (fun j => h.kept j) hinv hsecond
  exact h.view_eq_of_fixed hinv hfirst hsecond hi (h.alone_eq_self hfirst' hi hr)
    (h.alone_eq_self hsecond' hi hr')

/-- A task of a batch that has a result has that of its call alone, and sees what the call
leaves. -/
theorem eq_call (h : Separate b Inv view alone outcome) (hnodup : b.order.Nodup) {shared : σ}
    {tasks : ι → τ} (hinv : Inv (shared, tasks)) {call : ι → σ → Except ε α × σ}
    (hcalls : Realizes b tasks Inv call) {moves : List (Move ι)} {s : State ι σ τ ε α}
    (hrun : run b pool moves (start b shared tasks) = some s) {i : ι} (hi : i ∈ b.order)
    {r : Except ε α} (hr : b.result (s.tasks i) = some r) :
    (call i shared).1 = r ∧
      ∃ tasks', view i (s.shared, s.tasks) = view i ((call i shared).2, tasks') := by
  obtain ⟨schedule, hinside, hschedule⟩ :=
    (sound_start b pool shared tasks).exists_schedule hnodup hrun
  change _ = Interleaving.run b.step schedule (shared, tasks) at hschedule
  obtain ⟨turns, hleft, hcall⟩ := hcalls i hi (shared, tasks) hinv rfl
  have hr' : b.result ((Interleaving.run b.step schedule (shared, tasks)).2 i) = some r := by
    rw [← hschedule]
    exact hr
  have hturns : ∀ j ∈ List.replicate turns i, j ∈ b.order :=
    fun j hj => List.eq_of_mem_replicate hj ▸ hi
  have hview := h.view_eq hinv hinside hturns hi hr' hcall
  rw [← hschedule] at hview
  refine ⟨?_, ?_⟩
  · rw [h.sees, ← hview, ← h.sees, hr] at hcall
    exact (Option.some.inj hcall).symm
  · rw [← hleft]
    exact ⟨_, hview⟩

/-- A batch of separate tasks that has returned has combined what the calls of the tasks return,
and every task sees what its call leaves. -/
theorem calls_of_returned (h : Separate b Inv view alone outcome) (hnodup : b.order.Nodup)
    {shared : σ} {tasks : ι → τ} (hinv : Inv (shared, tasks)) {call : ι → σ → Except ε α × σ}
    (hcalls : Realizes b tasks Inv call) {moves : List (Move ι)} {s : State ι σ τ ε α}
    (hrun : run b pool moves (start b shared tasks) = some s) {combined : α}
    (hreturned : s.caller = .returned combined) :
    (∃ values, List.Forall₂ (fun i a => (call i shared).1 = .ok a) b.order values ∧
      values.foldl b.combine b.initial = combined) ∧
    ∀ i ∈ b.order, ∃ tasks', view i (s.shared, s.tasks) = view i ((call i shared).2, tasks') := by
  have hstanding := ((sound_start b pool shared tasks).run hnodup hrun).standing
  unfold Standing at hstanding
  rw [hreturned] at hstanding
  obtain ⟨values, hcollected, hcombined⟩ := hstanding
  refine ⟨⟨values, ?_, hcombined⟩, fun i hi => ?_⟩
  · exact forall₂_of_mem hcollected fun i hi a ha => (h.eq_call hnodup hinv hcalls hrun hi ha.2).1
  · obtain ⟨a, _, _, ha⟩ := exists_value hcollected hi
    exact (h.eq_call hnodup hinv hcalls hrun hi ha).2

/-- A batch of separate tasks that has given back control has returned what the loop returns;
every task sees what it sees behind the loop and has the result of its call alone. -/
theorem eq_loop (h : Separate b Inv view alone outcome) (hnodup : b.order.Nodup) {shared : σ}
    {tasks : ι → τ} (hinv : Inv (shared, tasks)) {call : ι → σ → Except ε α × σ}
    (hcalls : Realizes b tasks Inv call) {total : α} {shared' : σ}
    (hloop : loop b.combine call b.order b.initial shared = (.ok total, shared'))
    {moves : List (Move ι)} {s : State ι σ τ ε α}
    (hrun : run b pool moves (start b shared tasks) = some s) (hback : s.caller.GivenBack) :
    s.caller = .returned total ∧
    (∃ values, List.Forall₂ (fun i a => (call i shared).1 = .ok a) b.order values ∧
      values.foldl b.combine b.initial = total) ∧
    (∃ tasks', Inv (s.shared, s.tasks) ∧ Inv (shared', tasks') ∧
      ∀ i ∈ b.order, view i (s.shared, s.tasks) = view i (shared', tasks')) ∧
    ∀ i ∈ b.order, b.result (s.tasks i) = some (call i shared).1 ∧
      ∃ tasks', view i (s.shared, s.tasks) = view i ((call i shared).2, tasks') := by
  have hsound := sound_start b pool shared tasks
  obtain ⟨schedule, hinside, hschedule⟩ := hsound.exists_schedule hnodup hrun
  change _ = Interleaving.run b.step schedule (shared, tasks) at hschedule
  obtain ⟨second, hsecond, hshared, values, hvalues, htotal⟩ :=
    hcalls.exists_schedule (fun i => h.kept i) (fun _ hi => hi) hnodup hinv (fun _ _ => rfl) hloop
  have hstanding := (hsound.run hnodup hrun).standing
  have hsame : ∀ i ∈ b.order, ∀ r, b.result (s.tasks i) = some r →
      view i (s.shared, s.tasks) = view i (Interleaving.run b.step second (shared, tasks)) := by
    intro i hi r hr
    obtain ⟨a, _, ha⟩ := exists_value hvalues hi
    rw [hschedule]
    have hr' : b.result ((Interleaving.run b.step schedule (shared, tasks)).2 i) = some r := by
      rw [← hschedule]
      exact hr
    exact h.view_eq hinv hinside hsecond hi hr' ha
  have hresult : ∀ i ∈ b.order, ∀ r, b.result (s.tasks i) = some r →
      b.result ((Interleaving.run b.step second (shared, tasks)).2 i) = some r :=
    fun i hi r hr => by
      rw [h.sees, ← hsame i hi r hr, ← h.sees]
      exact hr
  have hunique : Relator.RightUnique fun (i : ι) (a : α) =>
      b.result ((Interleaving.run b.step second (shared, tasks)).2 i) = some (.ok a) := by
    intro i a a' ha ha'
    exact Except.ok.inj (Option.some.inj (ha.symm.trans ha'))
  have hcaller : s.caller = .returned total ∧ Collected b s b.order values := by
    unfold Standing at hstanding
    cases hs : s.caller with
    | returned combined =>
      rw [hs] at hstanding
      obtain ⟨values', hcollected, hcombined⟩ := hstanding
      have hsecond' := forall₂_of_mem hcollected fun i hi a ha => hresult i hi _ ha.2
      have heq := List.right_unique_forall₂' hunique hsecond' hvalues
      subst heq
      rw [← hcombined, htotal]
      exact ⟨rfl, hcollected⟩
    | threw e =>
      rw [hs] at hstanding
      obtain ⟨⟨i, hi, hdelivered⟩, _⟩ := hstanding
      obtain ⟨a, _, ha⟩ := exists_value hvalues hi
      cases (hresult i hi _ hdelivered.2).symm.trans ha
    | _ =>
      rw [hs] at hback
      exact absurd hback id
  obtain ⟨hreturned, hcollected⟩ := hcaller
  have hended : ∀ i ∈ b.order, ∃ r, b.result (s.tasks i) = some r := by
    intro i hi
    obtain ⟨a, _, _, ha⟩ := exists_value hcollected hi
    exact ⟨_, ha⟩
  have hinv₁ := Interleaving.run_induction (fun j => h.kept j) hinv hinside
  have hinv₂ := Interleaving.run_induction (fun j => h.kept j) hinv hsecond
  rw [← hschedule] at hinv₁
  subst hshared
  refine ⟨hreturned, ⟨values, ?_, htotal⟩, ⟨_, hinv₁, hinv₂, fun i hi => ?_⟩, fun i hi => ?_⟩
  · apply forall₂_of_mem hcollected
    intro i hi a ha
    exact (h.eq_call hnodup hinv hcalls hrun hi ha.2).1
  · obtain ⟨r, hr⟩ := hended i hi
    exact hsame i hi r hr
  · obtain ⟨r, hr⟩ := hended i hi
    obtain ⟨hcall, hview⟩ := h.eq_call hnodup hinv hcalls hrun hi hr
    exact ⟨hcall ▸ hr, hview⟩

/-- How many turns a task needs until it has a result. -/
noncomputable def turnsLeft (view : ι → σ × (ι → τ) → β) (alone : ι → β → β)
    (outcome : β → Option (Except ε α)) (i : ι) (s : σ × (ι → τ)) : ℕ :=
  sInf {turns | (outcome ((alone i)^[turns] (view i s))).isSome}

/-- Tasks that would end alone end in a batch. -/
theorem bounded (h : Separate b Inv view alone outcome) :
    Bounded b (fun s => Inv s ∧ ∀ i ∈ b.order,
      ∃ turns, (outcome ((alone i)^[turns] (view i s))).isSome)
      (turnsLeft view alone outcome) where
  kept := by
    rintro s i hi ⟨hinv, hends⟩
    refine ⟨h.kept i hi hinv, fun j hj => ?_⟩
    obtain ⟨turns, hturns⟩ := hends j hj
    by_cases hij : i = j
    · subst hij
      rw [h.own i hi hinv]
      cases turns with
      | zero =>
        obtain ⟨r, hr⟩ := Option.isSome_iff_exists.mp hturns
        rw [Function.iterate_zero_apply, ← h.sees] at hr
        rw [h.alone_eq_self hinv hi hr]
        exact ⟨0, hturns⟩
      | succ turns => exact ⟨turns, hturns⟩
    · rw [h.other i hi j hj hij hinv]
      exact ⟨turns, hturns⟩
  fewer := by
    rintro s i hi ⟨hinv, hends⟩ hnone
    unfold turnsLeft
    rw [h.own i hi hinv]
    have hne : Set.Nonempty {turns | (outcome ((alone i)^[turns] (view i s))).isSome} :=
      hends i hi
    have hmem := Set.mem_ofPred_eq.mp (Nat.sInf_mem hne)
    generalize sInf {turns | (outcome ((alone i)^[turns] (view i s))).isSome} = turns at hmem ⊢
    cases turns with
    | zero =>
      rw [h.sees] at hnone
      rw [Function.iterate_zero_apply, hnone] at hmem
      cases hmem
    | succ turns =>
      rw [Function.iterate_succ_apply] at hmem
      exact Nat.lt_succ_of_le (Nat.sInf_le hmem)
  other := by
    rintro s i hi j hj hij ⟨hinv, _⟩
    unfold turnsLeft
    rw [h.other i hi j hj hij hinv]

/-- Tasks whose turns do what calls do would end alone. -/
theorem ends_of_realizes (h : Separate b Inv view alone outcome) {s : σ × (ι → τ)} (hinv : Inv s)
    {call : ι → σ → Except ε α × σ} (hcalls : Realizes b s.2 Inv call) :
    ∀ i ∈ b.order, ∃ turns, (outcome ((alone i)^[turns] (view i s))).isSome := by
  intro i hi
  obtain ⟨turns, _, hresult⟩ := hcalls i hi s hinv rfl
  have hturns : ∀ j ∈ List.replicate turns i, j ∈ b.order :=
    fun j hj => List.eq_of_mem_replicate hj ▸ hi
  refine ⟨turns, ?_⟩
  rw [h.sees, h.view_run hinv hturns hi, List.count_replicate_self] at hresult
  rw [hresult]
  rfl

/-- Every run of separate tasks ends whose turns do what calls do. -/
theorem endsIn (h : Separate b Inv view alone outcome) (hnodup : b.order.Nodup)
    (hthreads : 0 < pool.threads) {shared : σ} {tasks : ι → τ} (hinv : Inv (shared, tasks))
    {call : ι → σ → Except ε α × σ} (hcalls : Realizes b tasks Inv call)
    {P : State ι σ τ ε α → Prop}
    (hend : ∀ moves s, run b pool moves (start b shared tasks) = some s → s.caller.GivenBack →
      P s) : EndsIn b pool shared tasks P :=
  h.bounded.endsIn hnodup hthreads ⟨hinv, h.ends_of_realizes hinv hcalls⟩ hend

/-- A batch of separate tasks reports, with no task left behind, whenever it gives back control
exactly if the call of every task returns. -/
theorem reports_iff (h : Separate b Inv view alone outcome) (hnodup : b.order.Nodup)
    (hthreads : 0 < pool.threads) {shared : σ} {tasks : ι → τ} (hinv : Inv (shared, tasks))
    {call : ι → σ → Except ε α × σ} (hcalls : Realizes b tasks Inv call) :
    (∀ moves s, run b pool moves (start b shared tasks) = some s → s.caller.GivenBack →
      (∀ i ∈ b.order, s.phase i = .done) ∧ ∃ combined, s.caller = .returned combined) ↔
    ∀ i ∈ b.order, ∃ a, (call i shared).1 = .ok a := by
  have hsound := sound_start b pool shared tasks
  constructor
  · intro hreports i hi
    have hends := @endsIn _ _ _ _ _ _ _ b pool _ _ _ _ h hnodup hthreads _ _ hinv _ hcalls
      (fun _ => True) (fun _ _ _ _ => trivial)
    obtain ⟨moves, s, hrun, hback, _⟩ :=
      @EndsIn.exists_end _ _ _ _ _ _ b pool (start b shared tasks) _ _ _ hends [] rfl
    obtain ⟨_, combined, hreturned⟩ := hreports moves s hrun hback
    have hstanding := (hsound.run hnodup hrun).standing
    unfold Standing at hstanding
    rw [hreturned] at hstanding
    obtain ⟨values, hcollected, _⟩ := hstanding
    obtain ⟨a, _, _, ha⟩ := exists_value hcollected hi
    exact ⟨a, (h.eq_call hnodup hinv hcalls hrun hi ha).1⟩
  · intro hok moves s hrun hback
    have hstanding := (hsound.run hnodup hrun).standing
    unfold Standing at hstanding
    cases hs : s.caller with
    | returned combined =>
      rw [hs] at hstanding
      obtain ⟨values, hcollected, _⟩ := hstanding
      refine ⟨fun i hi => ?_, combined, rfl⟩
      obtain ⟨a, _, hdone, _⟩ := exists_value hcollected hi
      exact hdone
    | threw e =>
      rw [hs] at hstanding
      obtain ⟨⟨i, hi, _, hresult⟩, _⟩ := hstanding
      obtain ⟨a, ha⟩ := hok i hi
      rw [(h.eq_call hnodup hinv hcalls hrun hi hresult).1] at ha
      cases ha
    | _ =>
      rw [hs] at hback
      exact absurd hback id

end Separate

end TaskPool
