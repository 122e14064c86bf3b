import Mathlib.Data.List.Count
import Mathlib.Logic.Function.Iterate
import Mathlib.Tactic.TypeStar

/-!
# Interleaved parties

Parties take turns on a state that they share; each has a state of its own besides. If what a
party sees is changed by its own turns alone, as a function of what it saw before, then it sees
in the end what it would have seen alone, whatever the order of the turns.
-/

namespace Interleaving

variable {ι σ τ β : Type*} [DecidableEq ι]

/-- One turn of a party. -/
def move (step : ι → σ → τ → σ × τ) (i : ι) (s : σ × (ι → τ)) : σ × (ι → τ) :=
  ((step i s.1 (s.2 i)).1, Function.update s.2 i (step i s.1 (s.2 i)).2)

/-- Turns in the order of a schedule. -/
def run (step : ι → σ → τ → σ × τ) : List ι → σ × (ι → τ) → σ × (ι → τ)
  | [], s => s
  | i :: schedule, s => run step schedule (move step i s)

/-- What the parties see of a state, and what a turn makes of it. -/
structure Independent (parties : List ι) (step : ι → σ → τ → σ × τ) (Inv : σ × (ι → τ) → Prop)
    (view : ι → σ × (ι → τ) → β) (alone : ι → β → β) : Prop where
  /-- Turns keep the invariant. -/
  kept : ∀ {s}, ∀ i ∈ parties, Inv s → Inv (move step i s)
  /-- A turn changes what the party sees according to what it saw. -/
  own : ∀ {s}, ∀ i ∈ parties, Inv s → view i (move step i s) = alone i (view i s)
  /-- A turn does not change what another party sees. -/
  other : ∀ {s}, ∀ i ∈ parties, ∀ j ∈ parties, i ≠ j → Inv s → view j (move step i s) = view j s

variable {parties : List ι} {step : ι → σ → τ → σ × τ} {Inv : σ × (ι → τ) → Prop}
  {view : ι → σ × (ι → τ) → β}
  {alone : ι → β → β}

/-- Turns one after the other lead from one value to another. -/
def Reaches (turn : β → β) (v v' : β) : Prop := ∃ turns, turn^[turns] v = v'

/-- A value is reached without a turn. -/
theorem Reaches.refl (turn : β → β) (v : β) : Reaches turn v v := ⟨0, rfl⟩

/-- What is reached behind the next turn is reached. -/
theorem Reaches.next {turn : β → β} {v v' : β} (h : Reaches turn (turn v) v') :
    Reaches turn v v' := by
  obtain ⟨turns, hturns⟩ := h
  exact ⟨turns + 1, hturns⟩

/-- What is reached from a reached value is reached. -/
theorem Reaches.trans {turn : β → β} {v v₁ v' : β} (h : Reaches turn v v₁)
    (h' : Reaches turn v₁ v') : Reaches turn v v' := by
  obtain ⟨turns, hturns⟩ := h
  obtain ⟨more, hmore⟩ := h'
  refine ⟨more + turns, ?_⟩
  rw [Function.iterate_add_apply, hturns, hmore]

/-- A schedule in two parts. -/
theorem run_append (first second : List ι) (s : σ × (ι → τ)) :
    run step (first ++ second) s = run step second (run step first s) := by
  induction first generalizing s with
  | nil => rfl
  | cons i first ih => exact ih (move step i s)

/-- A turn leaves the other parties' own states alone. -/
theorem move_snd_of_ne {i j : ι} (h : j ≠ i) (s : σ × (ι → τ)) :
    (move step i s).2 j = s.2 j := Function.update_of_ne h _ _

/-- A turn reaches the party's own state. -/
theorem move_snd_self (i : ι) (s : σ × (ι → τ)) :
    (move step i s).2 i = (step i s.1 (s.2 i)).2 := Function.update_self _ _ _

/-- A turn that changes nothing. -/
theorem move_eq_self {i : ι} {s : σ × (ι → τ)} (h : step i s.1 (s.2 i) = (s.1, s.2 i)) :
    move step i s = s := by
  unfold move
  rw [h, Function.update_eq_self]

/-- Assertions about all parties survive a turn that keeps the party's own and does not
interfere with those of the others. -/
theorem move_assertions {Assert : ι → σ → τ → Prop} {i : ι} {s : σ × (ι → τ)}
    (hown : Assert i (step i s.1 (s.2 i)).1 (step i s.1 (s.2 i)).2)
    (hothers : ∀ j, j ≠ i → Assert j (step i s.1 (s.2 i)).1 (s.2 j)) (j : ι) :
    Assert j (move step i s).1 ((move step i s).2 j) := by
  by_cases hj : j = i
  · subst hj
    rw [move_snd_self]
    exact hown
  · rw [move_snd_of_ne hj]
    exact hothers j hj

/-- What every turn keeps, every schedule keeps. -/
theorem run_induction {P : σ × (ι → τ) → Prop}
    (hmove : ∀ {s}, ∀ i ∈ parties, P s → P (move step i s)) {s : σ × (ι → τ)} (h : P s)
    {schedule : List ι} (hschedule : ∀ i ∈ schedule, i ∈ parties) : P (run step schedule s) := by
  induction schedule generalizing s with
  | nil => exact h
  | cons i schedule ih =>
    rw [List.forall_mem_cons] at hschedule
    exact ih (hmove i hschedule.1 h) hschedule.2

/-- Parties that get no turn keep their own state. -/
theorem run_snd_of_not_mem {j : ι} {schedule : List ι} (h : j ∉ schedule) (s : σ × (ι → τ)) :
    (run step schedule s).2 j = s.2 j := by
  induction schedule generalizing s with
  | nil => rfl
  | cons i schedule ih =>
    rw [List.mem_cons, not_or] at h
    exact (ih h.2 _).trans (move_snd_of_ne h.1 s)

/-- The turns of one party concern what is shared and its own state. -/
theorem run_replicate (turns : ℕ) (i : ι) (s : σ × (ι → τ)) :
    ((run step (List.replicate turns i) s).1, (run step (List.replicate turns i) s).2 i) =
      (fun p : σ × τ => step i p.1 p.2)^[turns] (s.1, s.2 i) := by
  induction turns generalizing s with
  | zero => rfl
  | succ turns ih =>
    refine (ih (move step i s)).trans ?_
    rw [move_snd_self]
    rfl

/-- What one party reaches alone comes about when it has the turns. -/
theorem Reaches.exists_run {i : ι} {s : σ × (ι → τ)} {shared : σ} {own : τ}
    (h : Reaches (fun p : σ × τ => step i p.1 p.2) (s.1, s.2 i) (shared, own)) :
    ∃ turns, (run step (List.replicate turns i) s).1 = shared ∧
      (run step (List.replicate turns i) s).2 i = own ∧
      ∀ j, j ≠ i → (run step (List.replicate turns i) s).2 j = s.2 j := by
  obtain ⟨turns, hturns⟩ := h
  have hrun := @run_replicate _ _ _ _ step turns i s
  rw [hturns, Prod.mk.injEq] at hrun
  refine ⟨turns, hrun.1, hrun.2, fun j hj => run_snd_of_not_mem (fun hmem => ?_) s⟩
  exact hj (List.eq_of_mem_replicate hmem)

namespace Independent

variable {s : σ × (ι → τ)}

/-- Every party sees what its own turns make of what it saw at first. -/
theorem view_run (h : Independent parties step Inv view alone) (hs : Inv s) {schedule : List ι}
    (hschedule : ∀ i ∈ schedule, i ∈ parties) {i : ι} (hi : i ∈ parties) :
    view i (run step schedule s) = (alone i)^[schedule.count i] (view i s) := by
  induction schedule generalizing s with
  | nil => rfl
  | cons j schedule ih =>
    rw [List.forall_mem_cons] at hschedule
    unfold run
    rw [ih (h.kept j hschedule.1 hs) hschedule.2]
    by_cases hji : j = i
    · subst hji
      rw [List.count_cons_self, Function.iterate_succ_apply, h.own j hi hs]
    · rw [List.count_cons_of_ne hji, h.other j hschedule.1 i hi hji hs]

/-- A party that has nothing left to do sees the same after any schedule that brings it
there. -/
theorem view_eq_of_fixed (h : Independent parties step Inv view alone) (hs : Inv s)
    {first second : List ι} (hfirst : ∀ i ∈ first, i ∈ parties)
    (hsecond : ∀ i ∈ second, i ∈ parties) {i : ι} (hi : i ∈ parties)
    (hfixed : alone i (view i (run step first s)) = view i (run step first s))
    (hfixed' : alone i (view i (run step second s)) = view i (run step second s)) :
    view i (run step first s) = view i (run step second s) := by
  rw [h.view_run hs hfirst hi] at hfixed ⊢
  rw [h.view_run hs hsecond hi] at hfixed' ⊢
  rcases Nat.le_total (first.count i) (second.count i) with hle | hle
  · obtain ⟨more, hmore⟩ := Nat.exists_eq_add_of_le hle
    rw [hmore, Nat.add_comm, Function.iterate_add_apply, Function.iterate_fixed hfixed]
  · obtain ⟨more, hmore⟩ := Nat.exists_eq_add_of_le hle
    rw [hmore, Nat.add_comm, Function.iterate_add_apply, Function.iterate_fixed hfixed']

end Independent

end Interleaving
