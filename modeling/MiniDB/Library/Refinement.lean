import Mathlib.Data.Nat.Notation
import Mathlib.Tactic.TypeStar

/-!
# Runs and simulations

A component is a step function from a state and an input to an output and a next state,
which may also fault. A specification relates abstract states across one step. If one
concrete step from related states never faults, obeys the specification and ends in
related states again, the same holds for every run; and what each step preserves, every
run preserves.
-/

namespace Refinement

variable {State Input Output Abstract Fault : Type*}

/-- Process inputs in order and collect the outputs; the first fault ends the run. -/
def run (step : State → Input → Except Fault (Output × State)) :
    State → List Input → Except Fault (List Output × State)
  | s, [] => .ok ([], s)
  | s, input :: inputs =>
    match step s input with
    | .error fault => .error fault
    | .ok (output, s') =>
      match run step s' inputs with
      | .error fault => .error fault
      | .ok (outputs, s'') => .ok (output :: outputs, s'')

/-- A sequence of inputs and outputs that obeys a specification from one abstract state
to another. -/
inductive Follows (spec : Abstract → Input → Output → Abstract → Prop) :
    Abstract → List Input → List Output → Abstract → Prop
  | nil (a : Abstract) : Follows spec a [] [] a
  | cons {a a' a'' : Abstract} {input : Input} {output : Output} {inputs : List Input}
      {outputs : List Output} : spec a input output a' → Follows spec a' inputs outputs a'' →
        Follows spec a (input :: inputs) (output :: outputs) a''

/-- A condition holds at every step of a run, in the state the step is taken from. -/
def Along (step : State → Input → Except Fault (Output × State))
    (Allowed : State → Input → Prop) : State → List Input → Prop
  | _, [] => True
  | s, input :: inputs => Allowed s input ∧
      ∀ output s', step s input = .ok (output, s') → Along step Allowed s' inputs

/-- A condition holds in every state that a run passes through, from the first to the
last. -/
def Throughout (step : State → Input → Except Fault (Output × State)) (P : State → Prop) :
    State → List Input → Prop
  | s, [] => P s
  | s, input :: inputs => P s ∧
      ∀ output s', step s input = .ok (output, s') → Throughout step P s' inputs

/-- A condition throughout a run that starts with a step that returns. -/
theorem throughout_cons_of_ok {step : State → Input → Except Fault (Output × State)}
    {P : State → Prop} {s s' : State} {input : Input} {inputs : List Input} {output : Output}
    (h : step s input = .ok (output, s')) :
    Throughout step P s (input :: inputs) ↔ P s ∧ Throughout step P s' inputs := by
  refine and_congr_right fun _ => ⟨fun hlater => hlater output s' h, fun hlater _ _ hnext => ?_⟩
  rw [h] at hnext
  cases hnext
  exact hlater

/-- A condition throughout a run that starts with a step that faults. -/
theorem throughout_cons_of_error {step : State → Input → Except Fault (Output × State)}
    {P : State → Prop} {s : State} {input : Input} {inputs : List Input} {fault : Fault}
    (h : step s input = .error fault) : Throughout step P s (input :: inputs) ↔ P s := by
  refine and_iff_left fun _ _ hnext => ?_
  rw [h] at hnext
  cases hnext

/-- Whether a condition that can be decided holds throughout a run is found by running it. -/
instance decidableThroughout (step : State → Input → Except Fault (Output × State))
    (P : State → Prop) [DecidablePred P] :
    (s : State) → (inputs : List Input) → Decidable (Throughout step P s inputs)
  | s, [] => inferInstanceAs (Decidable (P s))
  | s, input :: inputs =>
    match hstep : step s input with
    | .error _ => decidable_of_iff (P s) (throughout_cons_of_error hstep).symm
    | .ok (_, s') =>
      have := decidableThroughout step P s' inputs
      decidable_of_iff (P s ∧ Throughout step P s' inputs) (throughout_cons_of_ok hstep).symm

/-- A relation between concrete and abstract states that allowed steps maintain while
they obey the specification. -/
structure Simulation (step : State → Input → Except Fault (Output × State))
    (spec : Abstract → Input → Output → Abstract → Prop) (Allowed : State → Input → Prop) where
  /-- Which abstract states describe a concrete state. -/
  Related : State → Abstract → Prop
  /-- One step neither faults nor leaves the specification. -/
  step_follows : ∀ {s a input}, Related s a → Allowed s input →
    ∃ output s' a', step s input = .ok (output, s') ∧ spec a input output a' ∧ Related s' a'

variable {step : State → Input → Except Fault (Output × State)}
  {spec : Abstract → Input → Output → Abstract → Prop} {Allowed : State → Input → Prop}

/-- A step that does not fault continues the run from its end state. -/
theorem run_cons {s s' : State} {input : Input} {output : Output}
    (h : step s input = .ok (output, s')) (inputs : List Input) :
    run step s (input :: inputs) =
      match run step s' inputs with
      | .error fault => .error fault
      | .ok (outputs, s'') => .ok (output :: outputs, s'') := by
  rw [run, h]

/-- A run that does not fault splits into its first step and the rest. -/
theorem run_cons_eq_ok {s s'' : State} {input : Input} {inputs : List Input}
    {outputs : List Output} (h : run step s (input :: inputs) = .ok (outputs, s'')) :
    ∃ output rest s', step s input = .ok (output, s') ∧
      run step s' inputs = .ok (rest, s'') ∧ outputs = output :: rest := by
  rw [run] at h
  split at h
  · cases h
  · rename_i output s' hstep
    split at h
    · cases h
    · rename_i rest final hrun
      cases h
      exact ⟨output, rest, s', hstep, hrun, rfl⟩

/-- A run goes on with one more step. -/
theorem run_concat {s s' s'' : State} {inputs : List Input} {outputs : List Output}
    {input : Input} {output : Output} (hrun : run step s inputs = .ok (outputs, s'))
    (hstep : step s' input = .ok (output, s'')) :
    run step s (inputs ++ [input]) = .ok (outputs ++ [output], s'') := by
  induction inputs generalizing s outputs with
  | nil =>
    cases hrun
    rw [List.nil_append, run_cons hstep]
    rfl
  | cons first inputs ih =>
    obtain ⟨head, rest, middle, hfirst, hrest, rfl⟩ := run_cons_eq_ok hrun
    rw [List.cons_append, run_cons hfirst, ih hrest]
    rfl

/-- If no step faults, no run does. -/
theorem run_total (h : ∀ s input, ∃ output s', step s input = .ok (output, s')) (s : State)
    (inputs : List Input) : ∃ outputs s', run step s inputs = .ok (outputs, s') := by
  induction inputs generalizing s with
  | nil => exact ⟨[], s, rfl⟩
  | cons input inputs ih =>
    obtain ⟨output, s', hstep⟩ := h s input
    obtain ⟨outputs, s'', hrun⟩ := ih s'
    refine ⟨output :: outputs, s'', ?_⟩
    rw [run_cons hstep, hrun]

/-- A condition on inputs alone holds along every run over such inputs. -/
theorem along_of_forall {s : State} {inputs : List Input}
    (h : ∀ input ∈ inputs, ∀ s, Allowed s input) : Along step Allowed s inputs := by
  induction inputs generalizing s with
  | nil => trivial
  | cons input inputs ih =>
    refine ⟨h input List.mem_cons_self s, fun output s' _ => ih ?_⟩
    intro later hlater
    exact h later (List.mem_cons_of_mem input hlater)

/-- A condition that every step passes back from its end state to its start state holds
along a run if it holds at the end. -/
theorem along_of_final {Bound : State → Prop}
    (hback : ∀ {s input output s'}, step s input = .ok (output, s') → Bound s' → Bound s)
    {s s' : State} {inputs : List Input} {outputs : List Output}
    (hrun : run step s inputs = .ok (outputs, s')) (hfinal : Bound s') :
    Bound s ∧ Along step (fun s _ => Bound s) s inputs := by
  induction inputs generalizing s outputs with
  | nil =>
    cases hrun
    exact ⟨hfinal, trivial⟩
  | cons input inputs ih =>
    obtain ⟨output, rest, middle, hfirst, hrest, rfl⟩ := run_cons_eq_ok hrun
    obtain ⟨hmiddle, halong⟩ := ih hrest
    have hbound := hback hfirst hmiddle
    refine ⟨hbound, hbound, fun output' middle' hother => ?_⟩
    rw [hfirst] at hother
    cases hother
    exact halong

/-- A measure that steps from an invariant let grow by at most one stays below what it starts from
and the length of a run together. -/
theorem along_of_growth {Inv : State → Prop} {measure : State → ℕ} {bound : ℕ}
    (hgrows : ∀ {s input output s'}, Inv s → measure s < bound →
      step s input = .ok (output, s') → Inv s' ∧ measure s' ≤ measure s + 1)
    {s : State} {inputs : List Input} (hinv : Inv s) (h : measure s + inputs.length < bound) :
    Along step (fun s _ => measure s < bound) s inputs := by
  induction inputs generalizing s with
  | nil => trivial
  | cons input inputs ih =>
    rw [List.length_cons] at h
    have hless : measure s < bound := by omega
    refine ⟨hless, fun output s' hstep => ?_⟩
    obtain ⟨hinv', hgrown⟩ := hgrows hinv hless hstep
    exact ih hinv' (by omega)

/-- A specification that refines another through a function of the abstract state passes
its runs on to it. -/
theorem Follows.map {Abstract' : Type*} {spec' : Abstract' → Input → Output → Abstract' → Prop}
    {f : Abstract → Abstract'}
    (h : ∀ {a input output a'}, spec a input output a' → spec' (f a) input output (f a'))
    {a a' : Abstract} {inputs : List Input} {outputs : List Output}
    (hfollows : Follows spec a inputs outputs a') : Follows spec' (f a) inputs outputs (f a') := by
  induction hfollows with
  | nil a => exact Follows.nil (f a)
  | cons hspec _ ih => exact Follows.cons (h hspec) ih

/-- A weaker specification allows the same runs. -/
theorem Follows.imp {spec' : Abstract → Input → Output → Abstract → Prop}
    (h : ∀ {a input output a'}, spec a input output a' → spec' a input output a')
    {a a' : Abstract} {inputs : List Input} {outputs : List Output}
    (hfollows : Follows spec a inputs outputs a') : Follows spec' a inputs outputs a' :=
  hfollows.map (f := id) h

/-- A specification whose next state is a function of the input fixes where a run ends. -/
theorem Follows.eq_foldl {f : Abstract → Input → Abstract}
    (h : ∀ {a input output a'}, spec a input output a' → a' = f a input)
    {a a' : Abstract} {inputs : List Input} {outputs : List Output}
    (hfollows : Follows spec a inputs outputs a') : a' = inputs.foldl f a := by
  induction hfollows with
  | nil a => rfl
  | cons hspec _ ih => rw [ih, h hspec, List.foldl_cons]

/-- Along a simulation every allowed run completes, obeys the specification and ends in
related states. -/
theorem Simulation.run_follows (sim : Simulation step spec Allowed) {s : State} {a : Abstract}
    {inputs : List Input} (hrelated : sim.Related s a) (hallowed : Along step Allowed s inputs) :
    ∃ outputs s' a', run step s inputs = .ok (outputs, s') ∧
      Follows spec a inputs outputs a' ∧ sim.Related s' a' := by
  induction inputs generalizing s a with
  | nil => exact ⟨[], s, a, rfl, Follows.nil a, hrelated⟩
  | cons input inputs ih =>
    obtain ⟨output, s', a', hstep, hspec, hrelated'⟩ := sim.step_follows hrelated hallowed.1
    obtain ⟨outputs, s'', a'', hrun, hfollows, hrelated''⟩ :=
      ih hrelated' (hallowed.2 output s' hstep)
    refine ⟨output :: outputs, s'', a'', ?_, Follows.cons hspec hfollows, hrelated''⟩
    rw [run_cons hstep, hrun]

/-- What allowed steps keep holds in every state of a run of allowed steps. -/
theorem Along.throughout {Inv : State → Prop}
    (hstep : ∀ {s input output s'}, Inv s → Allowed s input →
      step s input = .ok (output, s') → Inv s')
    {s : State} {inputs : List Input} (hinv : Inv s) (h : Along step Allowed s inputs) :
    Throughout step Inv s inputs := by
  induction inputs generalizing s with
  | nil => exact hinv
  | cons input inputs ih =>
    refine ⟨hinv, fun output s' hnext => ?_⟩
    exact ih (hstep hinv h.1 hnext) (h.2 output s' hnext)

/-- An invariant from which allowed steps complete and which they keep is kept by runs of
allowed steps, and these complete. -/
theorem Along.run_invariant {Inv : State → Prop}
    (hstep : ∀ {s input}, Inv s → Allowed s input →
      ∃ output s', step s input = .ok (output, s') ∧ Inv s')
    {s : State} {inputs : List Input} (hinv : Inv s) (h : Along step Allowed s inputs) :
    ∃ outputs s', run step s inputs = .ok (outputs, s') ∧ Inv s' := by
  induction inputs generalizing s with
  | nil => exact ⟨[], s, rfl, hinv⟩
  | cons input inputs ih =>
    obtain ⟨output, s', hfirst, hinv'⟩ := hstep hinv h.1
    obtain ⟨outputs, s'', hrun, hfinal⟩ := ih hinv' (h.2 output s' hfirst)
    refine ⟨output :: outputs, s'', ?_, hfinal⟩
    rw [run_cons hfirst, hrun]

/-- What follows at each allowed step from an invariant holds along runs of allowed steps. -/
theorem Along.imp {Inv : State → Prop} {Follows : State → Input → Prop}
    (hstep : ∀ {s input output s'}, Inv s → Allowed s input →
      step s input = .ok (output, s') → Inv s')
    (himp : ∀ {s input}, Inv s → Allowed s input → Follows s input)
    {s : State} {inputs : List Input} (hinv : Inv s) (h : Along step Allowed s inputs) :
    Along step Follows s inputs := by
  induction inputs generalizing s with
  | nil => trivial
  | cons input inputs ih =>
    refine ⟨himp hinv h.1, fun output s' hnext => ?_⟩
    exact ih (hstep hinv h.1 hnext) (h.2 output s' hnext)

/-- Two conditions that mean the same wherever an invariant holds, which the second one keeps,
hold along the same runs. -/
theorem along_congr {Inv : State → Prop} {Allowed' : State → Input → Prop}
    (hstep : ∀ {s input output s'}, Inv s → Allowed s input →
      step s input = .ok (output, s') → Inv s')
    (hiff : ∀ {s input}, Inv s → (Allowed' s input ↔ Allowed s input))
    {s : State} {inputs : List Input} (hinv : Inv s) :
    Along step Allowed' s inputs ↔ Along step Allowed s inputs := by
  induction inputs generalizing s with
  | nil => exact Iff.rfl
  | cons input inputs ih =>
    constructor
    · rintro ⟨hfirst, hlater⟩
      have hallowed := (hiff hinv).mp hfirst
      refine ⟨hallowed, fun output s' hnext => ?_⟩
      exact (ih (hstep hinv hallowed hnext)).mp (hlater output s' hnext)
    · rintro ⟨hallowed, hlater⟩
      refine ⟨(hiff hinv).mpr hallowed, fun output s' hnext => ?_⟩
      exact (ih (hstep hinv hallowed hnext)).mpr (hlater output s' hnext)

/-- A weaker condition holds throughout the same runs. -/
theorem Throughout.imp {P Q : State → Prop} (himp : ∀ {s}, P s → Q s) {s : State}
    {inputs : List Input} (h : Throughout step P s inputs) : Throughout step Q s inputs := by
  induction inputs generalizing s with
  | nil => exact himp h
  | cons input inputs ih => exact ⟨himp h.1, fun output s' hnext => ih (h.2 output s' hnext)⟩

/-- A condition throughout a run holds at its start. -/
theorem Throughout.start {P : State → Prop} {s : State} {inputs : List Input}
    (h : Throughout step P s inputs) : P s := by
  cases inputs with
  | nil => exact h
  | cons input inputs => exact h.1

/-- A condition that exactly the allowed steps keep holds throughout a run that completes if
and only if all its steps are allowed. -/
theorem throughout_iff_along {P : State → Prop}
    (hstep : ∀ {s input output s'}, P s → step s input = .ok (output, s') →
      (P s' ↔ Allowed s input))
    {s s' : State} {inputs : List Input} {outputs : List Output}
    (hrun : run step s inputs = .ok (outputs, s')) (hstart : P s) :
    Throughout step P s inputs ↔ Along step Allowed s inputs := by
  induction inputs generalizing s outputs with
  | nil => exact ⟨fun _ => trivial, fun _ => hstart⟩
  | cons input inputs ih =>
    obtain ⟨output, rest, middle, hfirst, hrest, rfl⟩ := run_cons_eq_ok hrun
    have hmiddle := hstep hstart hfirst
    constructor
    · rintro ⟨_, hlater⟩
      have hthroughout := hlater output middle hfirst
      refine ⟨hmiddle.mp hthroughout.start, fun output' middle' hother => ?_⟩
      rw [hfirst] at hother
      cases hother
      exact (ih hrest hthroughout.start).mp hthroughout
    · rintro ⟨hallowed, hlater⟩
      refine ⟨hstart, fun output' middle' hother => ?_⟩
      rw [hfirst] at hother
      cases hother
      exact (ih hrest (hmiddle.mpr hallowed)).mpr (hlater output middle hfirst)

/-- A condition that allowed steps keep together with an invariant, and that every other step
breaks, holds throughout a run if and only if all its steps are allowed. -/
theorem throughout_iff_along_of_invariant {P Inv : State → Prop}
    (hkeeps : ∀ {s input output s'}, Inv s → P s → Allowed s input →
      step s input = .ok (output, s') → Inv s' ∧ P s')
    (hbreaks : ∀ {s input}, Inv s → P s → ¬Allowed s input →
      ∃ output s', step s input = .ok (output, s') ∧ ¬P s')
    {s : State} {inputs : List Input} (hinv : Inv s) (hstart : P s) :
    Throughout step P s inputs ↔ Along step Allowed s inputs := by
  induction inputs generalizing s with
  | nil => exact ⟨fun _ => trivial, fun _ => hstart⟩
  | cons input inputs ih =>
    constructor
    · rintro ⟨_, hlater⟩
      rcases Classical.em (Allowed s input) with hallowed | hnot
      · refine ⟨hallowed, fun output s' hnext => ?_⟩
        obtain ⟨hinv', hP⟩ := hkeeps hinv hstart hallowed hnext
        exact (ih hinv' hP).mp (hlater output s' hnext)
      · obtain ⟨output, s', hnext, hbroken⟩ := hbreaks hinv hstart hnot
        exact absurd (hlater output s' hnext).start hbroken
    · rintro ⟨hallowed, hlater⟩
      refine ⟨hstart, fun output s' hnext => ?_⟩
      obtain ⟨hinv', hP⟩ := hkeeps hinv hstart hallowed hnext
      exact (ih hinv' hP).mpr (hlater output s' hnext)

/-- If allowed steps complete and keep a condition together with an invariant, and every other step
faults or breaks the condition, a run completes with the condition holding throughout if and only
if all its steps are allowed. -/
theorem completes_throughout_iff_along {P Inv : State → Prop}
    (hkeeps : ∀ {s input}, Inv s → P s → Allowed s input →
      ∃ output s', step s input = .ok (output, s') ∧ Inv s' ∧ P s')
    (hbreaks : ∀ {s input output s'}, Inv s → P s → ¬Allowed s input →
      step s input = .ok (output, s') → ¬P s')
    {s : State} {inputs : List Input} (hinv : Inv s) (hstart : P s) :
    (∃ outputs s', run step s inputs = .ok (outputs, s')) ∧ Throughout step P s inputs ↔
      Along step Allowed s inputs := by
  induction inputs generalizing s with
  | nil => exact ⟨fun _ => trivial, fun _ => ⟨⟨[], s, rfl⟩, hstart⟩⟩
  | cons input inputs ih =>
    constructor
    · rintro ⟨⟨outputs, final, hrun⟩, _, hlater⟩
      obtain ⟨output, rest, s', hfirst, hrest, _⟩ := run_cons_eq_ok hrun
      rcases Classical.em (Allowed s input) with hallowed | hnot
      · obtain ⟨_, _, hsame, hinv', hP⟩ := hkeeps hinv hstart hallowed
        cases hfirst.symm.trans hsame
        refine ⟨hallowed, fun other s'' hnext => ?_⟩
        cases hfirst.symm.trans hnext
        exact (ih hinv' hP).mp ⟨⟨rest, final, hrest⟩, hlater output s' hfirst⟩
      · exact absurd (hlater output s' hfirst).start (hbreaks hinv hstart hnot hfirst)
    · rintro ⟨hallowed, hlater⟩
      obtain ⟨output, s', hfirst, hinv', hP⟩ := hkeeps hinv hstart hallowed
      obtain ⟨⟨outputs, final, hrun⟩, hthroughout⟩ := (ih hinv' hP).mpr (hlater output s' hfirst)
      refine ⟨⟨output :: outputs, final, ?_⟩, hstart, fun other s'' hnext => ?_⟩
      · rw [run_cons hfirst, hrun]
      · cases hfirst.symm.trans hnext
        exact hthroughout

/-- An invariant that steps keep as long as a condition holds is kept by runs throughout
which the condition holds, and these runs complete. -/
theorem Throughout.run_invariant {P Inv : State → Prop}
    (hstep : ∀ {s} input, Inv s → P s →
      ∃ output s', step s input = .ok (output, s') ∧ (P s' → Inv s'))
    {s : State} {inputs : List Input} (hinv : Inv s) (h : Throughout step P s inputs) :
    ∃ outputs s', run step s inputs = .ok (outputs, s') ∧ Inv s' ∧ P s' := by
  induction inputs generalizing s with
  | nil => exact ⟨[], s, rfl, hinv, h⟩
  | cons input inputs ih =>
    obtain ⟨output, s', hfirst, hinv'⟩ := hstep input hinv h.1
    have hrest := h.2 output s' hfirst
    obtain ⟨outputs, s'', hrun, hfinal⟩ := ih (hinv' hrest.start) hrest
    refine ⟨output :: outputs, s'', ?_, hfinal⟩
    rw [run_cons hfirst, hrun]

/-- A condition along a run in two parts holds along both. -/
theorem Along.of_append {s : State} {first second : List Input}
    (h : Along step Allowed s (first ++ second)) :
    Along step Allowed s first ∧ ∀ outputs s', run step s first = .ok (outputs, s') →
      Along step Allowed s' second := by
  induction first generalizing s with
  | nil =>
    refine ⟨trivial, fun outputs s' hrun => ?_⟩
    cases hrun
    exact h
  | cons input first ih =>
    refine ⟨⟨h.1, fun output s' hstep => (ih (h.2 output s' hstep)).1⟩, fun outputs s' hrun => ?_⟩
    obtain ⟨output, rest, middle, hfirst, hrest, rfl⟩ := run_cons_eq_ok hrun
    exact (ih (h.2 output middle hfirst)).2 rest s' hrest

/-- What every step keeps is kept by runs. -/
theorem run_keeps {Inv : State → Prop}
    (hstep : ∀ {s input output s'}, Inv s → step s input = .ok (output, s') → Inv s')
    {s s' : State} {inputs : List Input} {outputs : List Output} (hinv : Inv s)
    (hrun : run step s inputs = .ok (outputs, s')) : Inv s' := by
  induction inputs generalizing s outputs with
  | nil =>
    cases hrun
    exact hinv
  | cons input inputs ih =>
    obtain ⟨output, rest, middle, hfirst, hrest, rfl⟩ := run_cons_eq_ok hrun
    exact ih (hstep hinv hfirst) hrest

/-- Two outcomes that are the same to an observer and leave related states, or the same fault. -/
def Lockstep {State' : Type*} (R : State → State' → Prop) :
    Except Fault (Output × State) → Except Fault (Output × State') → Prop
  | .ok (output, s), .ok (output', s') => output = output' ∧ R s s'
  | .error fault, .error fault' => fault = fault'
  | _, _ => False

/-- What goes in lockstep step by step goes in lockstep over every run. -/
theorem run_lockstep {State' : Type*} {step' : State' → Input → Except Fault (Output × State')}
    {R : State → State' → Prop}
    (hstep : ∀ {s s'}, R s s' → ∀ input, Lockstep R (step s input) (step' s' input))
    {s : State} {s' : State'} (h : R s s') (inputs : List Input) :
    Lockstep R (run step s inputs) (run step' s' inputs) := by
  induction inputs generalizing s s' with
  | nil => exact ⟨rfl, h⟩
  | cons input inputs ih =>
    have hfirst := hstep h input
    rw [run, run]
    cases hleft : step s input with
    | error fault =>
      cases hright : step' s' input with
      | error fault' =>
        rw [hleft, hright] at hfirst
        exact hfirst
      | ok result =>
        rw [hleft, hright] at hfirst
        exact hfirst.elim
    | ok result =>
      cases hright : step' s' input with
      | error fault =>
        rw [hleft, hright] at hfirst
        exact hfirst.elim
      | ok result' =>
        rw [hleft, hright] at hfirst
        obtain ⟨hsame, hrelated⟩ := hfirst
        have hrest := ih hrelated
        dsimp only
        cases hleft' : run step result.2 inputs with
        | error fault =>
          cases hright' : run step' result'.2 inputs with
          | error fault' =>
            rw [hleft', hright'] at hrest
            exact hrest
          | ok _ =>
            rw [hleft', hright'] at hrest
            exact hrest.elim
        | ok rest =>
          cases hright' : run step' result'.2 inputs with
          | error fault =>
            rw [hleft', hright'] at hrest
            exact hrest.elim
          | ok rest' =>
            rw [hleft', hright'] at hrest
            exact ⟨congr (congrArg List.cons hsame) hrest.1, hrest.2⟩

end Refinement
