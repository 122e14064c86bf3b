import Mathlib.Data.List.Basic

/-!
# What a reader requires of its input

A reader goes through its input and stops at the first thing that does not suit it. What it
requires, in the order in which it looks, is a list of requirements; how reading ends is
decided by the first one that is not met.
-/

/-- The ways an input may fail to suit a reader: something is missing or of another kind, a
number is out of the range of its type, or there is no room left. -/
inductive Demand
  | shape
  | range
  | room
  deriving DecidableEq

/-- A requirement on an input, and whether it is met. -/
structure Requirement where
  /-- What is required. -/
  demand : Demand
  /-- Whether the input has it. -/
  met : Bool

namespace Requirement

/-- What the first requirement that is not met demands. -/
def firstUnmet : List Requirement → Option Demand
  | [] => none
  | r :: rest => if r.met then firstUnmet rest else some r.demand

/-- Reading does not stop at a number that is out of range. -/
def InRange (requirements : List Requirement) : Prop := firstUnmet requirements ≠ some .range

instance (requirements : List Requirement) : Decidable (InRange requirements) :=
  inferInstanceAs (Decidable (_ ≠ _))

/-- Every requirement on the shape is met. -/
def Shaped (requirements : List Requirement) : Prop :=
  ∀ r ∈ requirements, r.demand = .shape → r.met = true

@[simp] theorem firstUnmet_met (demand : Demand) (rest : List Requirement) :
    firstUnmet (⟨demand, true⟩ :: rest) = firstUnmet rest := rfl

/-- Further requirements matter if the first ones are met. -/
theorem firstUnmet_append (first rest : List Requirement) :
    firstUnmet (first ++ rest) = (firstUnmet first).or (firstUnmet rest) := by
  induction first with
  | nil => rfl
  | cons r first ih =>
    obtain ⟨demand, met⟩ := r
    cases met with
    | false => rfl
    | true => exact ih

/-- If everything is met, so is the shape. -/
theorem shaped_of_firstUnmet {requirements : List Requirement}
    (h : firstUnmet requirements = none) : Shaped requirements := by
  induction requirements with
  | nil => exact fun _ hmem => absurd hmem List.not_mem_nil
  | cons r rest ih =>
    unfold firstUnmet at h
    split at h
    · rename_i hmet
      exact List.forall_mem_cons.mpr ⟨fun _ => hmet, ih h⟩
    · cases h

end Requirement
