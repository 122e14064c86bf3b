import MiniDB.Library.WeakOrder
import Mathlib.Data.List.Sort

/-!
# Sorts that keep their contract

What a sort owes for a strict weak ordering of the values it gets: the same values, none
before an earlier one. For other comparisons it owes nothing.
-/

universe u

variable {α : Type u}

/-- A sort that returns the values in order whenever the comparison is a strict weak ordering of
them. -/
def KeepsContract (sort : (α → α → Bool) → List α → List α) : Prop :=
  ∀ (before : α → α → Bool) (values : List α),
    StrictWeakOrderOn (fun a b => before a b = true) {a | a ∈ values} →
      (sort before values).Perm values ∧
        (sort before values).Pairwise fun a b => ¬before b a = true

/-- In a strict weak ordering what is before a value is before or not before what the value is not
behind. -/
theorem StrictWeakOrderOn.not_before_trans {before : α → α → Prop} {values : Set α}
    (h : StrictWeakOrderOn before values) {a b c : α} (ha : a ∈ values) (hb : b ∈ values)
    (hc : c ∈ values) (hba : ¬before b a) (hcb : ¬before c b) : ¬before c a := by
  intro hca
  by_cases hab : before a b
  · exact hcb (h.trans c hc a ha b hb hca hab)
  · by_cases hbc : before b c
    · exact hba (h.trans b hb c hc a ha hbc hca)
    · exact (h.unordered_trans a ha b hb c hc ⟨hab, hba⟩ ⟨hbc, hcb⟩).2 hca

/-- A merge sort that compares the given values only. -/
def mergeSortOn (before : α → α → Bool) (values : List α) : List α :=
  (values.attach.mergeSort fun a b => !before b.val a.val).map Subtype.val

/-- The merge sort keeps the contract. -/
theorem keepsContract_mergeSortOn : KeepsContract (mergeSortOn (α := α)) := by
  intro before values h
  constructor
  · have hperm := (values.attach.mergeSort_perm fun a b => !before b.val a.val).map Subtype.val
    rwa [List.attach_map_subtype_val] at hperm
  · have hsorted : (values.attach.mergeSort fun a b => !before b.val a.val).Pairwise
        fun a b => (!before b.val a.val) = true := by
      apply List.pairwise_mergeSort
      · intro a b c hab hbc
        rw [Bool.not_eq_true', Bool.eq_false_iff] at hab hbc ⊢
        exact h.not_before_trans a.property b.property c.property hab hbc
      · intro a b
        rw [Bool.or_eq_true, Bool.not_eq_true', Bool.not_eq_true', Bool.eq_false_iff,
          Bool.eq_false_iff, ← not_and_or]
        rintro ⟨hba, hab⟩
        exact h.asymm b.val b.property a.val a.property hba hab
    rw [mergeSortOn, List.pairwise_map]
    refine hsorted.imp fun hab => ?_
    rwa [Bool.not_eq_true', Bool.eq_false_iff] at hab

open Classical in
/-- A sort that keeps the contract and loses all values where it owes nothing. -/
noncomputable def sortOrLose (before : α → α → Bool) (values : List α) : List α :=
  if StrictWeakOrderOn (fun a b => before a b = true) {a | a ∈ values} then
    mergeSortOn before values
  else []

/-- Losing values where nothing is owed keeps the contract. -/
theorem keepsContract_sortOrLose : KeepsContract (sortOrLose (α := α)) := by
  intro before values h
  rw [sortOrLose, if_pos h]
  exact keepsContract_mergeSortOn before values h

/-- Every sort that keeps the contract returns all values exactly if the comparison is a strict
weak ordering of them. -/
theorem forall_perm_iff (before : α → α → Bool) (values : List α) :
    (∀ sort, KeepsContract sort → (sort before values).Perm values) ↔
      StrictWeakOrderOn (fun a b => before a b = true) {a | a ∈ values} := by
  constructor
  · intro hall
    by_contra hnot
    have hperm := hall sortOrLose keepsContract_sortOrLose
    rw [sortOrLose, if_neg hnot] at hperm
    have hnone : values = [] := List.nil_perm.mp hperm
    apply hnot
    rw [hnone]
    constructor
    · exact fun a ha => absurd ha List.not_mem_nil
    · exact fun a ha => absurd ha List.not_mem_nil
    · exact fun a ha => absurd ha List.not_mem_nil
    · exact fun a ha => absurd ha List.not_mem_nil
  · intro h sort hsort
    exact (hsort before values h).1
