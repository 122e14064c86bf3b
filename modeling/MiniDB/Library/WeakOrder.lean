import Mathlib.Order.Comparable
import Mathlib.Data.Set.Basic

/-!
# Comparisons for sorting

What a sort asks of its comparison, on the values that are sorted: a strict weak ordering.
A comparison that orders only values of one kind meets it exactly when the values are of
one kind or when no two of them are ordered at all.
-/

universe u v

variable {α : Type u} {κ : Type v}

/-- A strict weak ordering of the values in a set. -/
structure StrictWeakOrderOn (before : α → α → Prop) (values : Set α) : Prop where
  /-- No value is before itself. -/
  irrefl : ∀ a ∈ values, ¬before a a
  /-- No two values are before each other. -/
  asymm : ∀ a ∈ values, ∀ b ∈ values, before a b → ¬before b a
  /-- What is before a value is before what the value is before. -/
  trans : ∀ a ∈ values, ∀ b ∈ values, ∀ c ∈ values, before a b → before b c → before a c
  /-- Being unordered is transitive. -/
  unordered_trans : ∀ a ∈ values, ∀ b ∈ values, ∀ c ∈ values,
    IncompRel before a b → IncompRel before b c → IncompRel before a c

/-- The comparison the other way around is as good. -/
theorem StrictWeakOrderOn.swap {before : α → α → Prop} {values : Set α}
    (h : StrictWeakOrderOn before values) : StrictWeakOrderOn (Function.swap before) values where
  irrefl := h.irrefl
  asymm a ha b hb := h.asymm b hb a ha
  trans a ha b hb c hc hab hbc := h.trans c hc b hb a ha hbc hab
  unordered_trans a ha b hb c hc hab hbc := by
    have hba : IncompRel before a b := ⟨hab.2, hab.1⟩
    have hcb : IncompRel before b c := ⟨hbc.2, hbc.1⟩
    have hac := h.unordered_trans a ha b hb c hc hba hcb
    exact ⟨hac.2, hac.1⟩

/-- Reversing a comparison does not change whether it is a strict weak ordering. -/
theorem strictWeakOrderOn_swap_iff {before : α → α → Prop} {values : Set α} :
    StrictWeakOrderOn (Function.swap before) values ↔ StrictWeakOrderOn before values :=
  ⟨StrictWeakOrderOn.swap, StrictWeakOrderOn.swap⟩

/-- A comparison that orders values of one kind only, and these by a strict order in which
being unordered is transitive. -/
structure OrdersKinds (before : α → α → Prop) (kind : α → κ) (values : Set α) : Prop where
  /-- No value is before itself. -/
  irrefl : ∀ a ∈ values, ¬before a a
  /-- What is before a value is before what the value is before. -/
  trans : ∀ a ∈ values, ∀ b ∈ values, ∀ c ∈ values, before a b → before b c → before a c
  /-- Ordered values are of one kind. -/
  kind_eq : ∀ a ∈ values, ∀ b ∈ values, before a b → kind a = kind b
  /-- Inside a kind being unordered is transitive. -/
  unordered_trans : ∀ a ∈ values, ∀ b ∈ values, ∀ c ∈ values, kind a = kind b → kind b = kind c →
    IncompRel before a b → IncompRel before b c → IncompRel before a c

namespace OrdersKinds

variable {before : α → α → Prop} {kind : α → κ} {values : Set α}

/-- No two values are before each other. -/
theorem asymm (h : OrdersKinds before kind values) :
    ∀ a ∈ values, ∀ b ∈ values, before a b → ¬before b a := by
  intro a ha b hb hab hba
  exact h.irrefl a ha (h.trans a ha b hb a ha hab hba)

/-- Values of two kinds are unordered. -/
theorem incompRel_of_ne (h : OrdersKinds before kind values) {a b : α} (ha : a ∈ values)
    (hb : b ∈ values) (hne : kind a ≠ kind b) : IncompRel before a b :=
  ⟨fun hab => hne (h.kind_eq a ha b hb hab), fun hba => hne (h.kind_eq b hb a ha hba).symm⟩

/-- Values may be compared by what a function reads of them. -/
theorem comap {β : Type*} (h : OrdersKinds before kind values) (read : β → α) (points : Set β)
    (hread : ∀ x ∈ points, read x ∈ values) :
    OrdersKinds (fun x y => before (read x) (read y)) (fun x => kind (read x)) points where
  irrefl x hx := h.irrefl _ (hread x hx)
  trans x hx y hy z hz := h.trans _ (hread x hx) _ (hread y hy) _ (hread z hz)
  kind_eq x hx y hy := h.kind_eq _ (hread x hx) _ (hread y hy)
  unordered_trans x hx y hy z hz := h.unordered_trans _ (hread x hx) _ (hread y hy) _ (hread z hz)

/-- Such a comparison is a strict weak ordering if and only if it orders no two of the
values or all the values are of one kind: a value of another kind is unordered with both
ends of an ordered pair. -/
theorem strictWeakOrderOn_iff (h : OrdersKinds before kind values) :
    StrictWeakOrderOn before values ↔
      (∀ a ∈ values, ∀ b ∈ values, ¬before a b) ∨
      ∀ a ∈ values, ∀ b ∈ values, kind a = kind b := by
  constructor
  · intro horder
    by_contra hmixed
    rw [not_or] at hmixed
    obtain ⟨hordered, hkinds⟩ := hmixed
    simp only [not_forall, not_not] at hordered hkinds
    obtain ⟨a, ha, b, hb, hab⟩ := hordered
    obtain ⟨x, hx, y, hy, hxy⟩ := hkinds
    have hother : ∃ c ∈ values, kind c ≠ kind a := by
      by_cases hxa : kind x = kind a
      · exact ⟨y, hy, fun hya => hxy (hxa.trans hya.symm)⟩
      · exact ⟨x, hx, hxa⟩
    obtain ⟨c, hc, hca⟩ := hother
    have hcb : kind c ≠ kind b := fun hcb => hca (hcb.trans (h.kind_eq a ha b hb hab).symm)
    have hac := h.incompRel_of_ne ha hc hca.symm
    have hbc := h.incompRel_of_ne hc hb hcb
    exact (horder.unordered_trans a ha c hc b hb hac hbc).1 hab
  · intro hsame
    refine ⟨h.irrefl, h.asymm, h.trans, ?_⟩
    intro a ha b hb c hc hab hbc
    rcases hsame with hnone | hkinds
    · exact ⟨hnone a ha c hc, hnone c hc a ha⟩
    · exact h.unordered_trans a ha b hb c hc (hkinds a ha b hb) (hkinds b hb c hc) hab hbc

end OrdersKinds
