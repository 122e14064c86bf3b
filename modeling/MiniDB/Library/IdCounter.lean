import Mathlib.Tactic.TypeStar
import Mathlib.Tactic.Common
import Mathlib.Data.List.Basic

/-!
# Identifiers from a counter

A counter of 32 bits gives out identifiers one after the other. It is resumed one above the
largest identifier in use. As long as it is above all of them, what it gives out is fresh;
it wraps around exactly behind the largest identifier there is.
-/

namespace IdCounter

variable {α : Type*}

/-- The counter is above every identifier. -/
def Above (next : UInt32) (ids : List UInt32) : Prop := ∀ id ∈ ids, id.toNat < next.toNat

/-- No identifier above the first ones is left. -/
def Exhausted (first ids : List UInt32) : Prop :=
  ∀ id : UInt32, (∀ old ∈ first, old.toNat < id.toNat) → id ∈ ids

/-- The counter is above every identifier and has left out none above the first ones. -/
structure Counting (first : List UInt32) (next : UInt32) (ids : List UInt32) : Prop where
  /-- The counter is above every identifier. -/
  above : Above next ids
  /-- What lies between the first identifiers and the counter is in use. -/
  used : ∀ id : UInt32, (∀ old ∈ first, old.toNat < id.toNat) → id.toNat < next.toNat → id ∈ ids

/-- The counter counts, or it wrapped around behind the largest identifier. -/
def Counts (first : List UInt32) (next : UInt32) (ids : List UInt32) : Prop :=
  Counting first next ids ∨ next = 0 ∧ ids ≠ [] ∧ Exhausted first ids

/-- The largest key of items, starting from a given one. -/
def largest (key : α → UInt32) (start : UInt32) (items : List α) : UInt32 :=
  items.foldl (fun largest item => max largest (key item)) start

/-- An identifier from a counter that is above those in use is fresh. -/
theorem Above.notMem {next : UInt32} {ids : List UInt32} (h : Above next ids) : next ∉ ids :=
  fun hmem => Nat.lt_irrefl _ (h next hmem)

/-- A counter is above identifiers only if one of them is left above the first ones. -/
theorem Above.not_exhausted {next : UInt32} {first ids : List UInt32} (h : Above next ids)
    (hfirst : first ⊆ ids) : ¬Exhausted first ids :=
  fun hexhausted => h.notMem (hexhausted next fun old hold => h old (hfirst hold))

/-- A counter that did not wrap around is above the identifiers. -/
theorem Counts.counting {first : List UInt32} {next : UInt32} {ids : List UInt32}
    (h : Counts first next ids) (hnext : ids = [] ∨ next ≠ 0) : Counting first next ids := by
  rcases h with hcounting | ⟨hzero, hids, _⟩
  · exact hcounting
  · rcases hnext with hempty | hne
    · exact absurd hempty hids
    · exact absurd hzero hne

/-- A counter at zero with identifiers in use wrapped around. -/
theorem Counts.exhausted {first : List UInt32} {next : UInt32} {ids : List UInt32}
    (h : Counts first next ids) (hids : ids ≠ []) (hnext : next = 0) : Exhausted first ids := by
  rcases h with hcounting | ⟨_, _, hexhausted⟩
  · obtain ⟨id, hid⟩ := List.exists_mem_of_ne_nil ids hids
    have hlt := hcounting.above id hid
    rw [hnext] at hlt
    exact absurd hlt (Nat.not_lt_zero _)
  · exact hexhausted

/-- One step of the counter gives out a fresh identifier and counts it. -/
theorem Counting.issue {first : List UInt32} {next : UInt32} {ids : List UInt32}
    (h : Counting first next ids) : Counts first (next + 1) (ids ++ [next]) := by
  have hone : (1 : UInt32).toNat = 1 := rfl
  have hnext := next.toNat_lt
  have hused : ∀ id : UInt32, (∀ old ∈ first, old.toNat < id.toNat) →
      id.toNat ≤ next.toNat → id ∈ ids ++ [next] := by
    intro id hfirst hle
    rcases Nat.lt_or_eq_of_le hle with hlt | heq
    · exact List.mem_append_left _ (h.used id hfirst hlt)
    · rw [UInt32.toNat_inj.mp heq]
      exact List.mem_append_right _ (List.mem_singleton_self _)
  by_cases hlast : next.toNat + 1 = 2 ^ 32
  · right
    refine ⟨?_, List.append_ne_nil_of_right_ne_nil _ (List.cons_ne_nil _ _), ?_⟩
    · apply UInt32.toNat_inj.mp
      rw [UInt32.toNat_add, hone, hlast]
      rfl
    · intro id hfirst
      have hid := id.toNat_lt
      exact hused id hfirst (by omega)
  · left
    have hvalue : (next + 1).toNat = next.toNat + 1 := by
      rw [UInt32.toNat_add, hone, Nat.mod_eq_of_lt (by omega)]
    constructor
    · intro id hid
      rw [hvalue]
      rcases List.mem_append.mp hid with hold | hnew
      · exact Nat.lt_succ_of_lt (h.above id hold)
      · rw [List.mem_singleton.mp hnew]
        exact Nat.lt_succ_self _
    · intro id hfirst hlt
      rw [hvalue] at hlt
      exact hused id hfirst (Nat.le_of_lt_succ hlt)

/-- The largest key is at least every key and one of them, or the start. -/
theorem largest_spec (key : α → UInt32) (items : List α) (start : UInt32) :
    start.toNat ≤ (largest key start items).toNat ∧
    (∀ item ∈ items, (key item).toNat ≤ (largest key start items).toNat) ∧
    (largest key start items = start ∨ ∃ item ∈ items, largest key start items = key item) := by
  induction items generalizing start with
  | nil => exact ⟨Nat.le_refl _, fun _ h => absurd h List.not_mem_nil, Or.inl rfl⟩
  | cons item items ih =>
    obtain ⟨hstart, hall, hattained⟩ := ih (max start (key item))
    have hmax : max start (key item) = if start ≤ key item then key item else start := rfl
    have hle : start.toNat ≤ (max start (key item)).toNat ∧
        (key item).toNat ≤ (max start (key item)).toNat := by
      rw [hmax]
      split
      · rename_i h
        exact ⟨UInt32.le_iff_toNat_le.mp h, Nat.le_refl _⟩
      · rename_i h
        rw [UInt32.le_iff_toNat_le] at h
        exact ⟨Nat.le_refl _, by omega⟩
    have hcons : largest key start (item :: items) =
        largest key (max start (key item)) items := rfl
    rw [hcons, List.forall_mem_cons]
    refine ⟨Nat.le_trans hle.1 hstart, ⟨Nat.le_trans hle.2 hstart, hall⟩, ?_⟩
    rcases hattained with heq | ⟨other, hother, heq⟩
    · rw [heq, hmax]
      split
      · exact Or.inr ⟨item, List.mem_cons_self, rfl⟩
      · exact Or.inl rfl
    · exact Or.inr ⟨other, List.mem_cons_of_mem _ hother, heq⟩

/-- A counter that resumes above the largest key counts the keys. -/
theorem counts_resume (key : α → UInt32) (items : List α) :
    Counts (items.map key) (if items.isEmpty then 0 else largest key 0 items + 1)
      (items.map key) := by
  cases items with
  | nil =>
    left
    exact ⟨fun _ h => absurd h List.not_mem_nil, fun _ _ h => absurd h (Nat.not_lt_zero _)⟩
  | cons item items =>
    obtain ⟨_, hall, hattained⟩ := largest_spec key (item :: items) 0
    rw [List.isEmpty_cons, if_neg Bool.false_ne_true]
    have hone : (1 : UInt32).toNat = 1 := rfl
    have hlast := (largest key 0 (item :: items)).toNat_lt
    -- No identifier above all keys is at most the largest one.
    have hbelow : ∀ id : UInt32, (∀ old ∈ (item :: items).map key, old.toNat < id.toNat) →
        (largest key 0 (item :: items)).toNat < id.toNat := by
      intro id habove
      rcases hattained with hzero | ⟨other, hother, hsame⟩
      · have hlt := habove (key item) (List.mem_map_of_mem List.mem_cons_self)
        rw [hzero]
        exact Nat.lt_of_le_of_lt (Nat.zero_le _) hlt
      · rw [hsame]
        exact habove (key other) (List.mem_map_of_mem hother)
    by_cases hwrap : (largest key 0 (item :: items)).toNat + 1 = 2 ^ 32
    · right
      refine ⟨?_, List.cons_ne_nil _ _, ?_⟩
      · apply UInt32.toNat_inj.mp
        rw [UInt32.toNat_add, hone, hwrap]
        rfl
      · intro id habove
        have hlt := hbelow id habove
        have hid := id.toNat_lt
        omega
    · left
      have hvalue : (largest key 0 (item :: items) + 1).toNat =
          (largest key 0 (item :: items)).toNat + 1 := by
        rw [UInt32.toNat_add, hone, Nat.mod_eq_of_lt (by omega)]
      constructor
      · intro id hid
        obtain ⟨other, hother, rfl⟩ := List.mem_map.mp hid
        rw [hvalue]
        exact Nat.lt_succ_of_le (hall other hother)
      · intro id habove hlt
        have hlt' := hbelow id habove
        omega

end IdCounter
