import MiniDB.Library.Heap
import Mathlib.Data.List.Nodup
import Mathlib.Logic.Function.Basic

/-!
# Owners of objects on a heap

Several owners hold objects on one heap. If what each of them does replaces the objects that it
holds and touches no others, then every living object is held once, by one owner: nothing is
freed twice, and nothing stays behind when all owners are gone.
-/

namespace Heap

variable {α ι : Type*} {heap heap' heap'' : Heap α} {old new later : List Address}

/-- What an owner does to a heap: the objects that it held are replaced by those that it holds. -/
structure Exchange (heap heap' : Heap α) (old new : List Address) : Prop where
  /-- No object is held twice. -/
  nodup : new.Nodup
  /-- Objects were held before or are new. -/
  fresh : ∀ address ∈ new, address ∈ old ∨ heap.get? address = none
  /-- Held objects are alive. -/
  alive : ∀ address ∈ new, heap'.get? address ≠ none
  /-- Objects that are no longer held are freed. -/
  freed : ∀ address ∈ old, address ∉ new → heap'.get? address = none
  /-- Other objects are not touched. -/
  others : ∀ address, address ∉ old → address ∉ new → heap'.get? address = heap.get? address

namespace Exchange

/-- The objects change, and are held as before. -/
theorem inPlace (hnodup : old.Nodup) (halive : ∀ address ∈ old, heap'.get? address ≠ none)
    (hothers : ∀ address ∉ old, heap'.get? address = heap.get? address) :
    Exchange heap heap' old old where
  nodup := hnodup
  fresh _ hold := Or.inl hold
  alive := halive
  freed _ hold hnot := absurd hold hnot
  others address hnot _ := hothers address hnot

/-- Nothing happens. -/
theorem refl (hnodup : old.Nodup) (halive : ∀ address ∈ old, heap.get? address ≠ none) :
    Exchange heap heap old old :=
  inPlace hnodup halive fun _ _ => rfl

/-- An object is allocated behind the others. -/
theorem alloc (hnodup : old.Nodup) (halive : ∀ address ∈ old, heap.get? address ≠ none)
    (object : α) : Exchange heap (heap.alloc object) old (old ++ [heap.next]) where
  nodup := by
    refine List.nodup_append.mpr ⟨hnodup, List.nodup_singleton _, ?_⟩
    rintro address hold _ hnew rfl
    refine halive address hold (heap.get?_eq_none _ ?_)
    rw [List.mem_singleton.mp hnew]
  fresh address hnew := by
    rcases List.mem_append.mp hnew with hold | hlast
    · exact Or.inl hold
    · exact Or.inr (heap.get?_eq_none _ (List.mem_singleton.mp hlast).ge)
  alive address hnew := by
    rcases List.mem_append.mp hnew with hold | hlast
    · obtain ⟨found, hfound⟩ := Option.ne_none_iff_exists'.mp (halive address hold)
      rw [heap.get?_alloc_of_some hfound]
      exact Option.some_ne_none _
    · rw [List.mem_singleton.mp hlast, get?_alloc_self]
      exact Option.some_ne_none _
  freed address hold hnot := absurd (List.mem_append_left _ hold) hnot
  others address _ hnot := by
    have hne : address ≠ heap.next := by
      rintro rfl
      exact hnot (List.mem_append_right _ (List.mem_singleton_self _))
    exact if_neg hne

/-- Objects are freed, and the others are held as before. -/
theorem release (hnodup : old.Nodup) (hsub : new.Sublist old)
    (halive : ∀ address ∈ new, heap'.get? address ≠ none)
    (hget : ∀ address ∉ new,
      heap'.get? address = if address ∈ old then none else heap.get? address) :
    Exchange heap heap' old new where
  nodup := hnodup.sublist hsub
  fresh _ hnew := Or.inl (hsub.subset hnew)
  alive := halive
  freed address hold hnot := (hget address hnot).trans (if_pos hold)
  others address hnot hnew := (hget address hnew).trans (if_neg hnot)

/-- An object is freed. -/
theorem free {address : Address} (halive : heap.get? address ≠ none) :
    ∃ heap', heap.free address = .ok heap' ∧ Exchange heap heap' [address] [] := by
  obtain ⟨object, hobject⟩ := Option.ne_none_iff_exists'.mp halive
  refine ⟨_, free_of_some hobject, release (List.nodup_singleton address) (List.nil_sublist _)
    (fun _ hmem => absurd hmem List.not_mem_nil) fun other _ => ?_⟩
  simp only [get?_put, List.mem_singleton]

/-- A held object is written. -/
theorem write {address : Address} (hnodup : old.Nodup)
    (halive : ∀ address ∈ old, heap.get? address ≠ none) (hheld : address ∈ old) (object : α) :
    ∃ heap', heap.write address object = .ok heap' ∧
      (∀ other, heap'.get? other = if other = address then some object else heap.get? other) ∧
        Exchange heap heap' old old := by
  obtain ⟨before, hbefore⟩ := Option.ne_none_iff_exists'.mp (halive address hheld)
  refine ⟨_, write_of_some hbefore object, fun _ => rfl, inPlace hnodup ?_ ?_⟩
  · intro other hother
    rw [get?_put]
    split
    · exact Option.some_ne_none object
    · exact halive other hother
  · intro other hnot
    have hne : other ≠ address := by
      rintro rfl
      exact hnot hheld
    exact if_neg hne

/-- One exchange after another. -/
theorem trans (h : Exchange heap heap' old new) (h' : Exchange heap' heap'' new later) :
    Exchange heap heap'' old later where
  nodup := h'.nodup
  fresh address hlater := by
    rcases h'.fresh address hlater with hnew | hnone
    · exact h.fresh address hnew
    · by_cases hold : address ∈ old
      · exact Or.inl hold
      · by_cases hnew : address ∈ new
        · exact absurd hnone (h.alive address hnew)
        · exact Or.inr ((h.others address hold hnew).symm.trans hnone)
  alive := h'.alive
  freed address hold hnot := by
    by_cases hnew : address ∈ new
    · exact h'.freed address hnew hnot
    · rw [h'.others address hnew hnot]
      exact h.freed address hold hnew
  others address hold hnot := by
    by_cases hnew : address ∈ new
    · rcases h.fresh address hnew with hheld | hnone
      · exact absurd hheld hold
      · rw [h'.freed address hnew hnot, hnone]
    · rw [h'.others address hnew hnot, h.others address hold hnew]

end Exchange

/-- Every living object is held once, by one owner. -/
structure Apportioned (heap : Heap α) (held : ι → List Address) : Prop where
  /-- No owner holds an object twice. -/
  nodup : ∀ i, (held i).Nodup
  /-- No two owners hold the same object. -/
  apart : ∀ {i j address}, address ∈ held i → address ∈ held j → i = j
  /-- The living objects are those that are held. -/
  alive : ∀ address, heap.get? address ≠ none ↔ ∃ i, address ∈ held i

namespace Apportioned

variable [DecidableEq ι] {held : ι → List Address} {i j : ι}

omit [DecidableEq ι] in
/-- Held objects are alive. -/
theorem alive_of_mem (h : heap.Apportioned held) {address : Address} (hheld : address ∈ held i) :
    heap.get? address ≠ none := (h.alive address).mpr ⟨i, hheld⟩

omit [DecidableEq ι] in
/-- What one owner does leaves the objects of the others alone. -/
theorem undisturbed (h : heap.Apportioned held) (hexchange : Exchange heap heap' (held i) new)
    (hne : j ≠ i) {address : Address} (hheld : address ∈ held j) :
    heap'.get? address = heap.get? address := by
  have hnot : address ∉ held i := fun hold => hne (h.apart hheld hold)
  refine hexchange.others address hnot fun hnew => ?_
  rcases hexchange.fresh address hnew with hold | hnone
  · exact hnot hold
  · exact h.alive_of_mem hheld hnone

/-- What an owner holds after an exchange, and what the others hold. -/
theorem mem_update {address : Address} :
    address ∈ Function.update held i new j ↔
      j = i ∧ address ∈ new ∨ j ≠ i ∧ address ∈ held j := by
  by_cases hj : j = i
  · subst hj
    rw [Function.update_self]
    simp
  · rw [Function.update_of_ne hj]
    simp [hj]

/-- What one owner does keeps every living object held once. -/
theorem exchange (h : heap.Apportioned held) (hexchange : Exchange heap heap' (held i) new) :
    heap'.Apportioned (Function.update held i new) where
  nodup j := by
    by_cases hj : j = i
    · subst hj
      rw [Function.update_self]
      exact hexchange.nodup
    · rw [Function.update_of_ne hj]
      exact h.nodup j
  apart {j k address} hj hk := by
    have hclash : ∀ {l}, l ≠ i → address ∈ held l → address ∈ new → False := by
      intro l hl hheld hnew
      rcases hexchange.fresh address hnew with hold | hnone
      · exact hl (h.apart hheld hold)
      · exact h.alive_of_mem hheld hnone
    rcases mem_update.mp hj with ⟨rfl, hnew⟩ | ⟨hji, hold⟩
    · rcases mem_update.mp hk with ⟨rfl, _⟩ | ⟨hki, hold⟩
      · rfl
      · exact (hclash hki hold hnew).elim
    · rcases mem_update.mp hk with ⟨rfl, hnew⟩ | ⟨_, hold'⟩
      · exact (hclash hji hold hnew).elim
      · exact h.apart hold hold'
  alive address := by
    constructor
    · intro halive
      by_cases hnew : address ∈ new
      · exact ⟨i, mem_update.mpr (Or.inl ⟨rfl, hnew⟩)⟩
      · have hold : address ∉ held i := fun hold => halive (hexchange.freed address hold hnew)
        rw [hexchange.others address hold hnew] at halive
        obtain ⟨j, hj⟩ := (h.alive address).mp halive
        refine ⟨j, mem_update.mpr (Or.inr ⟨?_, hj⟩)⟩
        rintro rfl
        exact hold hj
    · rintro ⟨j, hj⟩
      rcases mem_update.mp hj with ⟨rfl, hnew⟩ | ⟨hji, hheld⟩
      · exact hexchange.alive address hnew
      · rw [h.undisturbed hexchange hji hheld]
        exact h.alive_of_mem hheld

/-- An owner hands a part of what it holds over to another one. -/
theorem handOver (h : heap.Apportioned held) (hne : i ≠ j) {kept given : List Address}
    (hsplit : held i = kept ++ given) :
    heap.Apportioned (Function.update (Function.update held i kept) j (held j ++ given)) := by
  have hnodup : (kept ++ given).Nodup := hsplit ▸ h.nodup i
  have hsplit' : ∀ {address}, address ∈ held i ↔ address ∈ kept ∨ address ∈ given := by
    intro address
    rw [hsplit, List.mem_append]
  have hmem : ∀ {k address},
      address ∈ Function.update (Function.update held i kept) j (held j ++ given) k ↔
        k = i ∧ address ∈ kept ∨ k = j ∧ address ∈ given ∨ k ≠ i ∧ address ∈ held k := by
    intro k address
    rw [mem_update, mem_update, List.mem_append]
    by_cases hk : k = j
    · subst hk
      simp [hne.symm, or_comm]
    · simp [hk]
  -- what two owners hold now, one owner has held before
  have hbefore : ∀ {k address},
      address ∈ Function.update (Function.update held i kept) j (held j ++ given) k →
        ∃ l, address ∈ held l ∧ (l = k ∨ l = i ∧ k = j ∧ address ∈ given) := by
    intro k address hk
    rcases hmem.mp hk with ⟨rfl, hkept⟩ | ⟨rfl, hgiven⟩ | ⟨_, hheld⟩
    · exact ⟨k, hsplit'.mpr (Or.inl hkept), Or.inl rfl⟩
    · exact ⟨i, hsplit'.mpr (Or.inr hgiven), Or.inr ⟨rfl, rfl, hgiven⟩⟩
    · exact ⟨k, hheld, Or.inl rfl⟩
  have hnot : ∀ {address}, address ∈ given →
      address ∉ Function.update (Function.update held i kept) j (held j ++ given) i := by
    intro address hgiven hi
    rcases hmem.mp hi with ⟨_, hkept⟩ | ⟨hij, _⟩ | ⟨hii, _⟩
    · exact (List.nodup_append.mp hnodup).2.2 address hkept address hgiven rfl
    · exact hne hij
    · exact hii rfl
  refine ⟨fun k => ?_, fun {k l address} hk hl => ?_, fun address => ?_⟩
  · by_cases hkj : k = j
    · subst hkj
      rw [Function.update_self]
      refine List.nodup_append.mpr ⟨h.nodup k, (List.nodup_append.mp hnodup).2.1, ?_⟩
      rintro address hheld _ hgiven rfl
      exact hne (h.apart (hsplit'.mpr (Or.inr hgiven)) hheld)
    · rw [Function.update_of_ne hkj]
      by_cases hki : k = i
      · subst hki
        rw [Function.update_self]
        exact (List.nodup_append.mp hnodup).1
      · rw [Function.update_of_ne hki]
        exact h.nodup k
  · obtain ⟨k', hheld, hk'⟩ := hbefore hk
    obtain ⟨l', hheld', hl'⟩ := hbefore hl
    have hsame := h.apart hheld hheld'
    rcases hk' with rfl | ⟨rfl, rfl, hgiven⟩
    · rcases hl' with rfl | ⟨rfl, rfl, hgiven⟩
      · exact hsame
      · subst hsame
        exact absurd hk (hnot hgiven)
    · rcases hl' with rfl | ⟨_, rfl, _⟩
      · subst hsame
        exact absurd hl (hnot hgiven)
      · rfl
  · rw [h.alive]
    constructor
    · rintro ⟨k, hk⟩
      by_cases hki : k = i
      · subst hki
        rcases hsplit'.mp hk with hkept | hgiven
        · exact ⟨k, hmem.mpr (Or.inl ⟨rfl, hkept⟩)⟩
        · exact ⟨j, hmem.mpr (Or.inr (Or.inl ⟨rfl, hgiven⟩))⟩
      · exact ⟨k, hmem.mpr (Or.inr (Or.inr ⟨hki, hk⟩))⟩
    · rintro ⟨k, hk⟩
      obtain ⟨l, hl, _⟩ := hbefore hk
      exact ⟨l, hl⟩

/-- An owner that holds nothing takes over what another one holds. -/
theorem takeOver (h : heap.Apportioned held) (hne : i ≠ j) (hempty : held i = []) :
    heap.Apportioned (Function.update (Function.update held i (held j)) j []) := by
  have hall : held j = [] ++ held j := rfl
  have hgiven := h.handOver hne.symm hall
  rwa [hempty, List.nil_append, Function.update_comm hne.symm] at hgiven

omit [DecidableEq ι] in
/-- Without owners nothing is alive. -/
theorem none_alive (h : heap.Apportioned held) (hempty : ∀ i, held i = []) (address : Address) :
    heap.get? address = none := by
  by_contra halive
  obtain ⟨i, hi⟩ := (h.alive address).mp halive
  rw [hempty i] at hi
  cases hi

end Apportioned

end Heap
