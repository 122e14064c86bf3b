import MiniDB.Library.Memory
import Mathlib.Data.List.Range

/-!
# Heaps

Objects of one type that are allocated, read, written and freed through their addresses.
An address is used once: touching an object that was freed is undefined.
-/

open Memory

/-- A pointer to an object. -/
abbrev Address := ℕ

/-- A heap. -/
structure Heap (α : Type*) where
  /-- The living object at an address. -/
  get? : Address → Option α
  /-- The address of the next allocation. -/
  next : Address
  /-- No object lives at an address that was not allocated. -/
  get?_eq_none : ∀ address, next ≤ address → get? address = none

namespace Heap

variable {α : Type*}

/-- The heap without objects. -/
def empty : Heap α := ⟨fun _ => none, 0, fun _ _ => rfl⟩

/-- The heap with the content of an address replaced. -/
def put (heap : Heap α) (address : Address) (h : address < heap.next) (content : Option α) :
    Heap α where
  get? other := if other = address then content else heap.get? other
  next := heap.next
  get?_eq_none other hother := by
    rw [if_neg (lt_of_lt_of_le h hother).ne']
    exact heap.get?_eq_none other hother

/-- `new`: the address of the new object. -/
def alloc (heap : Heap α) (object : α) : Heap α where
  get? other := if other = heap.next then some object else heap.get? other
  next := heap.next + 1
  get?_eq_none other hother := by
    rw [if_neg (Nat.lt_of_succ_le hother).ne']
    exact heap.get?_eq_none other (Nat.le_of_succ_le hother)

/-- Living objects have been allocated. -/
theorem lt_next {heap : Heap α} {address : Address} {object : α}
    (h : heap.get? address = some object) : address < heap.next := by
  by_contra hlt
  rw [heap.get?_eq_none address (Nat.not_lt.mp hlt)] at h
  cases h

/-- Access through a pointer. -/
def read (heap : Heap α) (address : Address) : Except Fault α :=
  match heap.get? address with
  | some object => .ok object
  | none => .error .undefined

/-- Assignment through a pointer. -/
def write (heap : Heap α) (address : Address) (object : α) : Except Fault (Heap α) :=
  match h : heap.get? address with
  | some _ => .ok (heap.put address (lt_next h) (some object))
  | none => .error .undefined

/-- `delete`. -/
def free (heap : Heap α) (address : Address) : Except Fault (Heap α) :=
  match h : heap.get? address with
  | some _ => .ok (heap.put address (lt_next h) none)
  | none => .error .undefined

/-- Heaps agree if they hold the same objects and allocate alike. -/
theorem eq_of_fields {heap heap' : Heap α}
    (hget : ∀ address, heap.get? address = heap'.get? address) (hnext : heap.next = heap'.next) :
    heap = heap' := by
  obtain ⟨get, next, hnone⟩ := heap
  obtain ⟨get', next', hnone'⟩ := heap'
  obtain rfl : get = get' := funext hget
  dsimp only at hnext
  subst hnext
  rfl

/-- Reading finds living objects. -/
theorem read_eq_ok {heap : Heap α} {address : Address} {object : α} :
    heap.read address = .ok object ↔ heap.get? address = some object := by
  unfold read
  split <;> simp_all

/-- Reading living objects one after the other. -/
theorem mapM_read {heap : Heap α} {addresses : List Address} {objects : List α}
    (h : addresses.map heap.get? = objects.map some) :
    addresses.mapM heap.read = .ok objects := by
  induction addresses generalizing objects with
  | nil =>
    obtain rfl : objects = [] := List.map_eq_nil_iff.mp h.symm
    rfl
  | cons address addresses ih =>
    cases objects with
    | nil => cases h
    | cons object objects =>
      obtain ⟨hfirst, hrest⟩ := List.cons_eq_cons.mp h
      rw [List.mapM_cons, read_eq_ok.mpr hfirst, ih hrest]
      rfl

/-- Writing to a living object replaces it. -/
theorem write_of_some {heap : Heap α} {address : Address} {old : α}
    (h : heap.get? address = some old) (object : α) :
    heap.write address object = .ok (heap.put address (lt_next h) (some object)) := by
  unfold write
  split
  · rfl
  · rename_i hnone
    rw [h] at hnone
    cases hnone

/-- Freeing a living object removes it. -/
theorem free_of_some {heap : Heap α} {address : Address} {old : α}
    (h : heap.get? address = some old) :
    heap.free address = .ok (heap.put address (lt_next h) none) := by
  unfold free
  split
  · rfl
  · rename_i hnone
    rw [h] at hnone
    cases hnone

/-- The content of an address and of the others after a replacement. -/
theorem get?_put (heap : Heap α) {address : Address} (h : address < heap.next)
    (content : Option α) (other : Address) :
    (heap.put address h content).get? other =
      if other = address then content else heap.get? other := rfl

/-- Freeing reaches no other object. -/
theorem get?_of_free {heap heap' : Heap α} {address other : Address}
    (h : heap.free address = .ok heap') (hne : other ≠ address) :
    heap'.get? other = heap.get? other := by
  unfold free at h
  split at h
  · cases h
    exact if_neg hne
  · cases h

/-- Freeing gives no address back. -/
theorem next_of_free {heap heap' : Heap α} {address : Address}
    (h : heap.free address = .ok heap') : heap'.next = heap.next := by
  unfold free at h
  split at h
  · cases h
    rfl
  · cases h

/-- A new object lives at its address. -/
theorem get?_alloc_self (heap : Heap α) (object : α) :
    (heap.alloc object).get? heap.next = some object := if_pos rfl

/-- Allocating reaches no living object. -/
theorem get?_alloc_of_some {heap : Heap α} {address : Address} {old : α}
    (h : heap.get? address = some old) (object : α) :
    (heap.alloc object).get? address = some old := by
  have hne : address ≠ heap.next := (lt_next h).ne
  unfold alloc
  rw [← h]
  exact if_neg hne

/-- Writing to a new object is allocating what was written. -/
theorem write_alloc (heap : Heap α) (first object : α) :
    (heap.alloc first).write heap.next object = .ok (heap.alloc object) := by
  rw [write_of_some (heap.get?_alloc_self first)]
  congr 1
  apply eq_of_fields
  · intro address
    unfold put alloc
    dsimp only
    split
    · rfl
    · rfl
  · rfl

/-- Freeing a new object leaves what was there before. -/
theorem free_alloc (heap : Heap α) (object : α) :
    ∃ heap', (heap.alloc object).free heap.next = .ok heap' ∧
      ∀ other, heap'.get? other = heap.get? other := by
  refine ⟨_, free_of_some (heap.get?_alloc_self object), fun other => ?_⟩
  rw [get?_put]
  split
  · rename_i hsame
    rw [hsame, heap.get?_eq_none heap.next le_rfl]
  · rename_i hne
    exact if_neg hne

/-- The heap with further objects, one after the other. -/
def allocAll (heap : Heap α) : List α → Heap α
  | [] => heap
  | object :: objects => (heap.alloc object).allocAll objects

/-- Allocating objects reaches no living one. -/
theorem get?_allocAll_of_some {heap : Heap α} {address : Address} {old : α}
    (h : heap.get? address = some old) (objects : List α) :
    (heap.allocAll objects).get? address = some old := by
  induction objects generalizing heap with
  | nil => exact h
  | cons object objects ih =>
    apply ih
    exact get?_alloc_of_some h object

/-- Objects with the addresses they get one after the other. -/
def allocated (address : Address) : List α → List (Address × α)
  | [] => []
  | object :: objects => (address, object) :: allocated (address + 1) objects

@[simp] theorem map_snd_allocated (address : Address) (objects : List α) :
    (allocated address objects).map Prod.snd = objects := by
  induction objects generalizing address with
  | nil => rfl
  | cons object objects ih =>
    unfold allocated
    rw [List.map_cons, ih]

/-- Allocating objects changes nothing but their addresses. -/
theorem get?_allocAll_of_not_mem {heap : Heap α} {address : Address} {objects : List α}
    (h : address ∉ (allocated heap.next objects).map Prod.fst) :
    (heap.allocAll objects).get? address = heap.get? address := by
  induction objects generalizing heap with
  | nil => rfl
  | cons object objects ih =>
    unfold allocated at h
    rw [List.map_cons, List.mem_cons, not_or] at h
    exact (@ih (heap.alloc object) h.2).trans (if_neg h.1)

/-- New objects get new addresses. -/
theorem le_of_mem_allocated {address other : Address} {objects : List α}
    (h : other ∈ (allocated address objects).map Prod.fst) : address ≤ other := by
  induction objects generalizing address with
  | nil => cases h
  | cons object objects ih =>
    unfold allocated at h
    rw [List.map_cons, List.mem_cons] at h
    rcases h with rfl | hrest
    · exact le_rfl
    · exact le_trans (Nat.le_succ address) (ih hrest)

/-- New objects get distinct addresses. -/
theorem nodup_allocated (address : Address) (objects : List α) :
    ((allocated address objects).map Prod.fst).Nodup := by
  induction objects generalizing address with
  | nil => exact List.nodup_nil
  | cons object objects ih =>
    unfold allocated
    rw [List.map_cons, List.nodup_cons]
    refine ⟨fun hmem => ?_, ih (address + 1)⟩
    exact absurd (le_of_mem_allocated hmem) (Nat.not_succ_le_self address)

/-- New objects live at their addresses. -/
theorem get?_of_mem_allocated {heap : Heap α} {objects : List α} {entry : Address × α}
    (h : entry ∈ allocated heap.next objects) :
    (heap.allocAll objects).get? entry.1 = some entry.2 := by
  induction objects generalizing heap with
  | nil => cases h
  | cons object objects ih =>
    unfold allocated at h
    rcases List.mem_cons.mp h with rfl | hrest
    · exact get?_allocAll_of_some (heap.get?_alloc_self object) objects
    · exact @ih (heap.alloc object) hrest

end Heap
