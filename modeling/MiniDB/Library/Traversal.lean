import Mathlib.Tactic.TypeStar
import Mathlib.Tactic.Common

/-!
# Decoding lists item by item

A decoder of items that may fail extends to lists: a list decodes exactly if all of its
items do. Decoding what an encoder wrote can then be reasoned about one item at a time.
-/

universe u v w

namespace Traversal

variable {α : Type u} {β : Type v} {γ : Type w}

/-- The empty list decodes to itself. -/
theorem mapM_nil_eq_some {f : α → Option β} {result : List β} :
    [].mapM f = some result ↔ result = [] := by
  rw [List.mapM_nil]
  simp [eq_comm]

/-- A nonempty list decodes if its first item and the rest do. -/
theorem mapM_cons_eq_some {f : α → Option β} {item : α} {items : List α} {result : List β} :
    (item :: items).mapM f = some result ↔
      ∃ first rest, f item = some first ∧ items.mapM f = some rest ∧ result = first :: rest := by
  rw [List.mapM_cons]
  cases f item with
  | none => simp
  | some first =>
    cases items.mapM f with
    | none => simp
    | some rest => simp [eq_comm]

/-- Encoded items decode to given results if and only if each of them does. -/
theorem mapM_map_eq_some {encode : γ → α} {f : α → Option β} {result : γ → β} {items : List γ} :
    (items.map encode).mapM f = some (items.map result) ↔
      ∀ item ∈ items, f (encode item) = some (result item) := by
  induction items with
  | nil => simp
  | cons item items ih =>
    rw [List.map_cons, mapM_cons_eq_some, List.map_cons, List.forall_mem_cons, ← ih]
    constructor
    · rintro ⟨first, rest, hfirst, hrest, heq⟩
      cases heq
      exact ⟨hfirst, hrest⟩
    · rintro ⟨hfirst, hrest⟩
      exact ⟨_, _, hfirst, hrest, rfl⟩

/-- The results of the items in front of the first one that does not decode. -/
def decodePrefix (f : α → Option β) : List α → List β
  | [] => []
  | item :: items =>
    match f item with
    | none => []
    | some result => result :: decodePrefix f items

/-- A successful traversal gives one result for each item. -/
theorem length_of_mapM {f : α → Option β} {items : List α} {results : List β}
    (h : items.mapM f = some results) : results.length = items.length := by
  induction items generalizing results with
  | nil =>
    rw [mapM_nil_eq_some.mp h]
    rfl
  | cons item items ih =>
    obtain ⟨first, rest, _, hrest, rfl⟩ := mapM_cons_eq_some.mp h
    rw [List.length_cons, List.length_cons, ih hrest]

/-- What every decoded item satisfies, all results do. -/
theorem forall_mem_of_mapM {f : α → Option β} {P : β → Prop} {items : List α} {results : List β}
    (h : items.mapM f = some results)
    (hitem : ∀ item ∈ items, ∀ result, f item = some result → P result) :
    ∀ result ∈ results, P result := by
  induction items generalizing results with
  | nil =>
    rw [mapM_nil_eq_some.mp h]
    intro result hresult
    cases hresult
  | cons item items ih =>
    obtain ⟨first, rest, hfirst, hrest, rfl⟩ := mapM_cons_eq_some.mp h
    rw [List.forall_mem_cons] at hitem ⊢
    exact ⟨hitem.1 first hfirst, ih hrest hitem.2⟩

/-- Every item has decoded to one of the results. -/
theorem exists_of_mem_mapM {f : α → Option β} {items : List α} {results : List β}
    (h : items.mapM f = some results) {item : α} (hitem : item ∈ items) :
    ∃ result ∈ results, f item = some result := by
  induction items generalizing results with
  | nil => cases hitem
  | cons first items ih =>
    obtain ⟨head, rest, hhead, hrest, rfl⟩ := mapM_cons_eq_some.mp h
    rcases List.mem_cons.mp hitem with rfl | htail
    · exact ⟨head, List.mem_cons_self, hhead⟩
    · obtain ⟨result, hresult, hdecoded⟩ := ih hrest htail
      exact ⟨result, List.mem_cons_of_mem _ hresult, hdecoded⟩

end Traversal
