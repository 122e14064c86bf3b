import Mathlib.Data.List.Nodup

/-!
# Lists with distinct keys

A list whose items carry pairwise distinct keys is a map. Looking up a key is characterized
by membership, so that insertions anywhere, changes of items under their keys and
removals act on the map as expected, whatever they do to the order.
-/

universe u v

namespace KeyedList

variable {α : Type u} {κ : Type v} [DecidableEq κ] (key : α → κ)

/-- The first item under a key. -/
def lookup (items : List α) (k : κ) : Option α := items.find? fun item => key item = k

/-- With distinct keys an item is found under its key. -/
theorem lookup_eq_some {items : List α} (h : (items.map key).Nodup) {k : κ} {item : α} :
    lookup key items k = some item ↔ item ∈ items ∧ key item = k := by
  unfold lookup
  constructor
  · intro hfind
    exact ⟨List.mem_of_find?_eq_some hfind, by simpa using List.find?_some hfind⟩
  · rintro ⟨hmem, rfl⟩
    induction items with
    | nil => cases hmem
    | cons first rest ih =>
      rw [List.map_cons, List.nodup_cons] at h
      rcases List.mem_cons.mp hmem with rfl | hrest
      · rw [List.find?_cons_of_pos (by simp)]
      · have hne : ¬key first = key item := by
          intro heq
          exact h.1 (heq ▸ List.mem_map_of_mem hrest)
        rw [List.find?_cons_of_neg (by simpa using hne)]
        exact ih h.2 hrest

/-- A key is not found exactly when no item carries it. -/
theorem lookup_eq_none {items : List α} {k : κ} :
    lookup key items k = none ↔ k ∉ items.map key := by
  unfold lookup
  simp only [List.find?_eq_none, decide_eq_true_eq, List.mem_map, not_exists, not_and]

omit [DecidableEq κ] in
/-- An item with a fresh key may be inserted anywhere. -/
theorem nodup_insert {left right : List α} {item : α}
    (h : ((left ++ right).map key).Nodup) (hfresh : key item ∉ (left ++ right).map key) :
    ((left ++ item :: right).map key).Nodup := by
  have hperm : List.Perm ((left ++ item :: right).map key) (key item :: (left ++ right).map key) :=
    List.perm_middle.map key
  rw [hperm.nodup_iff, List.nodup_cons]
  exact ⟨hfresh, h⟩

omit [DecidableEq κ] in
/-- An item whose key no other has may be put behind all others. -/
theorem nodup_concat {items : List α} {item : α} (h : (items.map key).Nodup)
    (hfresh : ∀ other ∈ items, key other ≠ key item) : ((items ++ [item]).map key).Nodup := by
  apply nodup_insert
  · rwa [List.append_nil]
  · rw [List.append_nil]
    intro hmem
    obtain ⟨other, hother, heq⟩ := List.mem_map.mp hmem
    exact hfresh other hother heq

/-- Changing items without touching their keys keeps the keys distinct. -/
theorem map_change {change : α → α} (hkey : ∀ item, key (change item) = key item)
    (items : List α) (k : κ) :
    (items.map fun item => if key item = k then change item else item).map key =
      items.map key := by
  rw [List.map_map]
  apply List.map_congr_left
  intro item _
  rw [Function.comp_apply]
  split
  · exact hkey item
  · rfl

/-- Changing the items under an absent key changes nothing. -/
theorem change_of_notMem {items : List α} {k : κ} (h : k ∉ items.map key) (change : α → α) :
    (items.map fun item => if key item = k then change item else item) = items := by
  conv_rhs => rw [← List.map_id items]
  apply List.map_congr_left
  intro item hmem
  have hne : ¬key item = k := by
    rintro rfl
    exact h (List.mem_map_of_mem hmem)
  rw [if_neg hne, id_eq]

/-- Removing the items under an absent key removes nothing. -/
theorem remove_of_notMem {items : List α} {k : κ} (h : k ∉ items.map key) :
    (items.filter fun item => key item ≠ k) = items := by
  rw [List.filter_eq_self]
  intro item hmem
  have hne : ¬key item = k := by
    rintro rfl
    exact h (List.mem_map_of_mem hmem)
  exact decide_eq_true hne

omit [DecidableEq κ] in
/-- The key of one item is carried neither before nor behind it. -/
theorem notMem_around {left right : List α} {item : α}
    (h : ((left ++ item :: right).map key).Nodup) :
    key item ∉ left.map key ∧ key item ∉ right.map key := by
  rw [List.map_append, List.map_cons] at h
  constructor
  · intro hleft
    exact (List.nodup_append.mp h).2.2 _ hleft _ List.mem_cons_self rfl
  · exact (List.nodup_cons.mp (List.nodup_append.mp h).2.1).1

/-- Changing the items under the key of one changes that one only. -/
theorem change_around {left right : List α} {item : α}
    (h : ((left ++ item :: right).map key).Nodup) (change : α → α) :
    ((left ++ item :: right).map fun other =>
      if key other = key item then change other else other) = left ++ change item :: right := by
  obtain ⟨hleft, hright⟩ := notMem_around key h
  rw [List.map_append, List.map_cons, if_pos rfl, change_of_notMem key hleft,
    change_of_notMem key hright]

/-- Removing the items under the key of one removes that one only. -/
theorem remove_around {left right : List α} {item : α}
    (h : ((left ++ item :: right).map key).Nodup) :
    ((left ++ item :: right).filter fun other => key other ≠ key item) = left ++ right := by
  obtain ⟨hleft, hright⟩ := notMem_around key h
  rw [List.filter_append, List.filter_cons_of_neg (by simp), remove_of_notMem key hleft,
    remove_of_notMem key hright]

/-- Looking up after the item under a key was changed. -/
theorem lookup_change {change : α → α} (hkey : ∀ item, key (change item) = key item)
    (items : List α) (k other : κ) :
    lookup key (items.map fun item => if key item = k then change item else item) other =
      if other = k then (lookup key items other).map change else lookup key items other := by
  induction items with
  | nil => simp [lookup]
  | cons first rest ih =>
    unfold lookup at ih ⊢
    rw [List.map_cons]
    by_cases hfirst : key first = other
    · have hchanged : key (if key first = k then change first else first) = other := by
        split
        · rw [hkey, hfirst]
        · exact hfirst
      rw [List.find?_cons_of_pos (by simpa using hchanged),
        List.find?_cons_of_pos (by simpa using hfirst), hfirst]
      split <;> rfl
    · have hchanged : ¬key (if key first = k then change first else first) = other := by
        split
        · rwa [hkey]
        · exact hfirst
      rw [List.find?_cons_of_neg (by simpa using hchanged),
        List.find?_cons_of_neg (by simpa using hfirst), ih]

/-- Looking up after the items under a key were removed. -/
theorem lookup_remove (items : List α) (k other : κ) :
    lookup key (items.filter fun item => key item ≠ k) other =
      if other = k then none else lookup key items other := by
  induction items with
  | nil => simp [lookup]
  | cons first rest ih =>
    unfold lookup at ih ⊢
    by_cases hremoved : key first = k
    · rw [List.filter_cons_of_neg (by simpa using hremoved), ih]
      split
      · rfl
      · rename_i hother
        rw [List.find?_cons_of_neg]
        simpa only [hremoved, decide_eq_true_eq] using fun h => hother h.symm
    · rw [List.filter_cons_of_pos (by simpa using hremoved)]
      by_cases hfirst : key first = other
      · rw [List.find?_cons_of_pos (by simpa using hfirst),
          List.find?_cons_of_pos (by simpa using hfirst), if_neg (hfirst ▸ hremoved)]
      · rw [List.find?_cons_of_neg (by simpa using hfirst),
          List.find?_cons_of_neg (by simpa using hfirst), ih]

/-- Looking up after an item with a fresh key was inserted anywhere. -/
theorem lookup_insert {left right : List α} {item : α}
    (hfresh : key item ∉ (left ++ right).map key) (other : κ) :
    lookup key (left ++ item :: right) other =
      if other = key item then some item else lookup key (left ++ right) other := by
  unfold lookup
  by_cases hother : other = key item
  · subst hother
    have hleft : (left.find? fun a => key a = key item) = none := by
      rw [List.find?_eq_none]
      intro a ha heq
      exact hfresh (of_decide_eq_true heq ▸ List.mem_map_of_mem (List.mem_append_left _ ha))
    rw [List.find?_append, hleft, Option.none_or, List.find?_cons_of_pos (by simp), if_pos rfl]
  · rw [List.find?_append, List.find?_append,
      List.find?_cons_of_neg (by simpa using fun h => hother h.symm), if_neg hother]

omit [DecidableEq κ] in
/-- A vector around one of its elements, and with that element replaced. -/
theorem exists_around {α : Type*} {items : List α} {position : ℕ} {item : α}
    (h : items[position]? = some item) :
    ∃ left right, items = left ++ item :: right ∧
      ∀ replacement, items.set position replacement = left ++ replacement :: right := by
  obtain ⟨hlt, rfl⟩ := List.getElem?_eq_some_iff.mp h
  refine ⟨items.take position, items.drop (position + 1), ?_, fun replacement => ?_⟩
  · rw [List.getElem_cons_drop, List.take_append_drop]
  · rw [List.set_eq_take_append_cons_drop, if_pos hlt]

end KeyedList
