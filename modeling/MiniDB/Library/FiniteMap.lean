import Mathlib.Data.List.Nodup

/-!
# Finite maps

A hash map is known by what looking up each key returns. What an insertion does to a key
that is already present differs between libraries, so it is a parameter.
-/

/-- What inserting under a present key does. -/
class InsertPolicy where
  /-- Whether the new value replaces the old one. -/
  overwrites : Bool

/-- A map, given by its lookup function. -/
@[ext] structure FiniteMap (Key Value : Type*) where
  /-- The value stored under a key, if there is one. -/
  get? : Key → Option Value

namespace FiniteMap

variable {Key Value : Type*}

/-- The map without keys. -/
def empty : FiniteMap Key Value := ⟨fun _ => none⟩

@[simp] theorem get?_empty (key : Key) : (empty : FiniteMap Key Value).get? key = none := rfl

variable [DecidableEq Key]

/-- Whether a key is present. -/
def contains (m : FiniteMap Key Value) (key : Key) : Bool := (m.get? key).isSome

omit [DecidableEq Key] in
/-- The keys that are not present are those that nothing is found under. -/
theorem contains_eq_false {m : FiniteMap Key Value} {key : Key} :
    m.contains key = false ↔ m.get? key = none := by
  rw [contains, Option.isSome_eq_false_iff, Option.isNone_iff_eq_none]

/-- The map with a value stored under a key. -/
def put (m : FiniteMap Key Value) (key : Key) (value : Value) : FiniteMap Key Value :=
  ⟨fun other => if other = key then some value else m.get? other⟩

/-- The map with a value inserted under a key; a present key is treated by the policy. -/
def insert [policy : InsertPolicy] (m : FiniteMap Key Value) (key : Key) (value : Value) :
    FiniteMap Key Value :=
  if m.contains key && !policy.overwrites then m else m.put key value

/-- The map without a key. -/
def erase (m : FiniteMap Key Value) (key : Key) : FiniteMap Key Value :=
  ⟨fun other => if other = key then none else m.get? other⟩

/-- Inserting under an absent key does not depend on the policy. -/
theorem get?_insert [InsertPolicy] {m : FiniteMap Key Value} {key : Key}
    (h : m.get? key = none) (value : Value) (other : Key) :
    (m.insert key value).get? other = if other = key then some value else m.get? other := by
  rw [insert, contains_eq_false.mpr h, Bool.false_and, if_neg Bool.false_ne_true]
  rfl

/-- The keys after an insertion under an absent one. -/
theorem contains_insert [InsertPolicy] {m : FiniteMap Key Value} {key : Key}
    (h : m.get? key = none) (value : Value) {other : Key} :
    (m.insert key value).contains other = true ↔ other = key ∨ m.contains other = true := by
  unfold contains
  rw [get?_insert h]
  split
  · rename_i heq
    exact ⟨fun _ => Or.inl heq, fun _ => rfl⟩
  · rename_i hne
    rw [or_iff_right hne]

/-- The keys after one was erased. -/
theorem contains_erase {m : FiniteMap Key Value} {key other : Key} :
    (m.erase key).contains other = true ↔ other ≠ key ∧ m.contains other = true := by
  unfold contains erase
  dsimp only
  split
  · rename_i heq
    simp [heq]
  · rename_i hne
    rw [and_iff_right hne]

/-- The map with values inserted under keys, one after the other. -/
def insertAll [InsertPolicy] (m : FiniteMap Key Value) : List (Key × Value) → FiniteMap Key Value
  | [] => m
  | item :: items => (m.insert item.1 item.2).insertAll items

/-- Inserting under the same keys into maps of which one follows the other keeps that. -/
theorem get?_insertAll_bind [InsertPolicy] {Other : Type*} {f : Value → Option Other}
    {items : List (Key × Value)} {others : List (Key × Other)}
    (h : List.Forall₂ (fun item other => other.1 = item.1 ∧ f item.2 = some other.2) items others)
    {m : FiniteMap Key Value} {m' : FiniteMap Key Other}
    (hsame : ∀ key, m'.contains key = m.contains key ∧ (m.get? key).bind f = m'.get? key)
    (key : Key) : ((m.insertAll items).get? key).bind f = (m'.insertAll others).get? key := by
  induction h generalizing m m' with
  | nil => exact (hsame key).2
  | cons hitem _ ih =>
    obtain ⟨hkey, hvalue⟩ := hitem
    refine ih fun key => ?_
    rw [hkey]
    unfold insert
    rw [(hsame _).1]
    split
    · exact hsame key
    · unfold contains put
      dsimp only
      split
      · exact ⟨rfl, hvalue⟩
      · exact hsame key

/-- Inserting under fresh distinct keys adds exactly the inserted pairs. -/
theorem get?_insertAll [InsertPolicy] {m : FiniteMap Key Value} {items : List (Key × Value)}
    (hnodup : (items.map Prod.fst).Nodup) (hfresh : ∀ item ∈ items, m.get? item.1 = none)
    {key : Key} {value : Value} :
    (m.insertAll items).get? key = some value ↔
      m.get? key = some value ∨ (key, value) ∈ items := by
  induction items generalizing m with
  | nil => simp [insertAll]
  | cons item items ih =>
    rw [List.map_cons, List.nodup_cons] at hnodup
    rw [List.forall_mem_cons] at hfresh
    have hinsert := get?_insert hfresh.1 item.2
    have hrest : ∀ other ∈ items, (m.insert item.1 item.2).get? other.1 = none := by
      intro other hother
      rw [hinsert, if_neg]
      · exact hfresh.2 other hother
      · intro heq
        exact hnodup.1 (heq ▸ List.mem_map_of_mem hother)
    unfold insertAll
    rw [ih hnodup.2 hrest, hinsert, List.mem_cons]
    by_cases hkey : key = item.1
    · subst hkey
      rw [if_pos rfl, hfresh.1]
      constructor
      · rintro (heq | hmem)
        · right
          left
          rw [← Option.some.inj heq]
        · right
          right
          exact hmem
      · rintro (hnone | heq | hmem)
        · cases hnone
        · left
          exact congrArg (fun pair => some pair.2) heq.symm
        · right
          exact hmem
    · have hne : (key, value) ≠ item := fun heq => hkey (congrArg Prod.fst heq)
      rw [if_neg hkey]
      simp only [hne, false_or]

/-- What is found after an insertion was found before or is the inserted pair. -/
theorem get?_insert_eq_some [InsertPolicy] {m : FiniteMap Key Value} {key other : Key}
    {value found : Value} (h : (m.insert key value).get? other = some found) :
    m.get? other = some found ∨ (other, found) = (key, value) := by
  unfold insert put at h
  split at h
  · exact Or.inl h
  · dsimp only at h
    split at h
    · rename_i heq
      exact Or.inr (congrArg₂ Prod.mk heq (Option.some.inj h).symm)
    · exact Or.inl h

/-- What is found after insertions was found before or is an inserted pair. -/
theorem get?_insertAll_eq_some [InsertPolicy] {m : FiniteMap Key Value}
    {items : List (Key × Value)} {key : Key} {value : Value}
    (h : (m.insertAll items).get? key = some value) :
    m.get? key = some value ∨ (key, value) ∈ items := by
  induction items generalizing m with
  | nil => exact Or.inl h
  | cons item items ih =>
    rcases ih h with hinsert | hmem
    · rcases get?_insert_eq_some hinsert with hold | heq
      · exact Or.inl hold
      · exact Or.inr (List.mem_cons.mpr (Or.inl heq))
    · exact Or.inr (List.mem_cons_of_mem _ hmem)

/-- Looking up after a value was stored. -/
theorem get?_put (m : FiniteMap Key Value) (key : Key) (value : Value) (other : Key) :
    (m.put key value).get? other = if other = key then some value else m.get? other := rfl

/-- A value that replaces another one leaves nothing of it. -/
theorem put_put (m : FiniteMap Key Value) (key : Key) (value value' : Value) :
    (m.put key value).put key value' = m.put key value' := by
  apply FiniteMap.ext
  funext other
  rw [get?_put, get?_put, get?_put]
  split
  · rfl
  · rfl

/-- Storing a value where it already is changes nothing. -/
theorem put_of_get? {m : FiniteMap Key Value} {key : Key} {value : Value}
    (h : m.get? key = some value) : m.put key value = m := by
  apply FiniteMap.ext
  funext other
  rw [get?_put]
  split
  · rename_i heq
    rw [heq, h]
  · rfl

/-- Looking up after an erasure. -/
theorem get?_erase (m : FiniteMap Key Value) (key other : Key) :
    (m.erase key).get? other = if other = key then none else m.get? other := rfl

section Indexing

variable {α : Type*} {key : α → Key} {value : α → Value} {items : List α}

omit [DecidableEq Key] in
/-- A map resolves exactly the keys of some items, to the values of these items. -/
def Indexes (m : FiniteMap Key Value) (key : α → Key) (value : α → Value) (items : List α) : Prop :=
  ∀ k v, m.get? k = some v ↔ ∃ item ∈ items, key item = k ∧ value item = v

omit [DecidableEq Key] in
/-- The empty map indexes no items. -/
theorem indexes_empty : (empty : FiniteMap Key Value).Indexes key value ([] : List α) := by
  intro k v
  simp

omit [DecidableEq Key] in
/-- A key that no item carries is not resolved. -/
theorem Indexes.get?_eq_none {m : FiniteMap Key Value} (h : m.Indexes key value items) {k : Key} :
    m.get? k = none ↔ ∀ item ∈ items, key item ≠ k := by
  constructor
  · intro hnone item hitem hkey
    have hsome := (h k (value item)).mpr ⟨item, hitem, hkey, rfl⟩
    rw [hnone] at hsome
    cases hsome
  · intro hnot
    cases hget : m.get? k with
    | none => rfl
    | some v =>
      obtain ⟨item, hitem, hkey, _⟩ := (h k v).mp hget
      exact absurd hkey (hnot item hitem)

/-- Inserting an item with a fresh key. -/
theorem Indexes.insert [InsertPolicy] {m : FiniteMap Key Value} (h : m.Indexes key value items)
    {item : α} (hfresh : ∀ other ∈ items, key other ≠ key item) :
    (m.insert (key item) (value item)).Indexes key value (items ++ [item]) := by
  intro k v
  rw [get?_insert (h.get?_eq_none.mpr hfresh)]
  by_cases hk : k = key item
  · subst hk
    rw [if_pos rfl]
    constructor
    · intro hv
      exact ⟨item, List.mem_append_right _ (List.mem_singleton_self item), rfl,
        Option.some.inj hv⟩
    · rintro ⟨other, hother, hkey, rfl⟩
      rcases List.mem_append.mp hother with hold | hnew
      · exact absurd hkey (hfresh other hold)
      · rw [List.mem_singleton.mp hnew]
  · rw [if_neg hk, h k v]
    constructor
    · rintro ⟨other, hother, hkey⟩
      exact ⟨other, List.mem_append_left _ hother, hkey⟩
    · rintro ⟨other, hother, hkey, hvalue⟩
      rcases List.mem_append.mp hother with hold | hnew
      · exact ⟨other, hold, hkey, hvalue⟩
      · rw [List.mem_singleton.mp hnew] at hkey
        exact absurd hkey.symm hk

/-- Erasing a key removes the items that carry it. -/
theorem Indexes.erase {m : FiniteMap Key Value} (h : m.Indexes key value items) (k : Key) :
    (m.erase k).Indexes key value (items.filter fun item => key item ≠ k) := by
  intro other v
  rw [get?_erase]
  by_cases hother : other = k
  · rw [if_pos hother]
    constructor
    · intro hnone
      cases hnone
    · rintro ⟨item, hitem, hkey, _⟩
      have hne := of_decide_eq_true (List.mem_filter.mp hitem).2
      exact absurd (hkey.trans hother) hne
  · rw [if_neg hother, h other v]
    constructor
    · rintro ⟨item, hitem, hkey, hvalue⟩
      have hne : key item ≠ k := fun heq => hother (hkey.symm.trans heq)
      exact ⟨item, List.mem_filter.mpr ⟨hitem, decide_eq_true hne⟩, hkey, hvalue⟩
    · rintro ⟨item, hitem, hkey, hvalue⟩
      exact ⟨item, (List.mem_filter.mp hitem).1, hkey, hvalue⟩

omit [DecidableEq Key] in
/-- Changing items without touching their keys and values. -/
theorem Indexes.map {m : FiniteMap Key Value} (h : m.Indexes key value items) {change : α → α}
    (hchange : ∀ item ∈ items, key (change item) = key item ∧ value (change item) = value item) :
    m.Indexes key value (items.map change) := by
  intro k v
  rw [h k v]
  constructor
  · rintro ⟨item, hitem, rfl, rfl⟩
    exact ⟨change item, List.mem_map_of_mem hitem, hchange item hitem⟩
  · rintro ⟨_, hmem, rfl, rfl⟩
    obtain ⟨item, hitem, rfl⟩ := List.mem_map.mp hmem
    obtain ⟨hkey, hvalue⟩ := hchange item hitem
    exact ⟨item, hitem, hkey.symm, hvalue.symm⟩

/-- Inserting items with distinct keys into the empty map. -/
theorem indexes_insertAll [InsertPolicy] (hnodup : (items.map key).Nodup) :
    (empty.insertAll (items.map fun item => (key item, value item))).Indexes key value items := by
  intro k v
  rw [get?_insertAll]
  · rw [get?_empty, List.mem_map]
    simp only [reduceCtorEq, false_or, Prod.mk.injEq]
  · rw [List.map_map]
    exact hnodup
  · intro item _
    rfl

omit [DecidableEq Key] in
/-- The keys and values of the items determine a map that indexes them. -/
theorem Indexes.unique {β : Type*} {m m' : FiniteMap Key Value} {key' : β → Key}
    {value' : β → Value} {items' : List β} (h : m.Indexes key value items)
    (h' : m'.Indexes key' value' items')
    (hsame : (items.map fun item => (key item, value item)) =
      items'.map fun item => (key' item, value' item)) : m = m' := by
  ext k v
  have hmem := congrArg (fun pairs => (k, v) ∈ pairs) hsame
  simp only [List.mem_map, Prod.mk.injEq] at hmem
  rw [h k v, h' k v, hmem]

end Indexing

end FiniteMap
