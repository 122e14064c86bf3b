import MiniDB.Library.FiniteMap
import MiniDB.Library.KeyedList

/-!
# Keys on shelves

Keys lie on shelves, and shelves stand in a row. One index leads from a key to the name of
its shelf, another one from the name of a shelf to its position. As long as the names and
the keys are distinct, both stay correct when shelves and keys are added and removed.
-/

namespace TwoLevelIndex

variable {Key Shelf : Type*}

/-- The two indices lead from every key to its shelf and from every shelf to its position. -/
structure Indexed (layout : List (Shelf × List Key)) (index : FiniteMap Key Shelf)
    (shelfIndex : FiniteMap Shelf ℕ) : Prop where
  /-- No two shelves share a name. -/
  shelves : (layout.map Prod.fst).Nodup
  /-- No key lies in two places. -/
  keys : (layout.flatMap Prod.snd).Nodup
  /-- The names of shelves lead to their positions. -/
  shelfIndex : ∀ shelf position, shelfIndex.get? shelf = some position ↔
    (layout.map Prod.fst)[position]? = some shelf
  /-- Keys lead to the names of their shelves. -/
  index : ∀ key shelf, index.get? key = some shelf ↔ ∃ keys, (shelf, keys) ∈ layout ∧ key ∈ keys

variable {layout : List (Shelf × List Key)} {index : FiniteMap Key Shelf}
  {shelfIndex : FiniteMap Shelf ℕ}

/-- Nothing is indexed on an empty row. -/
theorem indexed_nil : Indexed ([] : List (Shelf × List Key)) FiniteMap.empty FiniteMap.empty where
  shelves := List.nodup_nil
  keys := List.nodup_nil
  shelfIndex := by simp
  index := by simp

/-- There is only one way to index a row. -/
theorem Indexed.unique (h : Indexed layout index shelfIndex) {index' : FiniteMap Key Shelf}
    {shelfIndex' : FiniteMap Shelf ℕ} (h' : Indexed layout index' shelfIndex') :
    index = index' ∧ shelfIndex = shelfIndex' := by
  constructor
  · ext key shelf
    rw [h.index, h'.index]
  · ext shelf position
    rw [h.shelfIndex, h'.shelfIndex]

/-- A key that is known is found on its shelf. -/
theorem Indexed.find (h : Indexed layout index shelfIndex) {key : Key} {shelf : Shelf}
    (hindex : index.get? key = some shelf) :
    ∃ position keys, shelfIndex.get? shelf = some position ∧
      layout[position]? = some (shelf, keys) ∧ key ∈ keys := by
  obtain ⟨keys, hmem, hkey⟩ := (h.index key shelf).mp hindex
  obtain ⟨position, hposition⟩ := List.mem_iff_getElem?.mp hmem
  refine ⟨position, keys, ?_, hposition, hkey⟩
  rw [h.shelfIndex, List.getElem?_map, hposition]
  rfl

/-- Exactly the keys that lie on no shelf are unknown. -/
theorem Indexed.index_eq_none (h : Indexed layout index shelfIndex) {key : Key} :
    index.get? key = none ↔ key ∉ layout.flatMap Prod.snd := by
  rw [List.mem_flatMap]
  constructor
  · rintro hnone ⟨⟨shelf, keys⟩, hmem, hkey⟩
    have hsome := (h.index key shelf).mpr ⟨keys, hmem, hkey⟩
    rw [hnone] at hsome
    cases hsome
  · intro hnot
    rw [Option.eq_none_iff_forall_ne_some]
    intro shelf hsome
    obtain ⟨keys, hmem, hkey⟩ := (h.index key shelf).mp hsome
    exact hnot ⟨(shelf, keys), hmem, hkey⟩

/-- Names that no shelf has are unknown. -/
theorem Indexed.shelfIndex_eq_none (h : Indexed layout index shelfIndex) {shelf : Shelf}
    (hshelf : shelf ∉ layout.map Prod.fst) : shelfIndex.get? shelf = none := by
  rw [Option.eq_none_iff_forall_ne_some]
  intro position hsome
  exact hshelf (List.mem_of_getElem? ((h.shelfIndex shelf position).mp hsome))

/-- An empty shelf with a fresh name may be put behind the others. -/
theorem Indexed.addShelf [InsertPolicy] [DecidableEq Shelf] (h : Indexed layout index shelfIndex)
    {shelf : Shelf} (hfresh : shelf ∉ layout.map Prod.fst) :
    Indexed (layout ++ [(shelf, [])]) index (shelfIndex.insert shelf layout.length) := by
  constructor
  · rw [List.map_append]
    exact List.nodup_append.mpr ⟨h.shelves, List.nodup_singleton _, by
      rintro old hold new hnew rfl
      have hname : old = shelf := List.mem_singleton.mp hnew
      exact hfresh (hname ▸ hold)⟩
  · rw [List.flatMap_append]
    simpa using h.keys
  · intro other position
    rw [FiniteMap.get?_insert (h.shelfIndex_eq_none hfresh), List.map_append,
      List.getElem?_append, List.length_map]
    by_cases hother : other = shelf
    · subst hother
      rw [if_pos rfl, Option.some.injEq]
      constructor
      · rintro rfl
        simp
      · intro hposition
        split at hposition
        · exact absurd (List.mem_of_getElem? hposition) hfresh
        · have hlt := (List.getElem?_eq_some_iff.mp hposition).1
          simp only [List.map_cons, List.map_nil, List.length_singleton] at hlt
          omega
    · rw [if_neg hother, h.shelfIndex]
      split
      · rfl
      · rename_i hle
        constructor
        · intro hposition
          have hlt := (List.getElem?_eq_some_iff.mp hposition).1
          rw [List.length_map] at hlt
          exact absurd hlt hle
        · intro hposition
          have hlast := List.mem_singleton.mp (List.mem_of_getElem? hposition)
          exact absurd hlast hother
  · intro key other
    rw [h.index]
    constructor
    · rintro ⟨keys, hmem, hkey⟩
      exact ⟨keys, List.mem_append_left _ hmem, hkey⟩
    · rintro ⟨keys, hmem, hkey⟩
      rcases List.mem_append.mp hmem with hold | hnew
      · exact ⟨keys, hold, hkey⟩
      · cases List.mem_singleton.mp hnew
        cases hkey

/-- Whether a key lies on a shelf does not depend on the other keys of a replaced shelf. -/
private theorem lies_congr {left right : List (Shelf × List Key)} {shelf name : Shelf}
    {keys keys' : List Key} {key : Key} (hsame : key ∈ keys ↔ key ∈ keys') :
    (∃ found, (name, found) ∈ left ++ (shelf, keys) :: right ∧ key ∈ found) ↔
      ∃ found, (name, found) ∈ left ++ (shelf, keys') :: right ∧ key ∈ found := by
  have hforth : ∀ {keys keys' : List Key}, (key ∈ keys → key ∈ keys') →
      (∃ found, (name, found) ∈ left ++ (shelf, keys) :: right ∧ key ∈ found) →
        ∃ found, (name, found) ∈ left ++ (shelf, keys') :: right ∧ key ∈ found := by
    rintro keys keys' himp ⟨found, hmem, hkey⟩
    rcases List.mem_append.mp hmem with hleft | hmem
    · exact ⟨found, List.mem_append_left _ hleft, hkey⟩
    · rcases List.mem_cons.mp hmem with hmid | hright
      · cases hmid
        exact ⟨keys', List.mem_append_right _ List.mem_cons_self, himp hkey⟩
      · exact ⟨found, List.mem_append_right _ (List.mem_cons_of_mem _ hright), hkey⟩
  exact ⟨hforth hsame.mp, hforth hsame.mpr⟩

variable [DecidableEq Key]

/-- A fresh key may be put on a shelf. -/
theorem Indexed.addKey [InsertPolicy] (h : Indexed layout index shelfIndex) {position : ℕ}
    {shelf : Shelf} {keys : List Key} (hposition : layout[position]? = some (shelf, keys))
    {key : Key} (hfresh : key ∉ layout.flatMap Prod.snd) :
    Indexed (layout.set position (shelf, keys ++ [key])) (index.insert key shelf) shelfIndex := by
  obtain ⟨left, right, rfl, hset⟩ := KeyedList.exists_around hposition
  have hshelves : ((left ++ (shelf, keys ++ [key]) :: right).map Prod.fst) =
      (left ++ (shelf, keys) :: right).map Prod.fst := by simp
  rw [hset]
  constructor
  · rw [hshelves]
    exact h.shelves
  · have hkeys := h.keys
    have hperm : List.Perm ((left ++ (shelf, keys ++ [key]) :: right).flatMap Prod.snd)
        (key :: (left ++ (shelf, keys) :: right).flatMap Prod.snd) := by
      simp only [List.flatMap_append, List.flatMap_cons, List.append_assoc, List.singleton_append]
      rw [← List.append_assoc, ← List.append_assoc]
      exact List.perm_middle
    rw [hperm.nodup_iff, List.nodup_cons]
    exact ⟨hfresh, hkeys⟩
  · intro other position
    rw [hshelves]
    exact h.shelfIndex other position
  · intro other name
    rw [FiniteMap.get?_insert (h.index_eq_none.mpr hfresh)]
    rw [List.mem_flatMap] at hfresh
    by_cases hother : other = key
    · subst hother
      rw [if_pos rfl, Option.some.injEq]
      constructor
      · rintro rfl
        exact ⟨keys ++ [other], by simp, by simp⟩
      · rintro ⟨found, hmem, hkey⟩
        rcases List.mem_append.mp hmem with hleft | hmid
        · exact absurd ⟨_, List.mem_append_left _ hleft, hkey⟩ hfresh
        · rcases List.mem_cons.mp hmid with hsame | hright
          · exact (congrArg Prod.fst hsame).symm
          · exact absurd ⟨_, List.mem_append_right _ (List.mem_cons_of_mem _ hright), hkey⟩ hfresh
    · rw [if_neg hother, h.index]
      apply lies_congr
      rw [List.mem_append, List.mem_singleton, or_iff_left hother]

/-- A key may be taken off its shelf. -/
theorem Indexed.removeKey (h : Indexed layout index shelfIndex) {position : ℕ} {shelf : Shelf}
    {keys : List Key} (hposition : layout[position]? = some (shelf, keys)) {key : Key}
    (hkey : key ∈ keys) :
    Indexed (layout.set position (shelf, keys.filter fun other => other ≠ key)) (index.erase key)
      shelfIndex := by
  obtain ⟨left, right, rfl, hset⟩ := KeyedList.exists_around hposition
  have hshelves : ((left ++ (shelf, keys.filter fun other => other ≠ key) :: right).map Prod.fst) =
      (left ++ (shelf, keys) :: right).map Prod.fst := by simp
  have hkeys := h.keys
  rw [List.flatMap_append, List.flatMap_cons] at hkeys
  rw [hset]
  constructor
  · rw [hshelves]
    exact h.shelves
  · rw [List.flatMap_append, List.flatMap_cons]
    exact hkeys.sublist ((List.Sublist.refl _).append (List.filter_sublist.append_right _))
  · intro other position
    rw [hshelves]
    exact h.shelfIndex other position
  · intro other name
    rw [FiniteMap.get?_erase]
    by_cases hother : other = key
    · subst hother
      rw [if_pos rfl]
      obtain ⟨_, hmid, hdisjoint⟩ := List.nodup_append.mp hkeys
      constructor
      · intro hnone
        cases hnone
      · rintro ⟨found, hmem, hlies⟩
        exfalso
        rcases List.mem_append.mp hmem with hleft | hmem
        · exact hdisjoint other (List.mem_flatMap.mpr ⟨_, hleft, hlies⟩) other
            (List.mem_append_left _ hkey) rfl
        · rcases List.mem_cons.mp hmem with hsame | hright
          · cases hsame
            simp at hlies
          · exact (List.nodup_append.mp hmid).2.2 other hkey other
              (List.mem_flatMap.mpr ⟨_, hright, hlies⟩) rfl
    · rw [if_neg hother, h.index]
      apply lies_congr
      simp [hother]

end TwoLevelIndex
