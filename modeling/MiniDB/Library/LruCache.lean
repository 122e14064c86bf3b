import MiniDB.Library.KeyedList

/-!
# Least-recently-used caches

A cache of bounded capacity holds values under distinct keys in the order of their last
use. Storing under a new key into a full cache drops the entry that was used least
recently, its victim; apart from that the cache behaves as a map.
-/

universe u v

/-- A cache, most recently used entry first. -/
structure LruCache (κ : Type u) (α : Type v) (capacity : ℕ) where
  /-- The entries, in the order of their last use. -/
  entries : List (κ × α)
  /-- No key is stored twice. -/
  nodup : (entries.map Prod.fst).Nodup
  /-- The capacity is respected. -/
  length_le : entries.length ≤ capacity

namespace LruCache

variable {κ : Type u} {α : Type v} {capacity : ℕ}

/-- The cache without entries. -/
def empty : LruCache κ α capacity := ⟨[], List.nodup_nil, Nat.zero_le _⟩

variable [DecidableEq κ]

/-- The value stored under a key. Looking at it is no use of the key. -/
def peek (cache : LruCache κ α capacity) (key : κ) : Option α :=
  (KeyedList.lookup Prod.fst cache.entries key).map Prod.snd

/-- Whether a value is stored under a key. -/
def contains (cache : LruCache κ α capacity) (key : κ) : Bool := (cache.peek key).isSome

/-- The entries under other keys. -/
def others (entries : List (κ × α)) (key : κ) : List (κ × α) :=
  entries.filter fun entry => entry.1 ≠ key

private theorem nodup_cons_others {entries : List (κ × α)} (h : (entries.map Prod.fst).Nodup)
    (key : κ) (value : α) : (((key, value) :: others entries key).map Prod.fst).Nodup := by
  rw [List.map_cons, List.nodup_cons]
  constructor
  · rw [List.mem_map]
    rintro ⟨entry, hentry, hkey⟩
    exact of_decide_eq_true (List.mem_filter.mp hentry).2 hkey
  · exact h.sublist (List.filter_sublist.map Prod.fst)

/-- Store a value under a key and make it the most recently used. -/
def put (cache : LruCache κ α capacity) (key : κ) (value : α) : LruCache κ α capacity where
  entries := ((key, value) :: others cache.entries key).take capacity
  nodup := (nodup_cons_others cache.nodup key value).sublist ((List.take_sublist _ _).map _)
  length_le := List.length_take_le _ _

/-- Use a key: its value, and the cache with its entry as the most recently used. -/
def get (cache : LruCache κ α capacity) (key : κ) : Option α × LruCache κ α capacity :=
  match cache.peek key with
  | none => (none, cache)
  | some value => (some value, cache.put key value)

/-- Remove the entry under a key. -/
def erase (cache : LruCache κ α capacity) (key : κ) : LruCache κ α capacity where
  entries := others cache.entries key
  nodup := cache.nodup.sublist (List.filter_sublist.map Prod.fst)
  length_le := Nat.le_trans (List.length_filter_le _ _) cache.length_le

/-- Change the value under a key in place. -/
def modify (cache : LruCache κ α capacity) (key : κ) (change : α → α) :
    LruCache κ α capacity where
  entries := cache.entries.map fun entry =>
    if entry.1 = key then (entry.1, change entry.2) else entry
  nodup := by
    have hkeep : ∀ entry : κ × α, (entry.1, change entry.2).1 = entry.1 := fun _ => rfl
    rw [KeyedList.map_change Prod.fst hkeep]
    exact cache.nodup
  length_le := by
    rw [List.length_map]
    exact cache.length_le

/-- The entry that storing under a key drops: if the key is new and the cache is full, the
one used least recently. -/
def victim (cache : LruCache κ α capacity) (key : κ) : Option (κ × α) :=
  if cache.contains key || cache.entries.length < capacity then none
  else cache.entries.getLast?

/-- An entry is found under its key. -/
theorem peek_eq_some {cache : LruCache κ α capacity} {key : κ} {value : α} :
    cache.peek key = some value ↔ (key, value) ∈ cache.entries := by
  unfold peek
  rw [Option.map_eq_some_iff]
  constructor
  · rintro ⟨⟨found, _⟩, hfound, rfl⟩
    obtain ⟨hmem, rfl⟩ := (KeyedList.lookup_eq_some Prod.fst cache.nodup).mp hfound
    exact hmem
  · intro hmem
    exact ⟨(key, value), (KeyedList.lookup_eq_some Prod.fst cache.nodup).mpr ⟨hmem, rfl⟩, rfl⟩

/-- A key without a value is carried by no entry. -/
theorem peek_eq_none {cache : LruCache κ α capacity} {key : κ} :
    cache.peek key = none ↔ key ∉ cache.entries.map Prod.fst := by
  unfold peek
  rw [Option.map_eq_none_iff, KeyedList.lookup_eq_none]

@[simp] theorem peek_erase (cache : LruCache κ α capacity) (key other : κ) :
    (cache.erase key).peek other = if other = key then none else cache.peek other := by
  unfold peek erase others
  rw [KeyedList.lookup_remove]
  split <;> rfl

@[simp] theorem peek_modify (cache : LruCache κ α capacity) (key : κ) (change : α → α)
    (other : κ) :
    (cache.modify key change).peek other =
      if other = key then (cache.peek other).map change else cache.peek other := by
  unfold peek modify
  have hkeep : ∀ entry : κ × α, (entry.1, change entry.2).1 = entry.1 := fun _ => rfl
  rw [KeyedList.lookup_change Prod.fst hkeep]
  split
  · rw [Option.map_map, Option.map_map]
    rfl
  · rfl

/-- Fewer entries are under other keys than a present one. -/
private theorem others_length_lt {cache : LruCache κ α capacity} {key : κ} {value : α}
    (h : cache.peek key = some value) :
    (others cache.entries key).length < cache.entries.length := by
  apply List.length_filter_lt_length_iff_exists.mpr
  exact ⟨(key, value), peek_eq_some.mp h, by simp⟩

/-- Without a victim, everything but the old value under the key is kept. -/
private theorem entries_put_of_room {cache : LruCache κ α capacity} {key : κ}
    (h : cache.contains key = true ∨ cache.entries.length < capacity) (value : α) :
    (cache.put key value).entries = (key, value) :: others cache.entries key := by
  apply List.take_of_length_le
  rw [List.length_cons]
  rcases h with hcontains | hroom
  · obtain ⟨old, hold⟩ := Option.isSome_iff_exists.mp hcontains
    exact Nat.le_trans (others_length_lt hold) cache.length_le
  · exact Nat.lt_of_le_of_lt (List.length_filter_le _ _) hroom

/-- With a victim, everything but the victim is kept. -/
private theorem entries_put_of_full {cache : LruCache κ α capacity} {key : κ}
    (hpos : 0 < capacity) (habsent : cache.contains key = false)
    (hfull : ¬cache.entries.length < capacity) (value : α) :
    ∃ kept last, cache.entries = kept ++ [last] ∧ cache.victim key = some last ∧
      (cache.put key value).entries = (key, value) :: kept := by
  have hne : cache.entries ≠ [] := by
    intro hempty
    rw [hempty] at hfull
    exact hfull hpos
  have hlength : cache.entries.length = capacity :=
    Nat.le_antisymm cache.length_le (Nat.not_lt.mp hfull)
  have hothers : others cache.entries key = cache.entries :=
    KeyedList.remove_of_notMem Prod.fst
      (peek_eq_none.mp (Option.isSome_eq_false_iff.mp habsent |> Option.isNone_iff_eq_none.mp))
  refine ⟨cache.entries.dropLast, cache.entries.getLast hne,
    (List.dropLast_append_getLast hne).symm, ?_, ?_⟩
  · unfold victim
    rw [habsent, Bool.false_or, if_neg (by simpa using hfull), List.getLast?_eq_some_getLast hne]
  · obtain ⟨room, rfl⟩ := Nat.exists_eq_add_one.mpr hpos
    unfold put
    dsimp only
    rw [hothers, List.take_succ_cons, List.dropLast_eq_take, hlength]
    rfl

/-- After storing, the key has its value, the victim is gone and the rest is as before. -/
theorem peek_put (hpos : 0 < capacity) (cache : LruCache κ α capacity) (key : κ) (value : α)
    (other : κ) :
    (cache.put key value).peek other =
      if other = key then some value
      else if (cache.victim key).map Prod.fst = some other then none
      else cache.peek other := by
  by_cases hother : other = key
  · subst hother
    rw [if_pos rfl, peek_eq_some]
    obtain ⟨room, rfl⟩ := Nat.exists_eq_add_one.mpr hpos
    change _ ∈ List.take (room + 1) _
    rw [List.take_succ_cons]
    exact List.mem_cons_self
  · rw [if_neg hother]
    have hhead : ∀ entries : List (κ × α),
        KeyedList.lookup Prod.fst ((key, value) :: entries) other =
          KeyedList.lookup Prod.fst entries other := by
      intro entries
      exact List.find?_cons_of_neg (by simpa using fun h : key = other => hother h.symm)
    by_cases hroom : cache.contains key = true ∨ cache.entries.length < capacity
    · have hvictim : cache.victim key = none := by
        apply if_pos
        simpa using hroom
      rw [hvictim, Option.map_none, if_neg (by simp)]
      unfold peek
      rw [entries_put_of_room hroom, hhead]
      unfold others
      rw [KeyedList.lookup_remove, if_neg hother]
    · rw [not_or, Bool.not_eq_true] at hroom
      obtain ⟨kept, last, hentries, hvictim, hput⟩ := entries_put_of_full hpos hroom.1 hroom.2 value
      have hfresh : last.1 ∉ (kept ++ []).map Prod.fst := by
        have hnodup := cache.nodup
        rw [hentries, List.map_append, List.nodup_append] at hnodup
        rw [List.append_nil]
        intro hmem
        exact hnodup.2.2 _ hmem _ (List.mem_singleton.mpr rfl) rfl
      have hlookup := KeyedList.lookup_insert Prod.fst hfresh other
      rw [List.append_nil] at hlookup
      rw [hvictim, Option.map_some]
      unfold peek
      rw [hput, hhead, hentries, hlookup]
      by_cases hlast : last.1 = other
      · subst hlast
        rw [if_pos rfl,
          (KeyedList.lookup_eq_none Prod.fst).mpr (by rwa [List.append_nil] at hfresh)]
        rfl
      · rw [if_neg (by simpa using hlast), if_neg fun h : other = last.1 => hlast h.symm]

/-- Storing under a present key drops nothing. -/
theorem victim_of_contains {cache : LruCache κ α capacity} {key : κ}
    (h : cache.contains key = true) : cache.victim key = none := by
  apply if_pos
  rw [h, Bool.true_or]

/-- A victim is an entry under another key. -/
theorem peek_of_victim {cache : LruCache κ α capacity} {key other : κ} {value : α}
    (h : cache.victim key = some (other, value)) : cache.peek other = some value := by
  unfold victim at h
  split at h
  · cases h
  · exact peek_eq_some.mpr (List.mem_of_getLast? h)

/-- Using a key returns its value. -/
@[simp] theorem get_fst (cache : LruCache κ α capacity) (key : κ) :
    (cache.get key).1 = cache.peek key := by
  unfold get
  split
  · rename_i h
    rw [h]
  · rename_i h
    rw [h]

/-- Using a key changes no value. -/
@[simp] theorem peek_get (hpos : 0 < capacity) (cache : LruCache κ α capacity) (key other : κ) :
    (cache.get key).2.peek other = cache.peek other := by
  unfold get
  split
  · rfl
  · rename_i value h
    have hcontains : cache.contains key = true := by
      unfold contains
      rw [h]
      rfl
    rw [peek_put hpos, victim_of_contains hcontains, Option.map_none]
    by_cases hother : other = key
    · rw [if_pos hother, hother, h]
    · rw [if_neg hother, if_neg (Option.some_ne_none other).symm]

/-- Storing under a key drops nothing: the key is present or the cache is not full. -/
def HasRoom (cache : LruCache κ α capacity) (key : κ) : Prop :=
  cache.contains key = true ∨ cache.entries.length < capacity

namespace HasRoom

variable {cache : LruCache κ α capacity} {key : κ}

/-- Where there is room there is no victim. -/
theorem victim (h : cache.HasRoom key) : cache.victim key = none := by
  apply if_pos
  rw [Bool.or_eq_true, decide_eq_true_iff]
  exact h

/-- Storing under a key with room changes no other value. -/
theorem peek_put (h : cache.HasRoom key) (hpos : 0 < capacity) (value : α) {other : κ}
    (hother : other ≠ key) : (cache.put key value).peek other = cache.peek other := by
  rw [LruCache.peek_put hpos, if_neg hother, h.victim, Option.map_none,
    if_neg (Option.some_ne_none other).symm]

/-- There is room for a key that was stored. -/
theorem put (hpos : 0 < capacity) (cache : LruCache κ α capacity) (key : κ) (value : α) :
    (cache.put key value).HasRoom key := by
  left
  unfold contains
  rw [LruCache.peek_put hpos, if_pos rfl]
  rfl

/-- Using a key keeps room for it. -/
theorem get (h : cache.HasRoom key) (hpos : 0 < capacity) : (cache.get key).2.HasRoom key := by
  unfold LruCache.get
  split
  · exact h
  · exact put hpos cache key _

/-- Changing a value keeps room. -/
theorem modify (h : cache.HasRoom key) (change : α → α) :
    (cache.modify key change).HasRoom key := by
  rcases h with hcontains | hroom
  · left
    unfold contains at hcontains ⊢
    rw [peek_modify, if_pos rfl, Option.isSome_map]
    exact hcontains
  · right
    unfold LruCache.modify
    rw [List.length_map]
    exact hroom

/-- Removing an entry keeps room for its key. -/
theorem erase (h : cache.HasRoom key) : (cache.erase key).HasRoom key := by
  right
  rcases h with hcontains | hroom
  · obtain ⟨value, hvalue⟩ := Option.isSome_iff_exists.mp hcontains
    exact Nat.lt_of_lt_of_le (others_length_lt hvalue) cache.length_le
  · exact Nat.lt_of_le_of_lt (List.length_filter_le _ _) hroom

end HasRoom

end LruCache
