import MiniDB.Engine.QueryScans
import Mathlib.Algebra.BigOperators.Finprod
import Mathlib.Data.Set.Card

/-!
# Queries over the map of a table

A table lists its records in the order of its pages, which depends on everything that was ever
inserted and deleted. What queries answer does not: it is a function of the map that the calls
lead to, and a sorted result is one up to the order of records that tie.
-/

namespace MiniDB.Engine

open MiniDB.Common MiniDB.JsonPro MiniDB.Core Refinement

/-- The entries of a map of records that satisfy all predicates. -/
def restricted (m : RecordMap) (predicates : List FilterPredicate) : RecordMap :=
  ⟨fun id => (m.get? id).filter fun data => evaluateAll (Record.new id data) predicates⟩

/-- The identifiers in a map of records. -/
def idsOf (m : RecordMap) : Set RecordID := {id | m.contains id = true}

end MiniDB.Engine

namespace MiniDB.Core

open MiniDB.Common MiniDB.JsonPro MiniDB.Engine Refinement

section Lists

variable {records : List Record} {m : RecordMap}

/-- A live record is made of its identifier and its data. -/
theorem new_of_live {r : Record} (h : r.deleted = false) : Record.new r.id r.data = r := by
  cases r
  dsimp only at h
  rw [h]
  rfl

/-- Two lists of a map's entries differ in their order only. -/
theorem Lists.perm {others : List Record} (h : Lists records m) (hothers : Lists others m) :
    records.Perm others := by
  rw [List.perm_ext_iff_of_nodup (List.Nodup.of_map _ h.nodup)
    (List.Nodup.of_map _ hothers.nodup)]
  intro r
  rw [h.mem, hothers.mem]

/-- The records that satisfy all predicates list the entries that do. -/
theorem Lists.filter (h : Lists records m) (predicates : List FilterPredicate) :
    Lists (records.filter fun r => evaluateAll r predicates) (restricted m predicates) where
  nodup := h.nodup.sublist (List.filter_sublist.map Record.id)
  mem r := by
    rw [List.mem_filter, h.mem, restricted, Option.filter_eq_some_iff, and_assoc]
    constructor
    · rintro ⟨hdeleted, hget, hmatch⟩
      refine ⟨hdeleted, hget, ?_⟩
      rwa [new_of_live hdeleted]
    · rintro ⟨hdeleted, hget, hmatch⟩
      refine ⟨hdeleted, hget, ?_⟩
      rwa [new_of_live hdeleted] at hmatch

/-- The identifiers of a list of a map's entries are those of the map. -/
theorem Lists.idsOf_eq (h : Lists records m) : idsOf m = ↑(records.map Record.id).toFinset := by
  ext id
  rw [List.coe_toFinset, Set.mem_ofPred_eq, List.mem_map, idsOf, Set.mem_ofPred_eq,
    FiniteMap.contains, Option.isSome_iff_exists]
  constructor
  · rintro ⟨data, hdata⟩
    exact ⟨Record.new id data, (h.mem _).mpr ⟨rfl, hdata⟩, rfl⟩
  · rintro ⟨r, hr, rfl⟩
    exact ⟨r.data, ((h.mem r).mp hr).2⟩

/-- There are as many entries as identifiers. -/
theorem Lists.length_eq (h : Lists records m) : records.length = (idsOf m).ncard := by
  rw [h.idsOf_eq, Set.ncard_coe_finset, List.toFinset_card_of_nodup h.nodup, List.length_map]

end Lists

end MiniDB.Core

namespace MiniDB.Engine

open MiniDB.Common MiniDB.JsonPro MiniDB.Core Refinement

/-- Whether records are sortable does not depend on their order. -/
theorem Sortable.perm {field : FieldName} {records others : List Record}
    (h : Sortable field records) (hperm : records.Perm others) : Sortable field others := by
  rcases h with hnumber | hstring | hsame
  · exact .inl fun r hr => hnumber r (hperm.mem_iff.mpr hr)
  · exact .inr (.inl fun r hr => hstring r (hperm.mem_iff.mpr hr))
  · exact .inr (.inr fun a ha b hb =>
      hsame a (hperm.mem_iff.mpr ha) b (hperm.mem_iff.mpr hb))

end MiniDB.Engine
