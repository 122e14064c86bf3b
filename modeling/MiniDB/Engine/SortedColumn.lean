import MiniDB.Core.SchemaLanguage
import MiniDB.Core.SchemaValidity
import MiniDB.Engine.QueryScans

/-!
# Sorting by a required column

Insertions and updates store valid records only. A column that must be present and holds strings
or integers therefore has a value of one kind in every live record, and a result is sorted by it.
-/

namespace MiniDB.Engine

open MiniDB.Common MiniDB.JsonPro MiniDB.Core Refinement

/-- A string or a number, and another that is not before it. -/
def Ascends : Json → Json → Prop
  | .string a, .string b => a ≤ b
  | .number a, .number b => Double.le a b = true
  | _, _ => False

/-- A column that must be present and holds strings or integers. -/
def Required (schema : List ColumnDef) (c : FieldName) : Prop :=
  ∃ col ∈ schema, col.name = c ∧ col.nullable = false ∧ (col.type = .STRING ∨ col.type = .INT)

/-- In valid records a required column holds strings everywhere, or whole numbers everywhere. -/
theorem values_of_required {schema : List ColumnDef} {c : FieldName} (hc : Required schema c)
    {records : List Record} (hvalid : ∀ r ∈ records, r.validate schema = .OK) :
    (∀ r ∈ records, ∃ text, getFieldRef r c = .string text) ∨
      ∀ r ∈ records, ∃ whole : ℤ, getFieldRef r c = .number (.finite whole) := by
  obtain ⟨col, hcol, rfl, hrequired, htype⟩ := hc
  have hpresent : ∀ r ∈ records, ∃ value, r.data.member? col.name = some value ∧
      typeOK col.type value = true := by
    intro r hr
    have hjudged := judged_validate r schema
    rw [hvalid r hr] at hjudged
    rcases Judged.ok_iff.mp hjudged col hcol with (⟨_, hnullable⟩ | ⟨value, hvalue, hconforms⟩) |
      ⟨hint, hvalue⟩
    · rw [hrequired] at hnullable
      cases hnullable
    · exact ⟨value, hvalue, typeOK_iff.mpr (Or.inl hconforms)⟩
    · exact ⟨_, hvalue, typeOK_iff.mpr (Or.inr ⟨hint, rfl⟩)⟩
  rcases htype with htype | htype
  · left
    intro r hr
    obtain ⟨value, hvalue, hok⟩ := hpresent r hr
    rw [htype] at hok
    unfold getFieldRef
    rw [hvalue, Option.getD_some]
    cases value with
    | string text => exact ⟨text, rfl⟩
    | _ => cases hok
  · right
    intro r hr
    obtain ⟨value, hvalue, hok⟩ := hpresent r hr
    rw [htype] at hok
    unfold getFieldRef
    rw [hvalue, Option.getD_some]
    cases value with
    | number num =>
      obtain ⟨whole, rfl⟩ := whole_of_typeOK hok
      exact ⟨whole, rfl⟩
    | _ => cases hok

/-- A string that is not before another is not less. -/
theorem ascends_string {a b : String}
    (h : ¬compareValues (.string b) (.string a) .LT = true) : Ascends (.string a) (.string b) :=
  String.not_lt.mp fun hlt => h (decide_eq_true hlt)

/-- A whole number that is not before another is not less. -/
theorem ascends_whole {a b : ℤ}
    (h : ¬compareValues (.number (.finite b)) (.number (.finite a)) .LT = true) :
    Ascends (.number (.finite a)) (.number (.finite b)) := by
  have hnot : ¬extended (.finite b) < extended (.finite a) :=
    fun hlt => h ((compareNumbers_LT_iff (by simp) (by simp)).mpr hlt)
  simpa [Ascends, extended, Double.le] using hnot

/-- Whatever is called on a new table, a query sorted by a required column returns the records that
it returns without the sort, and the values of the column do not descend, or do not ascend, between
any two positions. -/
theorem select_sorted_by_column [InsertPolicy] [StdSort] (hsort : KeepsContract StdSort.sort)
    {name : String} {id : TableID} {schema : List ColumnDef} {calls : List TableCall}
    {responses : List TableResponse} {t : Table}
    (hrun : run Table.call (Table.new name id schema) calls = .ok (responses, t))
    {c : FieldName} (hc : Required schema c) (predicates : List FilterPredicate)
    (order : SortOrder) (limit : ℕ) :
    (select t predicates (some ⟨c, order⟩) limit).records.Perm
      (select t predicates none limit).records ∧
    (order = .ASC → (select t predicates (some ⟨c, order⟩) limit).records.Pairwise
      fun a b => Ascends (getFieldRef a c) (getFieldRef b c)) ∧
    (order = .DESC → (select t predicates (some ⟨c, order⟩) limit).records.Pairwise
      fun a b => Ascends (getFieldRef b c) (getFieldRef a c)) := by
  have hvalid : ∀ r ∈ cutoff limit (matched t predicates), r.validate schema = .OK := by
    intro r hr
    exact Table.validate_of_run hrun r (List.mem_filter.mp (mem_of_mem_cutoff hr)).1
  have hvalues := values_of_required hc hvalid
  have hnumbers : ∀ r ∈ cutoff limit (matched t predicates),
      getFieldRef r c ≠ .number .nan := by
    intro r hr hnan
    rcases hvalues with hstrings | hwholes
    · obtain ⟨text, htext⟩ := hstrings r hr
      rw [hnan] at htext
      cases htext
    · obtain ⟨whole, hwhole⟩ := hwholes r hr
      rw [hnan] at hwhole
      cases hwhole
  have hsortable : Sortable c (cutoff limit (matched t predicates)) := by
    rcases hvalues with hstrings | hwholes
    · refine Or.inr (Or.inl fun r hr => ?_)
      obtain ⟨text, htext⟩ := hstrings r hr
      rw [htext]
      rfl
    · refine Or.inl fun r hr => ?_
      obtain ⟨whole, hwhole⟩ := hwholes r hr
      rw [hwhole]
      rfl
  obtain ⟨hperm, hordered⟩ := select_some_sorted hsort t predicates ⟨c, order⟩ limit hnumbers
    hsortable
  -- what is not before another record in the comparison does not descend
  have hascends : ∀ a ∈ cutoff limit (matched t predicates),
      ∀ b ∈ cutoff limit (matched t predicates),
      ¬compareValues (getFieldRef b c) (getFieldRef a c) .LT = true →
        Ascends (getFieldRef a c) (getFieldRef b c) := by
    intro a ha b hb hnot
    rcases hvalues with hstrings | hwholes
    · obtain ⟨text, htext⟩ := hstrings a ha
      obtain ⟨text', htext'⟩ := hstrings b hb
      rw [htext, htext'] at hnot ⊢
      exact ascends_string hnot
    · obtain ⟨whole, hwhole⟩ := hwholes a ha
      obtain ⟨whole', hwhole'⟩ := hwholes b hb
      rw [hwhole, hwhole'] at hnot ⊢
      exact ascends_whole hnot
  rw [select_none_records] at hperm ⊢
  refine ⟨hperm, ?_, ?_⟩
  · rintro rfl
    refine hordered.imp_of_mem fun ha hb hnot => ?_
    exact hascends _ (hperm.mem_iff.mp ha) _ (hperm.mem_iff.mp hb) hnot
  · rintro rfl
    refine hordered.imp_of_mem fun ha hb hnot => ?_
    exact hascends _ (hperm.mem_iff.mp hb) _ (hperm.mem_iff.mp ha) hnot

/-- Two names are sorted by a merge sort, the greater one first. -/
theorem select_sorted_by_name :
    letI : InsertPolicy := ⟨true⟩
    letI : StdSort := ⟨mergeSortOn⟩
    ∃ responses t, run Table.call (Table.new "people" 0 [⟨"name", .STRING, false⟩])
        [.insertRecord (.new 1 (.object [("name", .string "ann")])),
          .insertRecord (.new 2 (.object [("name", .string "bob")]))] = .ok (responses, t) ∧
      (select t [] (some ⟨"name", .DESC⟩) 0).records.Perm (select t [] none 0).records ∧
      (select t [] (some ⟨"name", .DESC⟩) 0).records.Pairwise
        fun a b => Ascends (getFieldRef b "name") (getFieldRef a "name") := by
  let _ : InsertPolicy := ⟨true⟩
  let _ : StdSort := ⟨mergeSortOn⟩
  obtain ⟨responses, t, hrun⟩ := run_total Table.call_total
    (Table.new "people" 0 [⟨"name", .STRING, false⟩])
    [.insertRecord (.new 1 (.object [("name", .string "ann")])),
      .insertRecord (.new 2 (.object [("name", .string "bob")]))]
  have hrequired : Required [⟨"name", .STRING, false⟩] "name" :=
    ⟨_, List.mem_cons_self, rfl, rfl, Or.inl rfl⟩
  obtain ⟨hperm, _, hdescends⟩ := select_sorted_by_column keepsContract_mergeSortOn hrun hrequired
    [] .DESC 0
  exact ⟨responses, t, hrun, hperm, hdescends rfl⟩

end MiniDB.Engine
