import MiniDB.Core.TableRefinement
import MiniDB.Engine.SortComparison
import MiniDB.Library.Sorting
import Mathlib.Algebra.BigOperators.Group.List.Basic
import Mathlib.Order.Bounds.Basic

/-!
# What the scans of a query compute

`select`, `count`, `sum`, `avg`, `max` and `min` each walk over the pages on their own. All of
them see the same matching records, in page and slot order.
-/

namespace MiniDB.Engine

open MiniDB.Common MiniDB.JsonPro MiniDB.Core Refinement

/-- The live records of a table that satisfy all predicates, in page and slot order. -/
def matched (t : Table) (predicates : List FilterPredicate) : List Record :=
  t.liveRecords.filter fun r => evaluateAll r predicates

/-- The numbers that records hold in a field, in their order. -/
def numbers (field : FieldName) (records : List Record) : List ℚ :=
  records.filterMap fun r =>
    match getFieldRef r field with
    | .number (.finite value) => some value
    | _ => none

/-- Every number in the fields of records is finite. -/
def ExactNumbers (records : List Record) : Prop :=
  ∀ r ∈ records, ∀ field num, getFieldRef r field = .number num → ∃ value, num = .finite value

/-- The scans match the records they should. -/
theorem matching_scanned (t : Table) (predicates : List FilterPredicate) :
    matching predicates (scanned t) = matched t predicates := by
  unfold matching matched scanned Table.liveRecords Table.getPages
  rw [List.filter_flatMap, List.filter_flatMap]
  congr 1
  funext page
  rw [Page.live, List.filter_filter]
  exact List.filter_congr fun r _ => Bool.and_comm _ _

/-- A missing field reads as null. -/
theorem getFieldRef_of_missing {r : Record} {field : FieldName}
    (hmissing : hasField r field = false) : getFieldRef r field = .null := by
  unfold hasField Json.contains at hmissing
  unfold getFieldRef
  rw [Option.not_isSome_iff_eq_none.mp (Bool.eq_false_iff.mp hmissing), Option.getD_none]

section Scans

variable {σ : Type}

/-- A scan without a limit visits the matching records in order. -/
theorem scanLoop_eq (predicates : List FilterPredicate) (visit : σ → Record → σ)
    (records : List Record) (state : σ) :
    scanLoop predicates visit records state =
      (matching predicates records).foldl visit state := by
  induction records generalizing state with
  | nil => rfl
  | cons r records ih =>
    unfold scanLoop
    by_cases hdeleted : r.isDeleted = true
    · rw [if_pos hdeleted, ih]
      simp [matching, hdeleted]
    · rw [if_neg hdeleted]
      by_cases hmatch : evaluateAll r predicates = true
      · rw [if_neg (by simp [hmatch]), ih]
        simp [matching, hdeleted, hmatch]
      · rw [if_pos (by simp [hmatch]), ih]
        simp [matching, hmatch]

/-- A scan over a field visits the numbers of the matching records in order. -/
theorem numberScan_eq {t : Table} (hexact : ExactNumbers t.liveRecords) (field : FieldName)
    (predicates : List FilterPredicate) (visit : σ → Double → σ) (state : σ) :
    numberScan t field predicates visit state =
      (numbers field (matched t predicates)).foldl
        (fun state value => visit state (.finite value)) state := by
  have hmem : ∀ r ∈ matched t predicates, r ∈ t.liveRecords :=
    fun r hr => (List.mem_filter.mp hr).1
  unfold numberScan
  rw [scanLoop_eq, matching_scanned]
  generalize matched t predicates = records at hmem
  induction records generalizing state with
  | nil => rfl
  | cons r records ih =>
    rw [List.forall_mem_cons] at hmem
    rw [List.foldl_cons, ih _ hmem.2]
    cases hpresent : hasField r field with
    | false => simp [numbers, getFieldRef_of_missing hpresent]
    | true =>
      cases hvalue : getFieldRef r field with
      | number num =>
        obtain ⟨value, rfl⟩ := hexact r hmem.1 field num hvalue
        simp [numbers, hvalue]
      | _ => simp [numbers, hvalue]

end Scans

/-- Exact numbers are added up. -/
theorem foldl_add (values : List ℚ) (total : ℚ) :
    values.foldl (fun (total : Double) value => total.add (.finite value)) (.finite total) =
      .finite (total + values.sum) := by
  induction values generalizing total with
  | nil => simp
  | cons value values ih =>
    rw [List.foldl_cons, List.sum_cons, ← add_assoc]
    exact ih (total + value)

/-- Exact numbers are added up and counted. -/
theorem foldl_addCount (values : List ℚ) (total : ℚ) (count : ℕ) :
    values.foldl (fun (state : Double × ℕ) value => (state.1.add (.finite value), state.2 + 1))
      (.finite total, count) = (.finite (total + values.sum), count + values.length) := by
  induction values generalizing total count with
  | nil => simp
  | cons value values ih =>
    rw [List.foldl_cons, List.sum_cons, List.length_cons, ← add_assoc]
    have hcount : count + (values.length + 1) = count + 1 + values.length := by omega
    rw [hcount]
    exact ih (total + value) (count + 1)

/-- The loop of `max` and `min` ends with a number of the scan that no other beats, where beating
is what the comparison of the loop decides. -/
theorem foldl_extreme {op : Op} {beats : ℚ → ℚ → Prop}
    (hop : ∀ a b, compareNumbers (.finite a) (.finite b) op = true ↔ beats a b)
    (hasymm : ∀ {a b}, beats a b → ¬beats b a)
    (htrans : ∀ {a b c}, ¬beats a b → ¬beats b c → ¬beats a c) (values : List ℚ) (best : ℚ) :
    ∃ final, (values.foldl (fun (state : Double × Bool) value =>
        if !state.2 || compareNumbers (.finite value) state.1 op then (.finite value, true)
        else state) (.finite best, true)).1 = .finite final ∧
      final ∈ best :: values ∧ ∀ value ∈ best :: values, ¬beats value final := by
  -- induction on the numbers; the best one so far stands at the front
  induction values generalizing best with
  | nil =>
    refine ⟨best, rfl, List.mem_singleton_self best, fun value hvalue => ?_⟩
    rw [List.mem_singleton.mp hvalue]
    exact fun h => hasymm h h
  | cons value values ih =>
    rw [List.foldl_cons]
    by_cases hbeats : beats value best
    · rw [if_pos (by simp [(hop value best).mpr hbeats])]
      obtain ⟨final, hfold, hfinal, hbest⟩ := ih value
      refine ⟨final, hfold, List.mem_cons_of_mem best hfinal, ?_⟩
      rw [List.forall_mem_cons]
      exact ⟨htrans (hasymm hbeats) (hbest value List.mem_cons_self), hbest⟩
    · have hcompare : compareNumbers (.finite value) (.finite best) op = false :=
        Bool.eq_false_iff.mpr (mt (hop value best).mp hbeats)
      rw [if_neg (by simp [hcompare])]
      obtain ⟨final, hfold, hfinal, hbest⟩ := ih best
      rw [List.forall_mem_cons] at hbest
      refine ⟨final, hfold, ?_, ?_⟩
      · rcases List.mem_cons.mp hfinal with rfl | hrest
        · exact List.mem_cons_self
        · exact List.mem_cons_of_mem _ (List.mem_cons_of_mem _ hrest)
      · rw [List.forall_mem_cons, List.forall_mem_cons]
        exact ⟨hbest.1, htrans hbeats hbest.1, hbest.2⟩

/-- The loop of `max` and `min` returns zero without numbers, and otherwise one of the numbers that
no other beats. -/
theorem extreme_eq {t : Table} (hexact : ExactNumbers t.liveRecords) (field : FieldName)
    (predicates : List FilterPredicate) (op : Op) (beats : ℚ → ℚ → Prop)
    (hop : ∀ a b, compareNumbers (.finite a) (.finite b) op = true ↔ beats a b)
    (hasymm : ∀ {a b}, beats a b → ¬beats b a)
    (htrans : ∀ {a b c}, ¬beats a b → ¬beats b c → ¬beats a c) :
    ∃ final, QueryEngine.extreme op t field predicates = .finite final ∧
      (numbers field (matched t predicates) = [] → final = 0) ∧
      (numbers field (matched t predicates) ≠ [] →
        final ∈ numbers field (matched t predicates) ∧
        ∀ value ∈ numbers field (matched t predicates), ¬beats value final) := by
  unfold QueryEngine.extreme
  rw [numberScan_eq hexact]
  cases numbers field (matched t predicates) with
  | nil => exact ⟨0, rfl, fun _ => rfl, fun h => absurd rfl h⟩
  | cons value values =>
    obtain ⟨final, hfold, hfinal⟩ := foldl_extreme hop hasymm htrans values value
    exact ⟨final, hfold, fun h => absurd h (List.cons_ne_nil _ _), fun _ => hfinal⟩

/-- What queries return and compute agrees with the matching records. -/
structure ScansAgree [StdSort] (t : Table) (predicates : List FilterPredicate)
    (field : FieldName) (sort : Option SortCondition) (limit : ℕ) : Prop where
  /-- Without a sort and a limit all matching records are returned. -/
  all : (select t predicates none 0).records = matched t predicates
  /-- With a limit the first of them are returned. -/
  first : 0 < limit → (select t predicates none limit).records =
    (matched t predicates).take (Min.min limit (matched t predicates).length)
  /-- With a limit and a sort the same records are returned, in some order. -/
  sorted : 0 < limit →
    (select t predicates sort limit).records.Perm (select t predicates none limit).records
  /-- They are counted. -/
  count : QueryEngine.count t predicates = (matched t predicates).length
  /-- Their numbers are added up. -/
  sum : QueryEngine.sum t field predicates =
    .finite (numbers field (matched t predicates)).sum
  /-- The average is the sum divided by how many there are, zero if there are none. -/
  avg : QueryEngine.avg t field predicates = .finite
    ((numbers field (matched t predicates)).sum / (numbers field (matched t predicates)).length)
  /-- The maximum is the largest number, zero if there are none. -/
  max : ∃ value, QueryEngine.max t field predicates = .finite value ∧
    (numbers field (matched t predicates) = [] → value = 0) ∧
    (numbers field (matched t predicates) ≠ [] →
      IsGreatest {value | value ∈ numbers field (matched t predicates)} value)
  /-- The minimum is the smallest number, zero if there are none. -/
  min : ∃ value, QueryEngine.min t field predicates = .finite value ∧
    (numbers field (matched t predicates) = [] → value = 0) ∧
    (numbers field (matched t predicates) ≠ [] →
      IsLeast {value | value ∈ numbers field (matched t predicates)} value)

/-- Matching records are counted. -/
theorem count_eq (t : Table) (predicates : List FilterPredicate) :
    QueryEngine.count t predicates = (matched t predicates).length := by
  unfold QueryEngine.count
  rw [scanLoop_eq, matching_scanned]
  simp

/-- The numbers of matching records are averaged. -/
theorem avg_eq {t : Table} (hexact : ExactNumbers t.liveRecords) (field : FieldName)
    (predicates : List FilterPredicate) :
    QueryEngine.avg t field predicates = .finite
      ((numbers field (matched t predicates)).sum /
        (numbers field (matched t predicates)).length) := by
  unfold QueryEngine.avg
  rw [numberScan_eq hexact]
  have hfold := foldl_addCount (numbers field (matched t predicates)) 0 0
  rw [zero_add, zero_add] at hfold
  rw [hfold]
  dsimp only
  cases numbers field (matched t predicates) with
  | nil => simp
  | cons value values => rw [if_pos (by simp), Double.divCount]

/-- The maximum is the largest number of matching records. -/
theorem max_eq {t : Table} (hexact : ExactNumbers t.liveRecords) (field : FieldName)
    (predicates : List FilterPredicate) :
    ∃ value, QueryEngine.max t field predicates = .finite value ∧
      (numbers field (matched t predicates) = [] → value = 0) ∧
      (numbers field (matched t predicates) ≠ [] →
        IsGreatest {value | value ∈ numbers field (matched t predicates)} value) := by
  obtain ⟨value, hvalue, hnone, hsome⟩ := extreme_eq hexact field predicates .GT
    (fun a b => b < a)
    (fun a b => by simp [compareNumbers, Double.le, Double.eq, lt_iff_le_and_ne, ne_comm])
    (fun h => lt_asymm h) (fun hab hbc => not_lt.mpr ((not_lt.mp hab).trans (not_lt.mp hbc)))
  refine ⟨value, hvalue, hnone, fun hne => ?_⟩
  obtain ⟨hmem, hbest⟩ := hsome hne
  exact ⟨hmem, fun other hother => not_lt.mp (hbest other hother)⟩

/-- The minimum is the smallest number of matching records. -/
theorem min_eq {t : Table} (hexact : ExactNumbers t.liveRecords) (field : FieldName)
    (predicates : List FilterPredicate) :
    ∃ value, QueryEngine.min t field predicates = .finite value ∧
      (numbers field (matched t predicates) = [] → value = 0) ∧
      (numbers field (matched t predicates) ≠ [] →
        IsLeast {value | value ∈ numbers field (matched t predicates)} value) := by
  obtain ⟨value, hvalue, hnone, hsome⟩ := extreme_eq hexact field predicates .LT
    (fun a b => a < b)
    (fun a b => by simp [compareNumbers, Double.le, Double.eq, lt_iff_le_and_ne])
    (fun h => lt_asymm h) (fun hab hbc => not_lt.mpr ((not_lt.mp hbc).trans (not_lt.mp hab)))
  refine ⟨value, hvalue, hnone, fun hne => ?_⟩
  obtain ⟨hmem, hbest⟩ := hsome hne
  exact ⟨hmem, fun other hother => not_lt.mp (hbest other hother)⟩

/-- What a query without a sort returns. -/
theorem select_none_records [StdSort] (t : Table) (predicates : List FilterPredicate)
    (limit : ℕ) :
    (select t predicates none limit).records = cutoff limit (matched t predicates) := by
  rw [select_none, matching_scanned]

/-- What a query with a sort returns. -/
theorem select_some_records [StdSort] (t : Table) (predicates : List FilterPredicate)
    (sort : SortCondition) (limit : ℕ) :
    (select t predicates (some sort) limit).records =
      if 1 < (cutoff limit (matched t predicates)).length then
        StdSort.sort (sortBefore sort) (cutoff limit (matched t predicates))
      else cutoff limit (matched t predicates) := by
  rw [select_some, select_none_records]
  dsimp only
  rw [sortResults_eq]

/-- What a limit leaves was there. -/
theorem mem_of_mem_cutoff {limit : ℕ} {records : List Record} {r : Record}
    (h : r ∈ cutoff limit records) : r ∈ records := by
  unfold cutoff at h
  split at h
  · exact h
  · exact List.mem_of_mem_take h

/-- No value differs from itself. -/
theorem not_differ_self (value : Json) : ¬Differ value value := by
  cases value <;> simp [Differ]

/-- At most one record is sortable. -/
theorem sortable_of_length_le {records : List Record} (h : ¬1 < records.length)
    (field : FieldName) : Sortable field records := by
  refine Or.inr (Or.inr fun a ha b hb => ?_)
  match records, h with
  | [r], _ =>
    rw [List.mem_singleton.mp ha, List.mem_singleton.mp hb]
    exact not_differ_self _
  | _ :: _ :: _, h => exact absurd (by simp) h

/-- A sorted result holds the records of the unsorted one, none before an earlier one, if these are
sortable by the field. -/
theorem select_some_sorted [StdSort] (hsort : KeepsContract StdSort.sort) (t : Table)
    (predicates : List FilterPredicate) (sort : SortCondition) (limit : ℕ)
    (hnumbers : ∀ r ∈ cutoff limit (matched t predicates),
      getFieldRef r sort.field ≠ .number .nan)
    (hsortable : Sortable sort.field (cutoff limit (matched t predicates))) :
    (select t predicates (some sort) limit).records.Perm
      (select t predicates none limit).records ∧
    (select t predicates (some sort) limit).records.Pairwise
      fun a b => ¬sortBefore sort b a = true := by
  have horder := (strictWeakOrderOn_sortBefore sort hnumbers).mpr
    ((sortable_iff hnumbers).mp hsortable)
  rw [select_some_records, select_none_records]
  split
  · exact hsort (sortBefore sort) _ horder
  · rename_i hlength
    refine ⟨List.Perm.refl _, ?_⟩
    match cutoff limit (matched t predicates), hlength with
    | [], _ => exact List.Pairwise.nil
    | [r], _ => exact List.pairwise_singleton _ _
    | _ :: _ :: _, hlength => exact absurd (by simp) hlength

/-- A query returns the same records with a sort as without, whichever sort that keeps its contract
is used, exactly if these are sortable by the field. -/
theorem perm_select_iff (t : Table) (predicates : List FilterPredicate) (sort : SortCondition)
    (limit : ℕ)
    (hnumbers : ∀ r ∈ cutoff limit (matched t predicates),
      getFieldRef r sort.field ≠ .number .nan) :
    (∀ std : StdSort, KeepsContract std.sort →
      (select t predicates (some sort) limit).records.Perm
        (select t predicates none limit).records) ↔
      Sortable sort.field (cutoff limit (matched t predicates)) := by
  by_cases hlength : 1 < (cutoff limit (matched t predicates)).length
  · rw [sortable_iff hnumbers, ← strictWeakOrderOn_sortBefore sort hnumbers, ← forall_perm_iff]
    have hunsorted : ∀ std : StdSort, (select t predicates none limit).records =
        cutoff limit (matched t predicates) := fun _ => select_none_records t predicates limit
    have hsorted : ∀ std : StdSort, (select t predicates (some sort) limit).records =
        std.sort (sortBefore sort) (cutoff limit (matched t predicates)) := by
      intro std
      rw [select_some_records, if_pos hlength]
    constructor
    · intro hall sort' hsort
      have hperm := hall ⟨sort'⟩ hsort
      rwa [hsorted, hunsorted] at hperm
    · intro hall std hsort
      rw [hsorted, hunsorted]
      exact hall std.sort hsort
  · refine ⟨fun _ => sortable_of_length_le hlength sort.field, fun _ std _ => ?_⟩
    rw [select_some_records, select_none_records, if_neg hlength]

/-- The scans agree, whichever sort that keeps its contract is used, if and only if the records that
a limit leaves to be sorted are sortable by the field. -/
theorem scansAgree_iff {t : Table} (hexact : ExactNumbers t.liveRecords)
    (predicates : List FilterPredicate) (field : FieldName) (sort : Option SortCondition)
    (limit : ℕ) :
    (∀ std : StdSort, KeepsContract std.sort → ScansAgree t predicates field sort limit) ↔
      (0 < limit → ∀ condition ∈ sort,
        Sortable condition.field (cutoff limit (matched t predicates))) := by
  have hnumbers : ∀ condition : SortCondition, ∀ r ∈ cutoff limit (matched t predicates),
      getFieldRef r condition.field ≠ .number .nan := by
    intro condition r hr hnan
    have hlive := (List.mem_filter.mp (mem_of_mem_cutoff hr)).1
    obtain ⟨value, hvalue⟩ := hexact r hlive condition.field _ hnan
    cases hvalue
  have hperm : (∀ std : StdSort, KeepsContract std.sort →
      (select t predicates sort limit).records.Perm (select t predicates none limit).records) ↔
        ∀ condition ∈ sort, Sortable condition.field (cutoff limit (matched t predicates)) := by
    cases sort with
    | none => exact ⟨fun _ _ h => (by cases h), fun _ _ _ => List.Perm.refl _⟩
    | some condition =>
      rw [perm_select_iff t predicates condition limit (hnumbers condition)]
      simp
  rw [← hperm]
  refine ⟨fun h hlimit std hsort => (h std hsort).sorted hlimit, fun h std hsort => ?_⟩
  constructor
  · rw [select_none_records, cutoff, if_pos rfl]
  · intro hlimit
    rw [select_none_records, cutoff, if_neg (Nat.pos_iff_ne_zero.mp hlimit)]
    rw [← List.take_take, List.take_length]
  · exact fun hlimit => h hlimit std hsort
  · exact count_eq t predicates
  · unfold QueryEngine.sum
    rw [numberScan_eq hexact, foldl_add, zero_add]
  · exact avg_eq hexact field predicates
  · exact max_eq hexact field predicates
  · exact min_eq hexact field predicates

/-- A table into which records were inserted one after the other. -/
def filled [InsertPolicy] (schema : List ColumnDef) (records : List Record) : Table :=
  records.foldl (fun t r => (t.insertRecord r).2) (Table.new "people" 0 schema)

/-- The scans agree over two negative numbers. -/
theorem scansAgree_negative :
    letI : InsertPolicy := ⟨true⟩
    letI : StdSort := ⟨mergeSortOn⟩
    ScansAgree (filled [] [.new 1 (.object [("age", .ofInt (-2))]),
      .new 2 (.object [("age", .ofInt (-1))])]) [] "age" none 1 := by
  let _ : InsertPolicy := ⟨true⟩
  refine (scansAgree_iff ?_ [] "age" none 1).mpr (fun _ _ h => (by cases h)) ⟨mergeSortOn⟩
    keepsContract_mergeSortOn
  intro r hr field num hnum
  have hlive : r ∈ [Record.new 1 (.object [("age", .ofInt (-2))]),
      .new 2 (.object [("age", .ofInt (-1))])] := hr
  simp only [List.mem_cons, List.not_mem_nil, or_false] at hlive
  rcases hlive with rfl | rfl
  all_goals
    by_cases hfield : field = "age"
    · subst hfield
      exact ⟨_, (Json.number.inj hnum).symm⟩
    · have hne : (field == "age") = false := beq_eq_false_iff_ne.mpr hfield
      simp [getFieldRef, Record.new, Json.member?, List.lookup_cons, hne] at hnum

/-- Records one of which lacks the field that the others differ in are lost by some sort. -/
theorem not_scansAgree_gap :
    letI : InsertPolicy := ⟨true⟩
    ¬∀ std : StdSort, KeepsContract std.sort →
      ScansAgree (filled [⟨"age", .INT, true⟩] recordsWithGap) [] "age"
        (some ⟨"age", .ASC⟩) 3 := by
  let _ : InsertPolicy := ⟨true⟩
  intro h
  have hmatched : cutoff 3 (matched (filled [⟨"age", .INT, true⟩] recordsWithGap) []) =
      recordsWithGap := rfl
  have hsortable := (perm_select_iff (filled [⟨"age", .INT, true⟩] recordsWithGap) []
    ⟨"age", .ASC⟩ 3 ?_).mp fun std hsort => (h std hsort).sorted (by decide)
  · rw [hmatched] at hsortable
    rcases hsortable with hnumber | hstring | hsame
    · exact Bool.false_ne_true (hnumber (.new 2 Json.emptyObject) (by simp [recordsWithGap]))
    · exact Bool.false_ne_true (hstring (.new 2 Json.emptyObject) (by simp [recordsWithGap]))
    · refine hsame (.new 1 (.object [("age", .ofInt 2)])) (by simp [recordsWithGap])
        (.new 3 (.object [("age", .ofInt 1)])) (by simp [recordsWithGap]) ?_
      change Double.ofInt 2 ≠ Double.ofInt 1
      decide
  · rw [hmatched]
    intro r hr
    simp only [recordsWithGap, List.mem_cons, List.not_mem_nil, or_false] at hr
    rcases hr with rfl | rfl | rfl
    all_goals
      intro h
      cases h

/-- A query counts as many records as `count` does if and only if its limit cuts none of them
off. -/
theorem totalMatched_eq_count_iff [StdSort] (t : Table) (predicates : List FilterPredicate)
    (sort : Option SortCondition) (limit : ℕ) :
    (select t predicates sort limit).totalMatched = QueryEngine.count t predicates ↔
      limit = 0 ∨ (matched t predicates).length ≤ limit := by
  have htotal : (select t predicates sort limit).totalMatched =
      (cutoff limit (matched t predicates)).length := by
    cases sort with
    | none => rw [select_none, matching_scanned]
    | some condition => rw [select_some, select_none, matching_scanned]
  rw [htotal, count_eq]
  unfold cutoff
  by_cases hlimit : limit = 0
  · simp [hlimit]
  · rw [if_neg hlimit, List.length_take]
    omega

/-- A query for one of two records reports that one record matched. -/
theorem totalMatched_of_limit :
    letI : InsertPolicy := ⟨true⟩
    letI : StdSort := ⟨fun _ records => records⟩
    (select (filled [] [.new 1 Json.emptyObject, .new 2 Json.emptyObject]) [] none
      1).totalMatched = 1 ∧
    QueryEngine.count (filled [] [.new 1 Json.emptyObject, .new 2 Json.emptyObject]) [] = 2 :=
  ⟨rfl, rfl⟩

end MiniDB.Engine
