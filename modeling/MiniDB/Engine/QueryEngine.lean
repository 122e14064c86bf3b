import MiniDB.Core.Table

/-!
# Queries

`QueryEngine.cpp`: scans in page and slot order over the live records of a table, with
predicates, a limit and an optional sort. `std::sort` is a parameter.
-/

namespace MiniDB.Engine

open MiniDB.Common MiniDB.JsonPro MiniDB.Core

/-- `std::sort`, given the comparison. -/
class StdSort where
  /-- The sorted records. -/
  sort : (Record → Record → Bool) → List Record → List Record

/-- One predicate of a query. -/
structure FilterPredicate where
  /-- Field compared. -/
  field : FieldName
  /-- Value compared with. -/
  value : Json
  /-- Comparison. -/
  op : Op

/-- How a result is sorted. -/
structure SortCondition where
  /-- Field sorted by. -/
  field : FieldName
  /-- Direction. -/
  order : SortOrder

/-- What a query returns. -/
structure QueryResult where
  /-- Outcome of the query. -/
  status : Status
  /-- Copies of the matching records. -/
  records : List Record
  /-- The number of records matched. -/
  totalMatched : ℕ

/-- The comparison of two strings. -/
def compareStrings (a b : String) : Op → Bool
  | .EQ => a == b
  | .NEQ => a != b
  | .GT => b < a
  | .GTE => !(a < b)
  | .LT => a < b
  | .LTE => !(b < a)

/-- The comparison of two numbers. -/
def compareNumbers (a b : Double) : Op → Bool
  | .EQ => Double.eq a b
  | .NEQ => !Double.eq a b
  | .GT => Double.le b a && !Double.eq a b
  | .GTE => Double.le b a
  | .LT => Double.le a b && !Double.eq a b
  | .LTE => Double.le a b

/-- `compareValues`: values of different kinds do not compare. -/
def compareValues : Json → Json → Op → Bool
  | .string a, .string b, op => compareStrings a b op
  | .number a, .number b, op => compareNumbers a b op
  | .bool a, .bool b, .EQ => a == b
  | .bool a, .bool b, .NEQ => a != b
  | _, _, _ => false

/-- `getFieldRef`. -/
def getFieldRef (r : Record) (field : FieldName) : Json := (r.data.member? field).getD .null

/-- `evaluatePredicate`. -/
def evaluatePredicate (r : Record) (predicate : FilterPredicate) : Bool :=
  if !r.data.contains predicate.field then false
  else compareValues (getFieldRef r predicate.field) predicate.value predicate.op

/-- `evaluateAll`. -/
def evaluateAll (r : Record) (predicates : List FilterPredicate) : Bool :=
  predicates.all (evaluatePredicate r)

/-- The records of a table in page and slot order. -/
def scanned (t : Table) : List Record := t.getPages.flatMap Page.records

/-- The loop of `select`. -/
def selectLoop (predicates : List FilterPredicate) (limit : ℕ) :
    List Record → QueryResult → QueryResult
  | [], result => { result with status := .OK }
  | r :: records, result =>
    if r.isDeleted then selectLoop predicates limit records result
    else if !evaluateAll r predicates then selectLoop predicates limit records result
    else
      let result := { result with
        records := result.records ++ [r]
        totalMatched := result.totalMatched + 1 }
      if 0 < limit ∧ limit ≤ result.records.length then { result with status := .OK }
      else selectLoop predicates limit records result

section Sorting

variable [StdSort]

/-- `sortResults`. -/
def sortResults (records : List Record) (sort : SortCondition) : List Record :=
  StdSort.sort (fun a b =>
    match sort.order with
    | .ASC => compareValues (getFieldRef a sort.field) (getFieldRef b sort.field) .LT
    | .DESC => compareValues (getFieldRef b sort.field) (getFieldRef a sort.field) .LT) records

/-- `finishSelect`. -/
def finishSelect (result : QueryResult) : Option SortCondition → QueryResult
  | none => result
  | some sort =>
    if 1 < result.records.length then { result with records := sortResults result.records sort }
    else result

/-- `select`. -/
def select (t : Table) (predicates : List FilterPredicate) (sort : Option SortCondition)
    (limit : ℕ) : QueryResult :=
  finishSelect (selectLoop predicates limit (scanned t) ⟨.OK, [], 0⟩) sort

/-- `selectAll`. -/
def selectAll (t : Table) : QueryResult := select t [] none 0

end Sorting

/-- `hasField`. -/
def hasField (r : Record) (field : FieldName) : Bool := r.data.contains field

section Scans

variable {σ : Type}

/-- The loop of the scans that have no limit. -/
def scanLoop (predicates : List FilterPredicate) (visit : σ → Record → σ) : List Record → σ → σ
  | [], state => state
  | r :: records, state =>
    if r.isDeleted then scanLoop predicates visit records state
    else if !evaluateAll r predicates then scanLoop predicates visit records state
    else scanLoop predicates visit records (visit state r)

/-- A scan over the numbers in a field: records without the field and other values are passed
over. -/
def numberScan (t : Table) (field : FieldName) (predicates : List FilterPredicate)
    (visit : σ → Double → σ) (state : σ) : σ :=
  scanLoop predicates (fun state r =>
    if !hasField r field then state
    else match getFieldRef r field with
      | .number num => visit state num
      | _ => state) (scanned t) state

end Scans

namespace QueryEngine

/-- `count`. -/
def count (t : Table) (predicates : List FilterPredicate) : ℕ :=
  scanLoop predicates (fun total _ => total + 1) (scanned t) 0

/-- `sum`. -/
def sum (t : Table) (field : FieldName) (predicates : List FilterPredicate) : Double :=
  numberScan t field predicates (fun total num => total.add num) (.finite 0)

/-- `avg`. -/
def avg (t : Table) (field : FieldName) (predicates : List FilterPredicate) : Double :=
  let (total, count) := numberScan t field predicates
    (fun (total, count) num => (total.add num, count + 1)) (Double.finite 0, 0)
  if 0 < count then total.divCount count else .finite 0

/-- The loop of `max` and `min`: a number replaces the result if it is the first or compares with
the result. -/
def extreme (op : Op) (t : Table) (field : FieldName) (predicates : List FilterPredicate) :
    Double :=
  (numberScan t field predicates
    (fun (result, found) num =>
      if !found || compareNumbers num result op then (num, true) else (result, found))
    (Double.finite 0, false)).1

/-- `max`. -/
def max (t : Table) (field : FieldName) (predicates : List FilterPredicate) : Double :=
  extreme .GT t field predicates

/-- `min`. -/
def min (t : Table) (field : FieldName) (predicates : List FilterPredicate) : Double :=
  extreme .LT t field predicates

end QueryEngine

/-- The records of a scan that a query matches. -/
def matching (predicates : List FilterPredicate) (records : List Record) : List Record :=
  records.filter fun r => !r.isDeleted && evaluateAll r predicates

/-- What a limit leaves of the matching records; zero is no limit. -/
def cutoff (limit : ℕ) (records : List Record) : List Record :=
  if limit = 0 then records else records.take limit

/-- The loop of `select` ends with success. It collects the matching records up to the limit and
counts what it collects. -/
theorem selectLoop_eq (predicates : List FilterPredicate) (limit : ℕ) (records : List Record)
    {result : QueryResult} (hcount : result.totalMatched = result.records.length)
    (hroom : limit = 0 ∨ result.records.length < limit) :
    selectLoop predicates limit records result =
      ⟨.OK, cutoff limit (result.records ++ matching predicates records),
        (cutoff limit (result.records ++ matching predicates records)).length⟩ := by
  induction records generalizing result with
  | nil =>
    have hall : cutoff limit (result.records ++ matching predicates []) = result.records := by
      unfold cutoff matching
      rw [List.filter_nil, List.append_nil]
      split
      · rfl
      · exact List.take_of_length_le (by omega)
    unfold selectLoop
    rw [hall, ← hcount]
  | cons r records ih =>
    unfold selectLoop
    by_cases hdeleted : r.isDeleted = true
    · rw [if_pos hdeleted, ih hcount hroom]
      simp [matching, hdeleted]
    · rw [if_neg hdeleted]
      by_cases hmatch : evaluateAll r predicates = true
      · have hcons : result.records ++ matching predicates (r :: records) =
            result.records ++ [r] ++ matching predicates records := by
          simp [matching, hdeleted, hmatch]
        rw [if_neg (by simp [hmatch]), hcons]
        dsimp only
        by_cases hfull : 0 < limit ∧ limit ≤ (result.records ++ [r]).length
        · have hlast : limit = (result.records ++ [r]).length := by
            rw [List.length_append, List.length_singleton] at hfull ⊢
            omega
          have hcut : cutoff limit (result.records ++ [r] ++ matching predicates records) =
              result.records ++ [r] := by
            rw [cutoff, if_neg (by omega), hlast, List.take_left]
          rw [if_pos hfull, hcut, hcount, List.length_append, List.length_singleton]
        · rw [if_neg hfull]
          refine ih ?_ ?_
          · dsimp only
            rw [hcount, List.length_append, List.length_singleton]
          · dsimp only
            omega
      · rw [if_pos (by simp [hmatch]), ih hcount hroom]
        simp [matching, hmatch]

/-- What the loop of `select` makes of a whole scan. -/
theorem selectLoop_start (predicates : List FilterPredicate) (limit : ℕ) (records : List Record) :
    selectLoop predicates limit records ⟨.OK, [], 0⟩ =
      ⟨.OK, cutoff limit (matching predicates records),
        (cutoff limit (matching predicates records)).length⟩ :=
  @selectLoop_eq predicates limit records ⟨.OK, [], 0⟩ rfl (Nat.eq_zero_or_pos limit)

/-- A query without a sort returns the matching records up to the limit and counts what it
returns. -/
theorem select_none [StdSort] (t : Table) (predicates : List FilterPredicate) (limit : ℕ) :
    select t predicates none limit =
      ⟨.OK, cutoff limit (matching predicates (scanned t)),
        (cutoff limit (matching predicates (scanned t))).length⟩ :=
  selectLoop_start predicates limit (scanned t)

/-- A sort changes only the order of the records. -/
theorem select_some [StdSort] (t : Table) (predicates : List FilterPredicate)
    (sort : SortCondition) (limit : ℕ) :
    select t predicates (some sort) limit =
      { select t predicates none limit with
        records := if 1 < (select t predicates none limit).records.length then
            sortResults (select t predicates none limit).records sort
          else (select t predicates none limit).records } := by
  change finishSelect (select t predicates none limit) (some sort) = _
  unfold finishSelect
  dsimp only
  split
  · rfl
  · rfl

/-- A query always succeeds. -/
theorem select_status [StdSort] (t : Table) (predicates : List FilterPredicate)
    (sort : Option SortCondition) (limit : ℕ) : (select t predicates sort limit).status = .OK := by
  cases sort with
  | none => rw [select_none]
  | some sort => rw [select_some, select_none]

/-- Without predicates the live records of all pages match. -/
theorem matching_nil (t : Table) : matching [] (scanned t) = t.pages.flatMap Page.live := by
  unfold matching scanned Table.getPages
  simp only [evaluateAll, List.all_nil, Bool.and_true]
  rw [List.filter_flatMap]
  rfl

/-- The full scan returns the live records of all pages, in order. -/
theorem selectAll_records [StdSort] (t : Table) :
    (selectAll t).records = t.pages.flatMap Page.live := by
  unfold selectAll
  rw [select_none, cutoff, if_pos rfl, matching_nil]

end MiniDB.Engine
