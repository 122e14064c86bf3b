import MiniDB.Library.Keyset
import MiniDB.Engine.QueryScans

/-!
# Reading a table page by page

Each query is sorted by a field, limited to the size of a page and asks for what lies behind the
last value of the page before. The limit stops the scan before the sort, so that a page holds the
first matching records of the scan and not the least.
-/

namespace MiniDB.Engine

open MiniDB.Common MiniDB.JsonPro MiniDB.Core

/-- The query for the page behind a value, for the first page if there is none. -/
def pageBehind [StdSort] (t : Table) (f : FieldName) (k : ℕ) (after : Option Json) :
    List Record :=
  (select t (after.toList.map fun value => ⟨f, value, .GT⟩) (some ⟨f, .ASC⟩) k).records

/-- The pages of a table: the queries end with the first page that is not full. -/
def paginate [StdSort] (t : Table) (f : FieldName) (k fuel : ℕ) : Option (List (List Record)) :=
  pagesFrom (pageBehind t f k) (fun r => getFieldRef r f) k fuel none

/-- The place of a value among the numbers; nothing lies behind another value. -/
def numberPlace : Json → WithTop (WithBot (WithTop ℚ))
  | .number .nan => ⊤
  | .number num => (extended num : WithTop (WithBot (WithTop ℚ)))
  | _ => ⊤

/-- The live records hold numbers in a field. -/
def NumbersIn (t : Table) (f : FieldName) : Prop :=
  ∀ r ∈ t.liveRecords, ∃ num, num ≠ Double.nan ∧ getFieldRef r f = .number num

/-- The place of a number is its place between the infinities. -/
theorem numberPlace_number {num : Double} (hnum : num ≠ .nan) :
    numberPlace (.number num) = (extended num : WithTop (WithBot (WithTop ℚ))) := by
  cases num with
  | nan => exact absurd rfl hnum
  | infinity _ => rfl
  | finite _ => rfl

/-- Numbers compare as their places. -/
theorem compareValues_LT_iff_numberPlace {a b : Double} (ha : a ≠ .nan) (hb : b ≠ .nan) :
    compareValues (.number a) (.number b) .LT = true ↔
      numberPlace (.number a) < numberPlace (.number b) := by
  rw [numberPlace_number ha, numberPlace_number hb, WithTop.coe_lt_coe]
  exact compareNumbers_LT_iff ha hb

/-- A number is greater than a value exactly if it lies behind it. -/
theorem compareValues_GT_iff {num : Double} (hnum : num ≠ .nan) (value : Json) :
    compareValues (.number num) value .GT = true ↔
      numberPlace value < numberPlace (.number num) := by
  cases value with
  | number other =>
    by_cases hother : other = .nan
    · subst hother
      simp [compareValues, compareNumbers, Double.le, numberPlace]
    · rw [← compareValues_LT_iff_numberPlace hother hnum]
      have hsymm : compareNumbers num other .GT = compareNumbers other num .LT := by
        cases num <;> cases other <;> simp [compareNumbers, Double.eq, BEq.comm]
      exact Bool.eq_iff_iff.mp hsymm
  | _ => simp [compareValues, numberPlace]

/-- Different numbers have different places. -/
theorem numberPlace_injective {a b : Double} (ha : a ≠ .nan) (hb : b ≠ .nan)
    (h : numberPlace (.number a) = numberPlace (.number b)) : a = b := by
  rw [numberPlace_number ha, numberPlace_number hb, WithTop.coe_inj] at h
  exact extended_injective ha hb h

/-- Live records compare as the places of their numbers. -/
theorem NumbersIn.before_iff {t : Table} {f : FieldName} (h : NumbersIn t f) {a b : Record}
    (ha : a ∈ t.liveRecords) (hb : b ∈ t.liveRecords) :
    compareValues (getFieldRef a f) (getFieldRef b f) .LT = true ↔
      numberPlace (getFieldRef a f) < numberPlace (getFieldRef b f) := by
  obtain ⟨x, hx, hfield⟩ := h a ha
  obtain ⟨y, hy, hfield'⟩ := h b hb
  rw [hfield, hfield']
  exact compareValues_LT_iff_numberPlace hx hy

/-- Live records with different numbers have different places. -/
theorem NumbersIn.places_nodup {t : Table} {f : FieldName} (h : NumbersIn t f)
    (hdistinct : (t.liveRecords.map fun r => getFieldRef r f).Nodup) :
    (t.liveRecords.map fun r => numberPlace (getFieldRef r f)).Nodup := by
  have hplaces : ((t.liveRecords.map fun r => getFieldRef r f).map numberPlace).Nodup := by
    apply hdistinct.map_on
    rintro value hvalue value' hvalue' hplace
    obtain ⟨a, ha, rfl⟩ := List.mem_map.mp hvalue
    obtain ⟨b, hb, rfl⟩ := List.mem_map.mp hvalue'
    obtain ⟨x, hx, hfield⟩ := h a ha
    obtain ⟨y, hy, hfield'⟩ := h b hb
    rw [hfield, hfield'] at hplace ⊢
    rw [numberPlace_injective hx hy hplace]
  rwa [List.map_map] at hplaces

/-- The query for the page behind a value matches the live records behind it. -/
theorem matched_behind {t : Table} {f : FieldName} (hnumbers : NumbersIn t f)
    (after : Option Json) :
    matched t (after.toList.map fun value => ⟨f, value, .GT⟩) =
      behind numberPlace (fun r => getFieldRef r f) t.liveRecords after := by
  unfold matched behind
  apply List.filter_congr
  intro r hr
  obtain ⟨num, hnum, hfield⟩ := hnumbers r hr
  cases after with
  | none => simp [evaluateAll]
  | some value =>
    have hpresent : hasField r f = true := by
      by_contra hmissing
      rw [getFieldRef_of_missing (Bool.eq_false_iff.mpr hmissing)] at hfield
      cases hfield
    unfold hasField at hpresent
    rw [Bool.eq_iff_iff, decide_eq_true_iff]
    simp [evaluateAll, evaluatePredicate, hpresent, hfield, compareValues_GT_iff hnum]

/-- The queries read the records of a table page by page. -/
theorem readsPages_pageBehind [StdSort] (hsort : KeepsContract StdSort.sort) {t : Table}
    {f : FieldName} (hnumbers : NumbersIn t f) {k : ℕ} (hk : 0 < k) :
    ReadsPages numberPlace (fun r => getFieldRef r f) t.liveRecords k (pageBehind t f k) := by
  have hpage : ∀ after : Option Json, ∀ r ∈
      cutoff k (matched t (after.toList.map fun value => ⟨f, value, .GT⟩)),
      ∃ num, num ≠ Double.nan ∧ getFieldRef r f = .number num :=
    fun after r hr => hnumbers r (List.mem_filter.mp (mem_of_mem_cutoff hr)).1
  have hselect : ∀ after : Option Json,
      (pageBehind t f k after).Perm
        (cutoff k (matched t (after.toList.map fun value => ⟨f, value, .GT⟩))) ∧
      (pageBehind t f k after).Pairwise
        fun a b => ¬compareValues (getFieldRef b f) (getFieldRef a f) .LT = true := by
    intro after
    have hsorted := select_some_sorted hsort t (after.toList.map fun value => ⟨f, value, .GT⟩)
      ⟨f, .ASC⟩ k ?_ (Or.inl ?_)
    · rwa [select_none_records] at hsorted
    · intro r hr hnan
      obtain ⟨num, hnum, hfield⟩ := hpage after r hr
      rw [hfield] at hnan
      exact hnum (Json.number.inj hnan)
    · intro r hr
      obtain ⟨num, _, hfield⟩ := hpage after r hr
      rw [hfield]
      rfl
  constructor
  · intro after
    have hperm := (hselect after).1
    rwa [cutoff, if_neg (Nat.pos_iff_ne_zero.mp hk), matched_behind hnumbers] at hperm
  · intro after
    obtain ⟨hperm, hsorted⟩ := hselect after
    refine hsorted.imp_of_mem fun {a b} ha hb hnot => ?_
    obtain ⟨x, hx, hfield⟩ := hpage after a (hperm.mem_iff.mp ha)
    obtain ⟨y, hy, hfield'⟩ := hpage after b (hperm.mem_iff.mp hb)
    rw [hfield, hfield', compareValues_LT_iff_numberPlace hy hx, not_lt] at hnot
    rwa [hfield, hfield']

/-- The pages of a table whose live records hold different numbers in a field end. They list every
live record once and in increasing order exactly if the scan order increases from one block of the
size of a page to the next. -/
theorem paginate_iff [StdSort] (hsort : KeepsContract StdSort.sort) {t : Table} {f : FieldName}
    (hnumbers : NumbersIn t f) (hdistinct : (t.liveRecords.map fun r => getFieldRef r f).Nodup)
    {k : ℕ} (hk : 1 ≤ k) :
    ∃ pages, (∀ fuel, t.liveRecords.length < fuel → paginate t f k fuel = some pages) ∧
      (pages.flatten.Perm t.liveRecords ∧
        pages.flatten.Pairwise (fun a b =>
          compareValues (getFieldRef a f) (getFieldRef b f) .LT = true) ↔
        ∀ (i j : ℕ) (hi : i < t.liveRecords.length) (hj : j < t.liveRecords.length),
          i / k < j / k → compareValues (getFieldRef t.liveRecords[i] f)
            (getFieldRef t.liveRecords[j] f) .LT = true) := by
  have hall : behind numberPlace (fun r => getFieldRef r f) t.liveRecords none =
      t.liveRecords := by
    unfold behind
    exact List.filter_eq_self.mpr fun r _ => decide_eq_true nofun
  obtain ⟨pages, hpages, _, hiff⟩ :=
    (readsPages_pageBehind hsort hnumbers hk).pages hk
      (hnumbers.places_nodup hdistinct) none
  rw [hall] at hpages hiff
  refine ⟨pages, hpages, Iff.trans (and_congr_right fun hperm => ?_) (hiff.trans ?_)⟩
  · refine List.Pairwise.iff_of_mem fun ha hb => ?_
    exact hnumbers.before_iff (hperm.mem_iff.mp ha) (hperm.mem_iff.mp hb)
  · refine forall_congr' fun i => forall_congr' fun j => forall_congr' fun hi =>
      forall_congr' fun hj => imp_congr_right fun _ => ?_
    exact (hnumbers.before_iff (List.getElem_mem hi) (List.getElem_mem hj)).symm

/-- Two records with whole numbers. -/
def twoAges (a b : ℤ) : List Record :=
  [.new 1 (.object [("age", .ofInt a)]), .new 2 (.object [("age", .ofInt b)])]

/-- Two live records with different whole numbers hold different numbers. -/
theorem numbersIn_twoAges {t : Table} {a b : ℤ} (hlive : t.liveRecords = twoAges a b)
    (hne : a ≠ b) :
    NumbersIn t "age" ∧ (t.liveRecords.map fun r => getFieldRef r "age").Nodup := by
  constructor
  · intro r hr
    rw [hlive] at hr
    simp only [twoAges, List.mem_cons, List.not_mem_nil, or_false] at hr
    rcases hr with rfl | rfl
    · exact ⟨.finite a, nofun, rfl⟩
    · exact ⟨.finite b, nofun, rfl⟩
  · rw [hlive]
    have hvalues : (twoAges a b).map (fun r => getFieldRef r "age") =
        [.number (.finite a), .number (.finite b)] := rfl
    rw [hvalues]
    simpa using hne

/-- A table whose records were inserted in order is read record by record. -/
theorem paginate_increasing :
    letI : InsertPolicy := ⟨true⟩
    letI : StdSort := ⟨mergeSortOn⟩
    ∃ pages, (∀ fuel, 2 < fuel →
        paginate (filled [] (twoAges 1 2)) "age" 1 fuel = some pages) ∧
      pages.flatten.Perm (twoAges 1 2) := by
  let _ : InsertPolicy := ⟨true⟩
  let _ : StdSort := ⟨mergeSortOn⟩
  have hlive : (filled [] (twoAges 1 2)).liveRecords = twoAges 1 2 := rfl
  obtain ⟨hnumbers, hdistinct⟩ := numbersIn_twoAges hlive (by decide)
  obtain ⟨pages, hpages, hiff⟩ := paginate_iff keepsContract_mergeSortOn hnumbers hdistinct
    (Nat.le_refl 1)
  have hperm := (hiff.mpr ?_).1
  · rw [hlive] at hpages hperm
    exact ⟨pages, hpages, hperm⟩
  intro i j hi hj hblock
  rw [Nat.div_one, Nat.div_one] at hblock
  have htwo : (filled [] (twoAges 1 2)).liveRecords.length = 2 := rfl
  obtain rfl : i = 0 := by omega
  obtain rfl : j = 1 := by omega
  have hless : compareValues (.number (.finite 1)) (.number (.finite 2)) .LT = true := by decide
  exact hless

/-- In a table whose records were inserted in the opposite order the page of the first record is
followed by an empty one. -/
theorem not_paginate_perm :
    letI : InsertPolicy := ⟨true⟩
    letI : StdSort := ⟨mergeSortOn⟩
    ¬∀ (t : Table) (f : FieldName) (k : ℕ), NumbersIn t f →
      (t.liveRecords.map fun r => getFieldRef r f).Nodup → 1 ≤ k →
      ∃ pages, (∃ queries, paginate t f k queries = some pages) ∧
        pages.flatten.Perm t.liveRecords := by
  let _ : InsertPolicy := ⟨true⟩
  let _ : StdSort := ⟨mergeSortOn⟩
  intro hall
  have hlive : (filled [] (twoAges 2 1)).liveRecords = twoAges 2 1 := rfl
  obtain ⟨hnumbers, hdistinct⟩ := numbersIn_twoAges hlive (by decide)
  obtain ⟨pages, ⟨queries, hpages⟩, hperm⟩ := hall _ "age" 1 hnumbers hdistinct (Nat.le_refl 1)
  have hfirst : pageBehind (filled [] (twoAges 2 1)) "age" 1 none = (twoAges 2 1).take 1 := rfl
  have hsecond : pageBehind (filled [] (twoAges 2 1)) "age" 1
      (((twoAges 2 1).take 1).getLast?.map fun r => getFieldRef r "age") = [] := rfl
  unfold paginate at hpages
  cases queries with
  | zero => cases hpages
  | succ queries =>
    rw [pagesFrom, hfirst] at hpages
    rw [if_neg (by decide)] at hpages
    cases queries with
    | zero => cases hpages
    | succ queries =>
      rw [pagesFrom, hsecond] at hpages
      cases hpages
      rw [hlive] at hperm
      exact absurd hperm.length_eq (by decide)

end MiniDB.Engine
