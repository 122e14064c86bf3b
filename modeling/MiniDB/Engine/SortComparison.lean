import MiniDB.Library.WeakOrder
import MiniDB.Engine.QueryEngine
import Mathlib.Order.WithBot
import Mathlib.Algebra.Order.Ring.Rat

/-!
# The comparison queries are sorted by

`std::sort` needs a strict weak ordering of what it sorts. The comparison of `sortResults`
orders numbers among themselves and strings among themselves, and nothing else, so that a
missing field is unordered with every value.
-/

namespace MiniDB.Engine

open MiniDB.Common MiniDB.JsonPro MiniDB.Core

/-- The comparison `sortResults` passes to `std::sort`. -/
def sortBefore (sort : SortCondition) (a b : Record) : Bool :=
  if sort.order = .ASC then
    compareValues (getFieldRef a sort.field) (getFieldRef b sort.field) .LT
  else compareValues (getFieldRef b sort.field) (getFieldRef a sort.field) .LT

/-- A result is sorted by this comparison. -/
theorem sortResults_eq [StdSort] (records : List Record) (sort : SortCondition) :
    sortResults records sort = StdSort.sort (sortBefore sort) records := by
  unfold sortResults
  congr 1
  funext a b
  unfold sortBefore
  cases sort.order
  · rw [if_pos rfl]
  · rw [if_neg (by decide)]

/-- The kinds of values the comparison tells apart. -/
inductive ValueKind
  | number
  | string
  | unordered
  deriving DecidableEq

/-- The kind of a value. -/
def valueKind (value : Json) : ValueKind :=
  if value.isNumber then .number else if value.isString then .string else .unordered

/-- The values of the first kind. -/
theorem valueKind_eq_number {value : Json} : valueKind value = .number ↔ value.isNumber = true := by
  cases value <;> simp [valueKind, Json.isNumber, Json.isString]

/-- The values of the second kind. -/
theorem valueKind_eq_string {value : Json} : valueKind value = .string ↔ value.isString = true := by
  cases value <;> simp [valueKind, Json.isNumber, Json.isString]

/-- The doubles other than not-a-number, from one infinity to the other. -/
def extended : Double → WithBot (WithTop ℚ)
  | .finite value => ((value : WithTop ℚ) : WithBot (WithTop ℚ))
  | .infinity true => ⊥
  | .infinity false => ((⊤ : WithTop ℚ) : WithBot (WithTop ℚ))
  | .nan => ⊥

/-- Numbers compare as their places between the infinities. -/
theorem compareNumbers_LT_iff {a b : Double} (ha : a ≠ .nan) (hb : b ≠ .nan) :
    compareNumbers a b .LT = true ↔ extended a < extended b := by
  rcases a with _ | (_ | _) | x
  · exact absurd rfl ha
  all_goals rcases b with _ | (_ | _) | y
  all_goals first
    | exact absurd rfl hb
    | simp [compareNumbers, Double.le, Double.eq, extended, lt_iff_le_and_ne]

/-- Different numbers have different places. -/
theorem extended_injective {a b : Double} (ha : a ≠ .nan) (hb : b ≠ .nan)
    (h : extended a = extended b) : a = b := by
  rcases a with _ | (_ | _) | x
  · exact absurd rfl ha
  all_goals rcases b with _ | (_ | _) | y
  all_goals first
    | exact absurd rfl hb
    | simp_all [extended]

/-- What the comparison orders: two numbers, or two strings. -/
theorem compareValues_LT_iff {a b : Json} :
    compareValues a b .LT = true ↔
      (∃ x y, a = .number x ∧ b = .number y ∧ compareNumbers x y .LT = true) ∨
      ∃ x y, a = .string x ∧ b = .string y ∧ x < y := by
  constructor
  · intro h
    cases a <;> cases b <;> first
      | exact Or.inl ⟨_, _, rfl, rfl, h⟩
      | exact Or.inr ⟨_, _, rfl, rfl, of_decide_eq_true h⟩
      | exact Bool.noConfusion h
  · rintro (⟨x, y, rfl, rfl, h⟩ | ⟨x, y, rfl, rfl, h⟩)
    · exact h
    · exact decide_eq_true h

/-- Ordered values are numbers both or strings both. -/
theorem valueKind_of_before {a b : Json} (h : compareValues a b .LT = true) :
    valueKind a = valueKind b ∧ valueKind a ≠ .unordered := by
  rcases compareValues_LT_iff.mp h with ⟨x, y, rfl, rfl, _⟩ | ⟨x, y, rfl, rfl, _⟩ <;>
    exact ⟨rfl, ValueKind.noConfusion⟩

/-- Unordered numbers are equal. -/
theorem number_eq_of_incompRel {x y : Double} (hx : x ≠ .nan) (hy : y ≠ .nan)
    (h : IncompRel (fun a b => compareValues a b .LT = true) (.number x) (.number y)) : x = y := by
  have hxy : ¬extended x < extended y := fun hlt => h.1 ((compareNumbers_LT_iff hx hy).mpr hlt)
  have hyx : ¬extended y < extended x := fun hlt => h.2 ((compareNumbers_LT_iff hy hx).mpr hlt)
  exact extended_injective hx hy (le_antisymm (not_lt.mp hyx) (not_lt.mp hxy))

/-- Unordered strings are equal. -/
theorem string_eq_of_incompRel {x y : String}
    (h : IncompRel (fun a b => compareValues a b .LT = true) (.string x) (.string y)) : x = y := by
  have hxy : ¬x < y := fun hlt => h.1 (decide_eq_true hlt)
  have hyx : ¬y < x := fun hlt => h.2 (decide_eq_true hlt)
  exact String.le_antisymm (String.not_lt.mp hyx) (String.not_lt.mp hxy)

/-- Values without not-a-number are ordered inside the numbers and inside the strings. -/
theorem ordersKinds_values :
    OrdersKinds (fun a b : Json => compareValues a b .LT = true) valueKind
      {value | value ≠ .number .nan} where
  irrefl a ha hbefore := by
    rcases compareValues_LT_iff.mp hbefore with ⟨x, y, rfl, hxy, hlt⟩ | ⟨x, y, rfl, hxy, hlt⟩
    · cases hxy
      have hx : x ≠ .nan := fun h => ha (congrArg Json.number h)
      exact lt_irrefl _ ((compareNumbers_LT_iff hx hx).mp hlt)
    · cases hxy
      exact String.lt_irrefl x hlt
  trans a ha b hb c hc hab hbc := by
    rcases compareValues_LT_iff.mp hab with ⟨x, y, rfl, rfl, hxy⟩ | ⟨x, y, rfl, rfl, hxy⟩
    · rcases compareValues_LT_iff.mp hbc with ⟨y', z, hy', rfl, hyz⟩ | ⟨y', z, hy', rfl, hyz⟩
      · cases hy'
        have hx : x ≠ .nan := fun h => ha (congrArg Json.number h)
        have hy : y ≠ .nan := fun h => hb (congrArg Json.number h)
        have hz : z ≠ .nan := fun h => hc (congrArg Json.number h)
        have hlt := lt_trans ((compareNumbers_LT_iff hx hy).mp hxy)
          ((compareNumbers_LT_iff hy hz).mp hyz)
        exact compareValues_LT_iff.mpr
          (Or.inl ⟨x, z, rfl, rfl, (compareNumbers_LT_iff hx hz).mpr hlt⟩)
      · cases hy'
    · rcases compareValues_LT_iff.mp hbc with ⟨y', z, hy', rfl, hyz⟩ | ⟨y', z, hy', rfl, hyz⟩
      · cases hy'
      · cases hy'
        exact compareValues_LT_iff.mpr (Or.inr ⟨x, z, rfl, rfl, String.lt_trans hxy hyz⟩)
  kind_eq _ _ _ _ hab := (valueKind_of_before hab).1
  unordered_trans a ha b hb c hc hab hbc hunordered hunordered' := by
    cases a with
    | number x =>
      cases b <;> try cases hab
      rename_i y
      have hx : x ≠ .nan := fun h => ha (congrArg Json.number h)
      have hy : y ≠ .nan := fun h => hb (congrArg Json.number h)
      rw [number_eq_of_incompRel hx hy hunordered]
      exact hunordered'
    | string x =>
      cases b <;> try cases hab
      rw [string_eq_of_incompRel hunordered]
      exact hunordered'
    | _ =>
      exact ⟨fun hac => (valueKind_of_before hac).2 rfl,
        fun hca => (valueKind_of_before hca).2 ((hab.trans hbc).symm)⟩

/-- Two numbers, or two strings, that differ. -/
def Differ : Json → Json → Prop
  | .number a, .number b => a ≠ b
  | .string a, .string b => a ≠ b
  | _, _ => False

/-- Different numbers and different strings are ordered, and nothing else is. -/
theorem differ_iff {a b : Json} (ha : a ≠ .number .nan) (hb : b ≠ .number .nan) :
    Differ a b ↔ compareValues a b .LT = true ∨ compareValues b a .LT = true := by
  constructor
  · intro hdiffer
    by_contra hnot
    rw [not_or] at hnot
    cases a with
    | number x =>
      cases b <;> try exact hdiffer.elim
      rename_i y
      have hx : x ≠ .nan := fun h => ha (congrArg Json.number h)
      have hy : y ≠ .nan := fun h => hb (congrArg Json.number h)
      exact hdiffer (number_eq_of_incompRel hx hy hnot)
    | string x =>
      cases b <;> try exact hdiffer.elim
      exact hdiffer (string_eq_of_incompRel hnot)
    | _ => cases b <;> exact hdiffer.elim
  · intro hordered
    have hirrefl := ordersKinds_values.irrefl
    rcases hordered with h | h
    · rcases compareValues_LT_iff.mp h with ⟨x, y, rfl, rfl, _⟩ | ⟨x, y, rfl, rfl, _⟩ <;>
      · rintro rfl
        exact hirrefl _ ha h
    · rcases compareValues_LT_iff.mp h with ⟨x, y, rfl, rfl, _⟩ | ⟨x, y, rfl, rfl, _⟩ <;>
      · rintro rfl
        exact hirrefl _ ha h

/-- What a result must hold in a field to be sorted by it. -/
def Sortable (field : FieldName) (records : List Record) : Prop :=
  (∀ r ∈ records, (getFieldRef r field).isNumber = true) ∨
  (∀ r ∈ records, (getFieldRef r field).isString = true) ∨
  ∀ a ∈ records, ∀ b ∈ records, ¬Differ (getFieldRef a field) (getFieldRef b field)

/-- The values of a result are of one kind, or unordered, exactly when it is sortable. -/
theorem sortable_iff {field : FieldName} {records : List Record}
    (hnumbers : ∀ r ∈ records, getFieldRef r field ≠ .number .nan) :
    Sortable field records ↔
      (∀ a ∈ records, ∀ b ∈ records,
        ¬compareValues (getFieldRef a field) (getFieldRef b field) .LT = true) ∨
      ∀ a ∈ records, ∀ b ∈ records,
        valueKind (getFieldRef a field) = valueKind (getFieldRef b field) := by
  constructor
  · rintro (hnumber | hstring | hnone)
    · right
      intro a ha b hb
      rw [valueKind_eq_number.mpr (hnumber a ha), valueKind_eq_number.mpr (hnumber b hb)]
    · right
      intro a ha b hb
      rw [valueKind_eq_string.mpr (hstring a ha), valueKind_eq_string.mpr (hstring b hb)]
    · left
      intro a ha b hb hab
      exact hnone a ha b hb ((differ_iff (hnumbers a ha) (hnumbers b hb)).mpr (Or.inl hab))
  · rintro (hnone | hkinds)
    · refine Or.inr (Or.inr fun a ha b hb hdiffer => ?_)
      rcases (differ_iff (hnumbers a ha) (hnumbers b hb)).mp hdiffer with hab | hba
      · exact hnone a ha b hb hab
      · exact hnone b hb a ha hba
    · -- the first record tells the kind of all
      cases records with
      | nil => exact Or.inl fun r hr => absurd hr List.not_mem_nil
      | cons first rest =>
        have hfirst : ∀ r ∈ first :: rest,
            valueKind (getFieldRef r field) = valueKind (getFieldRef first field) :=
          fun r hr => hkinds r hr first List.mem_cons_self
        cases hkind : valueKind (getFieldRef first field) with
        | number =>
          exact Or.inl fun r hr => valueKind_eq_number.mp ((hfirst r hr).trans hkind)
        | string =>
          exact Or.inr (Or.inl fun r hr => valueKind_eq_string.mp ((hfirst r hr).trans hkind))
        | unordered =>
          refine Or.inr (Or.inr fun a ha b hb hdiffer => ?_)
          rcases (differ_iff (hnumbers a ha) (hnumbers b hb)).mp hdiffer with hab | hba
          · exact (valueKind_of_before hab).2 ((hfirst a ha).trans hkind)
          · exact (valueKind_of_before hba).2 ((hfirst b hb).trans hkind)

/-- `std::sort` gets a strict weak ordering of a result if and only if no two of its values are
ordered or all are of one kind. -/
theorem strictWeakOrderOn_sortBefore (sort : SortCondition) {records : List Record}
    (hnumbers : ∀ r ∈ records, getFieldRef r sort.field ≠ .number .nan) :
    StrictWeakOrderOn (fun a b => sortBefore sort a b = true) {r | r ∈ records} ↔
      (∀ a ∈ records, ∀ b ∈ records,
        ¬compareValues (getFieldRef a sort.field) (getFieldRef b sort.field) .LT = true) ∨
      ∀ a ∈ records, ∀ b ∈ records,
        valueKind (getFieldRef a sort.field) = valueKind (getFieldRef b sort.field) := by
  have hkinds := ordersKinds_values.comap (fun r : Record => getFieldRef r sort.field)
    {r | r ∈ records} hnumbers
  refine Iff.trans ?_ hkinds.strictWeakOrderOn_iff
  by_cases horder : sort.order = .ASC
  · simp only [sortBefore, if_pos horder]
  · simp only [sortBefore, if_neg horder]
    exact strictWeakOrderOn_swap_iff

/-- `std::sort` gets a strict weak ordering of a result if and only if the result is
sortable by the field. -/
theorem sortBefore_strictWeakOrderOn_iff (sort : SortCondition) (records : List Record)
    (hnumbers : ∀ r ∈ records, getFieldRef r sort.field ≠ .number .nan) :
    StrictWeakOrderOn (fun a b => sortBefore sort a b = true) {r | r ∈ records} ↔
      Sortable sort.field records := by
  rw [sortable_iff hnumbers]
  exact strictWeakOrderOn_sortBefore sort hnumbers

/-- Two records with numbers are sorted as they should be. -/
theorem sortBefore_numbers :
    StrictWeakOrderOn (fun a b => sortBefore ⟨"age", .DESC⟩ a b = true)
      {r | r ∈ [Record.new 1 (.object [("age", .ofInt 2)]),
        .new 3 (.object [("age", .ofInt 1)])]} := by
  refine (sortBefore_strictWeakOrderOn_iff ⟨"age", .DESC⟩ _ ?_).mpr (Or.inl ?_)
  · intro r hr
    rcases List.mem_cons.mp hr with rfl | hr
    · exact fun h => Json.noConfusion h fun h => Double.noConfusion h
    · cases List.mem_singleton.mp hr
      exact fun h => Json.noConfusion h fun h => Double.noConfusion h
  · decide

/-- A record without the field, between two whose fields differ. -/
def recordsWithGap : List Record :=
  [.new 1 (.object [("age", .ofInt 2)]), .new 2 Json.emptyObject,
    .new 3 (.object [("age", .ofInt 1)])]

/-- The record without the field is unordered with both others, which are ordered. -/
theorem sortBefore_recordsWithGap :
    ¬StrictWeakOrderOn (fun a b => sortBefore ⟨"age", .ASC⟩ a b = true)
      {r | r ∈ recordsWithGap} := by
  intro h
  have htrans := h.unordered_trans (.new 1 (.object [("age", .ofInt 2)])) (by simp [recordsWithGap])
    (.new 2 Json.emptyObject) (by simp [recordsWithGap])
    (.new 3 (.object [("age", .ofInt 1)])) (by simp [recordsWithGap])
    ⟨by decide, by decide⟩ ⟨by decide, by decide⟩
  exact htrans.2 (by decide)

end MiniDB.Engine
