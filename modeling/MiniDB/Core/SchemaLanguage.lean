import MiniDB.Core.Record
import Mathlib.Data.Rat.Cast.Order

/-!
# What a schema accepts

A schema decides by the first column that the data violates. `Record::validate` decides like
this, except that it lets `2 ^ 63` pass as an integer: that is what the largest 64-bit integer
is rounded to as a double.
-/

namespace MiniDB.Core

open MiniDB.Common MiniDB.JsonPro

/-- The values of a declared type. -/
def Conforms : ColumnType → Json → Prop
  | .INT, value => ∃ whole : ℤ, value = .number (.finite whole) ∧
      -2 ^ 63 ≤ whole ∧ whole ≤ 2 ^ 63 - 1
  | .DOUBLE, value => ∃ num, value = .number num
  | .STRING, value => ∃ text, value = .string text
  | .BOOL, value => ∃ flag, value = .bool flag
  | .unlisted _, _ => False

/-- A column is absent and nullable, or present with a value of its declared type. -/
def Fits (data : Json) (col : ColumnDef) : Prop :=
  (data.member? col.name = none ∧ col.nullable = true) ∨
    ∃ value, data.member? col.name = some value ∧ Conforms col.type value

/-- A column of integers holds `2 ^ 63`. -/
def AtLimit (data : Json) (col : ColumnDef) : Prop :=
  col.type = .INT ∧ data.member? col.name = some (.number (.finite (2 ^ 63)))

/-- What a schema decides if some columns pass: the first other one is an invalid schema if it is
absent and an invalid type if it is present. -/
inductive Judged (data : Json) (passes : ColumnDef → Prop) : List ColumnDef → Status → Prop
  | accepted : Judged data passes [] .OK
  | passed {col : ColumnDef} {schema : List ColumnDef} {s : Status} :
      passes col → Judged data passes schema s → Judged data passes (col :: schema) s
  | absent {col : ColumnDef} {schema : List ColumnDef} :
      ¬passes col → data.member? col.name = none →
      Judged data passes (col :: schema) .INVALID_SCHEMA
  | mistyped {col : ColumnDef} {schema : List ColumnDef} {value : Json} :
      ¬passes col → data.member? col.name = some value →
      Judged data passes (col :: schema) .INVALID_TYPE

namespace Judged

variable {data : Json} {passes : ColumnDef → Prop} {schema : List ColumnDef} {s s' : Status}

/-- A schema decides in one way. -/
theorem unique (h : Judged data passes schema s) (h' : Judged data passes schema s') :
    s = s' := by
  induction h with
  | accepted =>
    cases h'
    rfl
  | passed hpasses _ ih =>
    cases h' with
    | passed _ hrest => exact ih hrest
    | absent hnot _ => exact absurd hpasses hnot
    | mistyped hnot _ => exact absurd hpasses hnot
  | absent hnot hnone =>
    cases h' with
    | passed hpasses _ => exact absurd hpasses hnot
    | absent _ _ => rfl
    | mistyped _ hsome =>
      rw [hnone] at hsome
      cases hsome
  | mistyped hnot hsome =>
    cases h' with
    | passed hpasses _ => exact absurd hpasses hnot
    | absent _ hnone =>
      rw [hnone] at hsome
      cases hsome
    | mistyped _ _ => rfl

/-- Every schema decides. -/
theorem exists_judged (data : Json) (passes : ColumnDef → Prop) (schema : List ColumnDef) :
    ∃ s, Judged data passes schema s := by
  induction schema with
  | nil => exact ⟨.OK, accepted⟩
  | cons col schema ih =>
    by_cases hpasses : passes col
    · obtain ⟨s, hs⟩ := ih
      exact ⟨s, passed hpasses hs⟩
    · cases hmember : data.member? col.name with
      | none => exact ⟨_, absent hpasses hmember⟩
      | some value => exact ⟨_, mistyped hpasses hmember⟩

/-- Data is accepted exactly if every column passes. -/
theorem ok_iff : Judged data passes schema .OK ↔ ∀ col ∈ schema, passes col := by
  induction schema with
  | nil => exact ⟨fun _ _ h => absurd h List.not_mem_nil, fun _ => accepted⟩
  | cons col schema ih =>
    rw [List.forall_mem_cons, ← ih]
    constructor
    · intro h
      cases h with
      | passed hpasses hrest => exact ⟨hpasses, hrest⟩
    · rintro ⟨hpasses, hrest⟩
      exact passed hpasses hrest

/-- Columns in front that pass do not matter. -/
theorem append_iff {before after : List ColumnDef} (h : ∀ col ∈ before, passes col) :
    Judged data passes (before ++ after) s ↔ Judged data passes after s := by
  induction before with
  | nil => rfl
  | cons col before ih =>
    rw [List.forall_mem_cons] at h
    rw [List.cons_append, ← ih h.2]
    constructor
    · intro hjudged
      cases hjudged with
      | passed _ hrest => exact hrest
      | absent hnot _ => exact absurd h.1 hnot
      | mistyped hnot _ => exact absurd h.1 hnot
    · exact passed h.1

end Judged

/-- `2 ^ 63` is no integer of 64 bits. -/
theorem not_fits_of_atLimit {data : Json} {col : ColumnDef} (h : AtLimit data col) :
    ¬Fits data col := by
  obtain ⟨htype, hvalue⟩ := h
  rintro (⟨hnone, _⟩ | ⟨value, hsome, hconforms⟩)
  · rw [hvalue] at hnone
    cases hnone
  · rw [hvalue] at hsome
    cases hsome
    rw [htype] at hconforms
    obtain ⟨whole, hwhole, _, hle⟩ := hconforms
    injection hwhole with hwhole
    injection hwhole with hwhole
    have hcast : (whole : ℚ) = ((2 ^ 63 : ℤ) : ℚ) := by
      rw [← hwhole]
      norm_num
    have hvalue := Int.cast_injective hcast
    omega

/-- An integer passes the type check exactly up to `2 ^ 63`. -/
theorem typeOK_whole {whole : ℤ} :
    typeOK .INT (.number (.finite whole)) = true ↔ -2 ^ 63 ≤ whole ∧ whole ≤ 2 ^ 63 := by
  have hlow : (-2 ^ 63 : ℚ) ≤ whole ↔ -2 ^ 63 ≤ whole := by
    rw [← Int.cast_le (R := ℚ)]
    push_cast
    rfl
  have hhigh : (whole : ℚ) ≤ 2 ^ 63 ↔ whole ≤ 2 ^ 63 := by norm_cast
  rw [← hlow, ← hhigh]
  simp [typeOK, Double.trunc, Double.eq, Double.le, int64Limits]

/-- A number that passes the type check of integers is whole. -/
theorem whole_of_typeOK {num : Double} (h : typeOK .INT (.number num) = true) :
    ∃ whole : ℤ, num = .finite whole := by
  unfold typeOK at h
  rw [Bool.and_eq_true, Bool.and_eq_true] at h
  obtain ⟨⟨htrunc, hlow⟩, hhigh⟩ := h
  cases num with
  | nan => cases htrunc
  | infinity negative => cases negative <;> simp [Double.le, int64Limits] at hlow hhigh
  | finite value =>
    refine ⟨value.num.tdiv value.den, ?_⟩
    rw [Double.finite.injEq]
    simpa [Double.eq, Double.trunc] using htrunc

/-- The type check accepts the values of the type, and `2 ^ 63` as an integer. -/
theorem typeOK_iff {type : ColumnType} {value : Json} :
    typeOK type value = true ↔
      Conforms type value ∨ type = .INT ∧ value = .number (.finite (2 ^ 63)) := by
  cases type with
  | INT =>
    have hlimit : (2 ^ 63 : ℚ) = ((2 ^ 63 : ℤ) : ℚ) := by norm_num
    constructor
    · intro h
      cases value with
      | number num =>
        obtain ⟨whole, rfl⟩ := whole_of_typeOK h
        obtain ⟨hlow, hhigh⟩ := typeOK_whole.mp h
        by_cases hmax : whole = 2 ^ 63
        · right
          rw [hmax, hlimit]
          exact ⟨rfl, rfl⟩
        · exact Or.inl ⟨whole, rfl, hlow, by omega⟩
      | _ => cases h
    · rintro (⟨whole, rfl, hlow, hhigh⟩ | ⟨_, rfl⟩)
      · exact typeOK_whole.mpr ⟨hlow, by omega⟩
      · rw [hlimit]
        exact typeOK_whole.mpr ⟨by decide, le_refl _⟩
  | unlisted kind => simp [typeOK, Conforms]
  | _ => cases value <;> simp [typeOK, Conforms, Json.isNumber, Json.isString, Json.isBool]

/-- Validation decides like the schema, except that `2 ^ 63` passes as an integer. -/
theorem judged_validate (r : Record) (schema : List ColumnDef) :
    Judged r.data (fun col => Fits r.data col ∨ AtLimit r.data col) schema
      (r.validate schema) := by
  induction schema with
  | nil => exact .accepted
  | cons col schema ih =>
    unfold Record.validate
    cases hmember : r.data.member? col.name with
    | none =>
      dsimp only
      cases hnullable : col.nullable with
      | true =>
        rw [if_neg (by decide)]
        exact .passed (Or.inl (Or.inl ⟨hmember, hnullable⟩)) ih
      | false =>
        rw [if_pos (by decide)]
        refine .absent ?_ hmember
        simp [Fits, AtLimit, hmember, hnullable]
    | some value =>
      dsimp only
      have hpasses : typeOK col.type value = true ↔ Fits r.data col ∨ AtLimit r.data col := by
        rw [typeOK_iff]
        simp [Fits, AtLimit, hmember]
      by_cases htype : typeOK col.type value = true
      · rw [if_neg (by simp [htype])]
        exact .passed (hpasses.mp htype) ih
      · rw [if_pos (by simp [htype])]
        exact .mistyped (mt hpasses.mpr htype) hmember

/-- Validation decides as the schema does if and only if, where the first violated column is one of
integers that holds `2 ^ 63`, the first column behind it that is violated otherwise is present. -/
theorem validate_judges_iff (r : Record) (schema : List ColumnDef) :
    Judged r.data (Fits r.data) schema (r.validate schema) ↔
      ∀ before col after, schema = before ++ col :: after →
        (∀ other ∈ before, Fits r.data other) → AtLimit r.data col →
        Judged r.data (fun other => Fits r.data other ∨ AtLimit r.data other) after
          .INVALID_TYPE := by
  have hcode := judged_validate r schema
  constructor
  · rintro hjudged before col after rfl hbefore hlimit
    have hspec : Judged r.data (Fits r.data) (before ++ col :: after) .INVALID_TYPE :=
      (Judged.append_iff hbefore).mpr (.mistyped (not_fits_of_atLimit hlimit) hlimit.2)
    rw [hjudged.unique hspec] at hcode
    have hpassed : ∀ other ∈ before ++ [col], Fits r.data other ∨ AtLimit r.data other := by
      rw [List.forall_mem_append, List.forall_mem_singleton]
      exact ⟨fun other hother => Or.inl (hbefore other hother), Or.inr hlimit⟩
    rw [List.append_cons] at hcode
    exact (Judged.append_iff hpassed).mp hcode
  · intro hlimits
    obtain ⟨s, hspec⟩ := Judged.exists_judged r.data (Fits r.data) schema
    suffices hsame : Judged r.data (fun col => Fits r.data col ∨ AtLimit r.data col) schema s by
      rwa [hcode.unique hsame]
    clear hcode
    -- induction on how the schema decides; a violated column decides unless it is at the limit
    induction hspec with
    | accepted => exact .accepted
    | passed hfits _ ih =>
      refine .passed (Or.inl hfits) (ih ?_)
      rintro before col after rfl hbefore hlimit
      exact hlimits (_ :: before) col after rfl (List.forall_mem_cons.mpr ⟨hfits, hbefore⟩) hlimit
    | absent hnot hnone =>
      refine .absent ?_ hnone
      rintro (hfits | hlimit)
      · exact hnot hfits
      · rw [hlimit.2] at hnone
        cases hnone
    | mistyped hnot hsome =>
      rename_i col schema value
      by_cases hlimit : AtLimit r.data col
      · refine .passed (Or.inr hlimit) (hlimits [] col schema rfl ?_ hlimit)
        exact fun _ hother => absurd hother List.not_mem_nil
      · exact .mistyped (not_or.mpr ⟨hnot, hlimit⟩) hsome

/-- `2 ^ 63` in a column of integers is accepted, and is no integer of 64 bits. -/
theorem validate_accepts_limit :
    let r := Record.new 1 (.object [("n", .number (.finite (2 ^ 63)))])
    r.validate [⟨"n", .INT, false⟩] = .OK ∧
      ¬Judged r.data (Fits r.data) [⟨"n", .INT, false⟩] (r.validate [⟨"n", .INT, false⟩]) := by
  intro r
  have hvalid : r.validate [⟨"n", .INT, false⟩] = .OK := by decide +kernel
  refine ⟨hvalid, fun hjudged => ?_⟩
  rw [hvalid] at hjudged
  have hfits := Judged.ok_iff.mp hjudged ⟨"n", .INT, false⟩ List.mem_cons_self
  exact not_fits_of_atLimit ⟨rfl, rfl⟩ hfits

end MiniDB.Core
