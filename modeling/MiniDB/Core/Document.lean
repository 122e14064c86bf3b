import MiniDB.Common.Type
import MiniDB.JsonPro.Value

/-!
# Reading a document

What the envelope of a table, a page or a record says under its keys, read without
decoding the rest of it.
-/

namespace MiniDB.Core

open MiniDB.Common MiniDB.JsonPro Memory

/-- The items of an array member, none without such a member. -/
def itemsOf (key : String) (json : Json) : List Json :=
  match json.member? key with
  | some (.array items) => items
  | _ => []

/-- The number under a key. -/
def numberOf? (key : String) (json : Json) : Option Double :=
  match json.member? key with
  | some (.number value) => some value
  | _ => none

/-- The identifier that a document gives to a record, unless it marks the record deleted. -/
def liveIdOf? (entry : Json) : Option RecordID :=
  match entry.member? "__deleted__" with
  | some (.bool true) => none
  | _ => (numberOf? "__id__" entry).bind fun id => id.toUInt64.toOption

/-- The identifier that a document gives to a page. -/
def pageIdOf? (pageJson : Json) : Option PageID :=
  (numberOf? "__page_id__" pageJson).bind fun id => id.toUInt32.toOption

/-- The identifier that a document gives to a table. -/
def tableIdOf? (tableJson : Json) : Option TableID :=
  (numberOf? "__table_id___" tableJson).bind fun id => id.toUInt32.toOption

/-- The name that a document gives to a table. -/
def tableNameOf? (tableJson : Json) : Option String :=
  match tableJson.member? "__name__" with
  | some (.string name) => some name
  | _ => none

/-- A number is read exactly if it is there. -/
theorem numberOf?_eq_some {key : String} {json : Json} {value : Double} :
    numberOf? key json = some value ↔ json.member? key = some (.number value) := by
  unfold numberOf?
  split
  · rename_i hmember
    rw [hmember, Option.some.injEq, Option.some.injEq, Json.number.injEq]
  · rename_i hmember
    constructor
    · intro h
      cases h
    · intro h
      exact absurd h (hmember value)

/-- The items of an array member. -/
theorem itemsOf_of_some {key : String} {json : Json} {items : List Json}
    (h : json.member? key = some (.array items)) : itemsOf key json = items := by
  unfold itemsOf
  rw [h]

/-- A value whose array under a key cannot be read has no items there. -/
theorem itemsOf_eq_nil {key : String} {json : Json}
    (h : ∀ items, json.member? key ≠ some (.array items)) : itemsOf key json = [] := by
  unfold itemsOf
  split
  · rename_i hmember
    exact absurd hmember (h _)
  · rfl

/-- The accesses to a number that is converted. -/
theorem numberOf?_bind_eq {α : Type} (key : String) (convert : Double → Except Fault α)
    (json : Json) :
    ((numberOf? key json).bind fun value => (convert value).toOption) =
      ((json.index key >>= Json.asNumber) >>= convert).toOption := by
  unfold numberOf? Json.index
  cases json.member? key with
  | none => rfl
  | some value =>
    cases value with
    | number value => rfl
    | _ => rfl

/-- The accesses to a table's identifier. -/
theorem tableIdOf?_eq (tableJson : Json) :
    tableIdOf? tableJson = (((tableJson.index "__table_id___" >>= Json.asNumber) >>=
      Double.toUInt32 : Except Fault UInt32)).toOption :=
  numberOf?_bind_eq _ _ _

/-- The accesses to a page's identifier. -/
theorem pageIdOf?_eq (pageJson : Json) :
    pageIdOf? pageJson = (((pageJson.index "__page_id__" >>= Json.asNumber) >>=
      Double.toUInt32 : Except Fault UInt32)).toOption :=
  numberOf?_bind_eq _ _ _

/-- The accesses to a table's name. -/
theorem tableNameOf?_eq (tableJson : Json) :
    tableNameOf? tableJson = (tableJson.index "__name__" >>= Json.asString).toOption := by
  unfold tableNameOf? Json.index
  cases tableJson.member? "__name__" with
  | none => rfl
  | some value =>
    cases value with
    | string value => rfl
    | _ => rfl

/-- Reading the array under a key. -/
theorem index_asArray (key : String) (json : Json) :
    (∃ items, json.member? key = some (.array items) ∧
      (json.index key >>= Json.asArray) = .ok items) ∨
    (∀ items, json.member? key ≠ some (.array items)) ∧
      (json.index key >>= Json.asArray) = .error .exception := by
  unfold Json.index
  cases json.member? key with
  | none =>
    right
    exact ⟨fun items h => (by cases h), rfl⟩
  | some value =>
    cases value with
    | array items =>
      left
      exact ⟨items, rfl, rfl⟩
    | _ =>
      right
      exact ⟨fun items h => (by cases h), rfl⟩

end MiniDB.Core
