import MiniDB.Common.Type
import MiniDB.JsonPro.Value

/-!
# Records

`Record.cpp`: a row with its identifier, its data and the soft-delete mark; validation
against a schema; the JSON form. Decoding writes the record field by field, so a fault
leaves what was written before it.
-/

namespace MiniDB.Core

open MiniDB.Common MiniDB.JsonPro Memory

/-- A row of a table. -/
structure Record where
  /-- Identifier, unique among the live records of the table. -/
  id : RecordID
  /-- Field values. -/
  data : Json
  /-- Whether the record is soft-deleted. -/
  deleted : Bool

/-- `static_cast<double>` of the largest and the smallest `int64_t`. -/
def int64Limits : Double × Double := (.finite (-2 ^ 63), .finite (2 ^ 63))

/-- The type check of one present field. -/
def typeOK : ColumnType → Json → Bool
  | .INT, .number value =>
    Double.eq value value.trunc && Double.le int64Limits.1 value && Double.le value int64Limits.2
  | .INT, _ => false
  | .DOUBLE, value => value.isNumber
  | .STRING, value => value.isString
  | .BOOL, value => value.isBool
  | .unlisted _, _ => false

namespace Record

/-- `Record()`. -/
def default : Record := ⟨DBConstants.INVALID_RECORD_ID, Json.emptyObject, false⟩

/-- `Record(id, data)`. -/
def new (id : RecordID) (data : Json) : Record := ⟨id, data, false⟩

@[simp] theorem new_id (id : RecordID) (data : Json) : (new id data).id = id := rfl

/-- `isDeleted`. -/
def isDeleted (r : Record) : Bool := r.deleted

/-- `markDeleted`. -/
def markDeleted (r : Record) : Record := { r with deleted := true }

/-- `getID`. -/
def getID (r : Record) : RecordID := r.id

/-- `setField`. -/
def setField (r : Record) (key : FieldName) (value : Json) : Except Fault (Status × Record) :=
  if key.isEmpty then .ok (.INVALID_SCHEMA, r)
  else do
    let data ← r.data.set key value
    return (.OK, { r with data })

/-- `getField`. -/
def getField (r : Record) (key : FieldName) : Json :=
  match r.data.member? key with
  | none => .null
  | some value => value

/-- `validate`: the first violated column in schema order decides. -/
def validate (r : Record) : List ColumnDef → Status
  | [] => .OK
  | col :: schema =>
    match r.data.member? col.name with
    | none => if !col.nullable then .INVALID_SCHEMA else r.validate schema
    | some val => if !typeOK col.type val then .INVALID_TYPE else r.validate schema

/-- Validation looks at nothing but the data. -/
theorem validate_congr {r r' : Record} (h : r.data = r'.data) (schema : List ColumnDef) :
    r.validate schema = r'.validate schema := by
  induction schema with
  | nil => rfl
  | cons col schema ih =>
    unfold validate
    rw [h, ih]

/-- `toJson`. -/
def toJson (r : Record) : Json :=
  .object [("__id__", .ofInt (toInt32 r.id.toNat)), ("__deleted__", .bool r.deleted),
    ("data", r.data)]

/-- `fromJson`. -/
def fromJson (envelope : Json) : EStateM Fault Record Status := do
  if envelope.isNull then return .PARSE_ERROR
  let id ← (← (← envelope.index "__id__").asNumber).toUInt64
  modify fun r => { r with id }
  let deleted ← (← envelope.index "__deleted__").asBool
  modify fun r => { r with deleted }
  let data ← envelope.index "data"
  modify fun r => { r with data }
  return .OK

/-- `serialize`. -/
def serialize [JsonText] (r : Record) : List UInt8 := JsonText.dump r.toJson

/-- `deserialize`. -/
def deserialize [JsonText] (raw : List UInt8) : EStateM Fault Record Status :=
  catching .PARSE_ERROR do
    let envelope ← JsonText.parse raw
    if envelope.isNull then return .PARSE_ERROR
    fromJson envelope

/-- What an envelope decodes to, if every field is present with the right kind and the
identifier is in range. -/
def ofEnvelope? (envelope : Json) : Option Record :=
  match envelope.member? "__id__", envelope.member? "__deleted__", envelope.member? "data" with
  | some (.number id), some (.bool deleted), some data =>
    id.toUInt64.toOption.map fun id => ⟨id, data, deleted⟩
  | _, _, _ => none

/-- The envelope of a record decodes to it, whatever the target held. -/
theorem fromJson_of_some {envelope : Json} {decoded : Record}
    (h : ofEnvelope? envelope = some decoded) (r : Record) :
    fromJson envelope r = .ok .OK decoded := by
  unfold ofEnvelope? at h
  split at h
  · rename_i id deleted data hid hdeleted hdata
    cases hvalue : id.toUInt64 with
    | error fault =>
      rw [hvalue] at h
      cases h
    | ok value =>
      rw [hvalue] at h
      cases h
      unfold fromJson
      rw [if_neg (by rw [Json.isNull_of_member? hid]; exact Bool.false_ne_true)]
      rw [lift_bind_of_ok (Json.index_eq_ok.mpr hid),
        lift_bind_of_ok (Json.asNumber_eq_ok.mpr rfl), lift_bind_of_ok hvalue, modify_bind,
        lift_bind_of_ok (Json.index_eq_ok.mpr hdeleted),
        lift_bind_of_ok (Json.asBool_eq_ok.mpr rfl), modify_bind,
        lift_bind_of_ok (Json.index_eq_ok.mpr hdata)]
      rfl
  · cases h

/-- What decodes successfully is the envelope of a record. -/
theorem ofEnvelope?_of_fromJson {envelope : Json} {r decoded : Record}
    (h : fromJson envelope r = .ok .OK decoded) : ofEnvelope? envelope = some decoded := by
  unfold fromJson at h
  split at h
  · cases h
  · obtain ⟨idField, hidField, h⟩ := lift_bind_eq_ok h
    obtain ⟨number, hnumber, h⟩ := lift_bind_eq_ok h
    obtain ⟨id, hid, h⟩ := lift_bind_eq_ok h
    rw [modify_bind] at h
    obtain ⟨deletedField, hdeletedField, h⟩ := lift_bind_eq_ok h
    obtain ⟨deleted, hdeleted, h⟩ := lift_bind_eq_ok h
    rw [modify_bind] at h
    obtain ⟨data, hdata, h⟩ := lift_bind_eq_ok h
    cases h
    rw [Json.index_eq_ok] at hidField hdeletedField hdata
    rw [Json.asNumber_eq_ok] at hnumber
    rw [Json.asBool_eq_ok] at hdeleted
    subst hnumber hdeleted
    simp only [ofEnvelope?, hidField, hdeletedField, hdata, hid, Except.toOption, Option.map_some]

/-- A written record decodes to itself with the identifier that its reduction to an `int`
is read back as. -/
theorem ofEnvelope?_toJson (r : Record) :
    ofEnvelope? r.toJson =
      (Double.ofInt (toInt32 r.id.toNat)).toUInt64.toOption.map fun id => { r with id } := by
  have hid : r.toJson.member? "__id__" = some (.number (Double.ofInt (toInt32 r.id.toNat))) := by
    simp [toJson, Json.member?, Json.ofInt]
  have hdeleted : r.toJson.member? "__deleted__" = some (.bool r.deleted) := by
    simp [toJson, Json.member?, List.lookup_cons]
  have hdata : r.toJson.member? "data" = some r.data := by
    simp [toJson, Json.member?, List.lookup_cons]
  unfold ofEnvelope?
  rw [hid, hdeleted, hdata]

/-- A written record with a small identifier decodes to itself. -/
theorem ofEnvelope?_toJson_of_lt {r : Record} (h : r.id.toNat < 2 ^ 31) :
    ofEnvelope? r.toJson = some r := by
  rw [ofEnvelope?_toJson, toUInt64_toInt32_iff.mpr h]
  rfl

end Record

end MiniDB.Core
