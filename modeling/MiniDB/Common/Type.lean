import Mathlib.Algebra.Group.Int.Defs
import Mathlib.Data.Nat.Notation

/-!
# Shared value types

The status codes, identifiers and compile-time constants used by every other module
(`Common/Type.h`).
-/

namespace MiniDB.Common

/-- Outcome of an operation, returned instead of throwing. -/
inductive Status
  | OK
  | NOT_FOUND
  | DUPLICATE_KEY
  | INVALID_SCHEMA
  | INVALID_TYPE
  | TABLE_NOT_FOUND
  | TABLE_ALREADY_EXISTS
  | IO_ERROR
  | PARSE_ERROR
  | OUT_OF_MEMORY
  | UNKNOWN_ERROR
  deriving DecidableEq, Repr

/-- The `int` values that name none of the four column types. -/
abbrev UnlistedType :=
  { value : ℤ // (-2 ^ 31 ≤ value ∧ value < 2 ^ 31) ∧ ¬(0 ≤ value ∧ value ≤ 3) }

/-- Supported column value types. The enumeration's underlying type is `int`, so a
decoded schema can also hold a number that names none of the four types. -/
inductive ColumnType
  | INT
  | DOUBLE
  | STRING
  | BOOL
  | unlisted (value : UnlistedType)
  deriving DecidableEq

/-- `static_cast<int>` of a column type. -/
def ColumnType.toInt : ColumnType → ℤ
  | INT => 0
  | DOUBLE => 1
  | STRING => 2
  | BOOL => 3
  | unlisted value => value

/-- `static_cast<ColumnType>` of an `int`. -/
def ColumnType.ofInt (value : ℤ) (h : -2 ^ 31 ≤ value ∧ value < 2 ^ 31) : ColumnType :=
  if hlisted : 0 ≤ value ∧ value ≤ 3 then
    if value = 0 then INT else if value = 1 then DOUBLE else if value = 2 then STRING else BOOL
  else unlisted ⟨value, h, hlisted⟩

/-- A column type is an `int`. -/
theorem ColumnType.toInt_bounds (type : ColumnType) :
    -2 ^ 31 ≤ type.toInt ∧ type.toInt < 2 ^ 31 := by
  cases type with
  | unlisted value => exact value.property.1
  | _ => decide

/-- A column type survives the conversion to `int` and back. -/
theorem ColumnType.ofInt_toInt (type : ColumnType) :
    ColumnType.ofInt type.toInt type.toInt_bounds = type := by
  cases type with
  | unlisted value => exact dif_neg value.property.2
  | _ => rfl

/-- Comparison operators usable in query predicates. -/
inductive Op
  | EQ
  | NEQ
  | GT
  | GTE
  | LT
  | LTE
  deriving DecidableEq

/-- Sort direction for query results. -/
inductive SortOrder
  | ASC
  | DESC
  deriving DecidableEq

/-- Identifier of a record, scoped to its table. -/
abbrev RecordID := UInt64

/-- Identifier of a storage page, scoped to its table. -/
abbrev PageID := UInt32

/-- Identifier of a table, scoped to its database. -/
abbrev TableID := UInt32

/-- Name of a column. -/
abbrev FieldName := String

namespace DBConstants

/-- Bytes per storage page. -/
def PAGE_SIZE : ℕ := 4096

/-- Maximum records stored per page. -/
def MAX_RECORDS_PAGE : ℕ := 64

/-- Maximum tables per database. -/
def MAX_TABLES : ℕ := 256

/-- Pages kept resident in the page cache. -/
def LRU_CACHE_CAP : ℕ := 128

/-- Sentinel for "no record". -/
def INVALID_RECORD_ID : RecordID := 0xFFFFFFFFFFFFFFFF

/-- Sentinel for "no page". -/
def INVALID_PAGE_ID : PageID := 0xFFFFFFFF

/-- Sentinel for "no table". -/
def INVALID_TABLE_ID : TableID := 0xFFFFFFFF

end DBConstants

/-- A single column of a table schema. -/
structure ColumnDef where
  /-- Column name. -/
  name : FieldName
  /-- Declared value type. -/
  type : ColumnType
  /-- Whether the column may be absent. -/
  nullable : Bool
  deriving DecidableEq

end MiniDB.Common
