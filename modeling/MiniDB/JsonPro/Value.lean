import MiniDB.Library.Memory
import Mathlib.Data.Rat.Defs

/-!
# JSON values

The JSON library is not part of the sources; this is the interface the code relies on. A
number is a double. Accessors on a value of another kind, and indexing a key that an
object lacks, report misuse by an exception. Converting a double to an integer type is
defined only when its integral part is in range.
-/

namespace MiniDB.JsonPro

open Memory

/-- A double: not a number, an infinity, or a finite number by its exact value. -/
inductive Double
  | nan
  | infinity (negative : Bool)
  | finite (value : ℚ)
  deriving DecidableEq

/-- A JSON value. The members of an object keep the order of their insertion. -/
inductive Json
  | null
  | bool (value : Bool)
  | number (value : Double)
  | string (value : String)
  | array (items : List Json)
  | object (members : List (String × Json))

namespace Double

/-- The integral part of a double that has one. -/
def integralPart : Double → Option ℤ
  | finite value => some (value.num.tdiv value.den)
  | _ => none

/-- `std::trunc`. -/
def trunc : Double → Double
  | finite value => finite (value.num.tdiv value.den : ℤ)
  | other => other

/-- Comparison for equality; not-a-number differs from everything. -/
def eq : Double → Double → Bool
  | nan, _ | _, nan => false
  | infinity left, infinity right => left == right
  | finite left, finite right => left == right
  | _, _ => false

/-- Comparison for order; not-a-number is comparable to nothing. -/
def le : Double → Double → Bool
  | nan, _ | _, nan => false
  | infinity true, _ | _, infinity false => true
  | infinity false, _ | _, infinity true => false
  | finite left, finite right => left ≤ right

/-- Addition, exact on finite numbers. -/
def add : Double → Double → Double
  | nan, _ | _, nan => nan
  | infinity left, infinity right => if left = right then infinity left else nan
  | infinity negative, finite _ | finite _, infinity negative => infinity negative
  | finite left, finite right => finite (left + right)

/-- Division by a positive count, exact on finite numbers. -/
def divCount : Double → ℕ → Double
  | finite value, count => finite (value / count)
  | other, _ => other

/-- The double of an `int`; every 32-bit integer is a double. -/
def ofInt (value : ℤ) : Double := finite value

/-- A conversion to an integer type with values from `low` up to but excluding `high`. -/
def toIntegerIn (low high : ℤ) (value : Double) :
    Except Fault { whole : ℤ // low ≤ whole ∧ whole < high } :=
  match value.integralPart with
  | some whole => if h : low ≤ whole ∧ whole < high then .ok ⟨whole, h⟩ else .error .undefined
  | none => .error .undefined

/-- `static_cast<std::uint64_t>`. -/
def toUInt64 (value : Double) : Except Fault UInt64 :=
  (value.toIntegerIn 0 (2 ^ 64)).map fun whole => UInt64.ofNat whole.val.toNat

/-- `static_cast<std::uint32_t>`. -/
def toUInt32 (value : Double) : Except Fault UInt32 :=
  (value.toIntegerIn 0 (2 ^ 32)).map fun whole => UInt32.ofNat whole.val.toNat

/-- `static_cast<int>`. -/
def toInt (value : Double) : Except Fault { whole : ℤ // -2 ^ 31 ≤ whole ∧ whole < 2 ^ 31 } :=
  value.toIntegerIn (-2 ^ 31) (2 ^ 31)

/-- Whether the integral part is in a range. -/
def fits (low high : ℤ) (value : Double) : Bool :=
  value.integralPart.any fun whole => low ≤ whole ∧ whole < high

/-- A conversion is defined exactly on the values that fit. -/
theorem toIntegerIn_cases (low high : ℤ) (value : Double) :
    (value.fits low high = true ∧ ∃ whole, value.toIntegerIn low high = .ok whole) ∨
    (value.fits low high = false ∧ value.toIntegerIn low high = .error .undefined) := by
  unfold fits toIntegerIn
  cases value.integralPart with
  | none => exact Or.inr ⟨rfl, rfl⟩
  | some whole =>
    dsimp only [Option.any_some]
    split
    · rename_i h
      exact Or.inl ⟨decide_eq_true h, _, rfl⟩
    · rename_i h
      exact Or.inr ⟨decide_eq_false h, rfl⟩

/-- A conversion that goes on with the integer is defined on the same values. -/
theorem map_toIntegerIn_cases {α : Type} {low high : ℤ}
    (convert : { whole : ℤ // low ≤ whole ∧ whole < high } → α) (value : Double) :
    (value.fits low high = true ∧ ∃ a, (value.toIntegerIn low high).map convert = .ok a) ∨
    (value.fits low high = false ∧
      (value.toIntegerIn low high).map convert = .error .undefined) := by
  rcases value.toIntegerIn_cases low high with ⟨hfits, whole, hwhole⟩ | ⟨hfits, hfault⟩
  · rw [hwhole]
    exact Or.inl ⟨hfits, _, rfl⟩
  · rw [hfault]
    exact Or.inr ⟨hfits, rfl⟩

/-- An integer in range is converted to itself. -/
theorem toIntegerIn_ofInt {low high value : ℤ} (h : low ≤ value ∧ value < high) :
    (ofInt value).toIntegerIn low high = .ok ⟨value, h⟩ := by
  have hwhole : (ofInt value).integralPart = some value := by
    simp [ofInt, integralPart]
  rw [toIntegerIn, hwhole]
  exact dif_pos h

/-- An integer out of range is not converted. -/
theorem toIntegerIn_ofInt_of_not {low high value : ℤ} (h : ¬(low ≤ value ∧ value < high)) :
    (ofInt value).toIntegerIn low high = .error .undefined := by
  have hwhole : (ofInt value).integralPart = some value := by
    simp [ofInt, integralPart]
  rw [toIntegerIn, hwhole]
  exact dif_neg h

/-- A conversion gives the integral part. -/
theorem toIntegerIn_eq_ok {low high : ℤ} {value : Double}
    {whole : { whole : ℤ // low ≤ whole ∧ whole < high }} :
    value.toIntegerIn low high = .ok whole ↔ value.integralPart = some whole.val := by
  unfold toIntegerIn
  cases value.integralPart with
  | none => simp
  | some integral =>
    dsimp only
    split
    · simp [Subtype.ext_iff]
    · rename_i h
      simp only [Option.some.injEq, reduceCtorEq, false_iff]
      rintro rfl
      exact h whole.property

/-- An identifier of 64 bits is read from a number exactly if it is the integral part. -/
theorem toUInt64_eq_ok {value : Double} {id : UInt64} :
    value.toUInt64 = .ok id ↔ value.integralPart = some (id.toNat : ℤ) := by
  unfold toUInt64
  rw [map_eq_ok]
  simp only [toIntegerIn_eq_ok]
  constructor
  · rintro ⟨⟨whole, hlow, hhigh⟩, hwhole, rfl⟩
    have hrange : whole.toNat < 2 ^ 64 := by omega
    dsimp only
    rw [UInt64.toNat_ofNat_of_lt' hrange, Int.toNat_of_nonneg hlow]
    exact hwhole
  · intro h
    have hid := id.toNat_lt
    exact ⟨⟨id.toNat, by omega⟩, h, by simp⟩

/-- An identifier of 32 bits is read from a number exactly if it is the integral part. -/
theorem toUInt32_eq_ok {value : Double} {id : UInt32} :
    value.toUInt32 = .ok id ↔ value.integralPart = some (id.toNat : ℤ) := by
  unfold toUInt32
  rw [map_eq_ok]
  simp only [toIntegerIn_eq_ok]
  constructor
  · rintro ⟨⟨whole, hlow, hhigh⟩, hwhole, rfl⟩
    have hrange : whole.toNat < 2 ^ 32 := by omega
    dsimp only
    rw [UInt32.toNat_ofNat_of_lt' hrange, Int.toNat_of_nonneg hlow]
    exact hwhole
  · intro h
    have hid := id.toNat_lt
    exact ⟨⟨id.toNat, by omega⟩, h, by simp⟩

end Double

/-- `static_cast<int>` of an unsigned value: reduction to the 32-bit signed range. -/
def toInt32 (value : ℕ) : ℤ := Int.bmod value 0x100000000

/-- Values below `2 ^ 31` are kept. -/
theorem toInt32_of_lt {value : ℕ} (h : value < 2 ^ 31) : toInt32 value = value := by
  unfold toInt32
  rw [Int.bmod_def]
  omega

/-- A reduced value is an `int`. -/
theorem toInt32_bounds (value : ℕ) : -2 ^ 31 ≤ toInt32 value ∧ toInt32 value < 2 ^ 31 := by
  unfold toInt32
  rw [Int.bmod_def]
  omega

/-- A 64-bit identifier written as an `int` is read back if and only if it is below
`2 ^ 31`. -/
theorem toUInt64_toInt32_iff {id : UInt64} :
    (Double.ofInt (toInt32 id.toNat)).toUInt64 = .ok id ↔ id.toNat < 2 ^ 31 := by
  have hbounds := toInt32_bounds id.toNat
  have hid := id.toNat_lt
  unfold Double.toUInt64
  constructor
  · intro h
    by_cases hrange : 0 ≤ toInt32 id.toNat ∧ toInt32 id.toNat < 2 ^ 64
    · rw [Double.toIntegerIn_ofInt hrange] at h
      have hvalue := congrArg UInt64.toNat (Except.ok.inj h)
      rw [UInt64.toNat_ofNat'] at hvalue
      dsimp only at hvalue
      omega
    · rw [Double.toIntegerIn_ofInt_of_not hrange] at h
      cases h
  · intro h
    rw [toInt32_of_lt h, Double.toIntegerIn_ofInt (by omega)]
    simp [Except.map]

/-- A 32-bit identifier written as an `int` is read back if and only if it is below
`2 ^ 31`. -/
theorem toUInt32_toInt32_iff {id : UInt32} :
    (Double.ofInt (toInt32 id.toNat)).toUInt32 = .ok id ↔ id.toNat < 2 ^ 31 := by
  have hbounds := toInt32_bounds id.toNat
  have hid := id.toNat_lt
  unfold Double.toUInt32
  constructor
  · intro h
    by_cases hrange : 0 ≤ toInt32 id.toNat ∧ toInt32 id.toNat < 2 ^ 32
    · rw [Double.toIntegerIn_ofInt hrange] at h
      have hvalue := congrArg UInt32.toNat (Except.ok.inj h)
      rw [UInt32.toNat_ofNat'] at hvalue
      dsimp only at hvalue
      omega
    · rw [Double.toIntegerIn_ofInt_of_not hrange] at h
      cases h
  · intro h
    rw [toInt32_of_lt h, Double.toIntegerIn_ofInt (by omega)]
    simp [Except.map]

namespace Json

/-- An object without members. -/
def emptyObject : Json := object []

def isNull : Json → Bool
  | null => true
  | _ => false

def isBool : Json → Bool
  | bool _ => true
  | _ => false

def isNumber : Json → Bool
  | number _ => true
  | _ => false

def isString : Json → Bool
  | string _ => true
  | _ => false

def isArray : Json → Bool
  | array _ => true
  | _ => false

def isObject : Json → Bool
  | object _ => true
  | _ => false

def asBool : Json → Except Fault Bool
  | bool value => .ok value
  | _ => .error .exception

def asNumber : Json → Except Fault Double
  | number value => .ok value
  | _ => .error .exception

def asString : Json → Except Fault String
  | string value => .ok value
  | _ => .error .exception

def asArray : Json → Except Fault (List Json)
  | array items => .ok items
  | _ => .error .exception

def asObject : Json → Except Fault (List (String × Json))
  | object members => .ok members
  | _ => .error .exception

/-- The member of an object under a key. -/
def member? : Json → String → Option Json
  | object members, key => members.lookup key
  | _, _ => none

/-- Whether the value is an object with a member under the key. -/
def contains (json : Json) (key : String) : Bool := (json.member? key).isSome

/-- `operator[]` for reading. -/
def index (json : Json) (key : String) : Except Fault Json :=
  match json.member? key with
  | some value => .ok value
  | none => .error .exception

/-- The members with a value stored under a key, in place if the key is present and at the
end otherwise. -/
def setMember (key : String) (value : Json) : List (String × Json) → List (String × Json)
  | [] => [(key, value)]
  | (name, old) :: members =>
    if name = key then (key, value) :: members else (name, old) :: setMember key value members

/-- `operator[]` for assignment. -/
def set (json : Json) (key : String) (value : Json) : Except Fault Json := do
  return object (setMember key value (← json.asObject))

/-- `asObject().erase(key)`. -/
def eraseMember (json : Json) (key : String) : Except Fault Json := do
  return object ((← json.asObject).filter fun member => member.1 ≠ key)

/-- Only an object has members. -/
theorem isNull_of_member? {json value : Json} {key : String} (h : json.member? key = some value) :
    json.isNull = false := by
  cases json with
  | null => cases h
  | _ => rfl

/-- Indexing succeeds on a member. -/
theorem index_eq_ok {json value : Json} {key : String} :
    json.index key = .ok value ↔ json.member? key = some value := by
  unfold index
  split <;> simp_all

theorem asBool_eq_ok {json : Json} {value : Bool} :
    json.asBool = .ok value ↔ json = bool value := by
  cases json <;> simp [asBool]

theorem asNumber_eq_ok {json : Json} {value : Double} :
    json.asNumber = .ok value ↔ json = number value := by
  cases json <;> simp [asNumber]

theorem asString_eq_ok {json : Json} {value : String} :
    json.asString = .ok value ↔ json = string value := by
  cases json <;> simp [asString]

theorem asArray_eq_ok {json : Json} {items : List Json} :
    json.asArray = .ok items ↔ json = array items := by
  cases json <;> simp [asArray]

/-- A number given as an `int`. -/
def ofInt (value : ℤ) : Json := number (Double.ofInt value)

end Json

/-- The text form of JSON values. Parsing throws on text that is not JSON. -/
class JsonText where
  /-- `dump()`. -/
  dump : Json → List UInt8
  /-- `Json::parse`. -/
  parse : List UInt8 → Except Fault Json
  /-- Parsing fails by an exception only. -/
  parse_fault : ∀ {text fault}, parse text = .error fault → fault = .exception

/-- A text form that knows one document. -/
@[reducible] def JsonText.ofDocument (text : List UInt8) (document : Json) : JsonText where
  dump _ := text
  parse raw := if raw = text then .ok document else .error .exception
  parse_fault := by
    intro raw fault h
    split at h
    · cases h
    · cases h
      rfl

end MiniDB.JsonPro
