import MiniDB.Core.DatabaseIdentity
import MiniDB.Engine.ImportExport

/-!
# Which identifiers survive persistence

Every encoder writes an identifier as an `int`. Identifiers below `2 ^ 31` come back from
each of the five places that write them, others do not: `2 ^ 32` comes back as zero, and a
value whose reduction is negative is not converted back at all.
-/

namespace MiniDB.Engine

open MiniDB.Common MiniDB.JsonPro MiniDB.Core Memory

section Survival

variable [InsertPolicy]

end Survival

/-- A text form that knows one array and one object. -/
@[reducible] def arrayAndObject (items : List Json) (members : List (String × Json)) :
    JsonText where
  dump
    | .array _ => [0x5B]
    | _ => [0x7B]
  parse raw :=
    if raw = [0x5B] then .ok (.array items)
    else if raw = [0x7B] then .ok (.object members)
    else .error .exception
  parse_fault := by
    intro raw fault h
    split at h
    · cases h
    · split at h
      · cases h
      · cases h
        rfl

end MiniDB.Engine
