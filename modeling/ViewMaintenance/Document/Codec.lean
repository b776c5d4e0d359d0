import ViewMaintenance.Document.Error
import ViewMaintenance.SortedMap.Basic

namespace ViewMaintenance

/-- A type whose values are written as documents and read back. Reading never converts between
    numbers, texts and truth values, and it reports the first error that it meets. -/
class Codec (α : Type) where
  encode : α → Document
  decode : Document → Except DecodeError α

export Codec (encode decode)

namespace Codec

variable {α : Type}

instance : Codec Bool where
  encode := .bool
  decode
    | .bool b => .ok b
    | d => .error (.wrongForm d "a boolean")

instance : Codec String where
  encode := .text
  decode
    | .text s => .ok s
    | d => .error (.wrongForm d "a string")

/-- Reads an integer between two bounds. -/
def integerIn (least greatest : Int) (expected : String) : Document → Except DecodeError Int
  | .integer n =>
    if least ≤ n ∧ n ≤ greatest then .ok n else .error (.outOfRange n expected)
  | d => .error (.wrongForm d expected)

instance : Codec UInt8 where
  encode n := .integer n.toNat
  decode d := (integerIn 0 (UInt8.size - 1) "u8" d).map fun n => .ofNat n.toNat

instance : Codec UInt32 where
  encode n := .integer n.toNat
  decode d := (integerIn 0 (UInt32.size - 1) "u32" d).map fun n => .ofNat n.toNat

instance : Codec UInt64 where
  encode n := .integer n.toNat
  decode d := (integerIn 0 (UInt64.size - 1) "usize" d).map fun n => .ofNat n.toNat

instance : Codec Int64 where
  encode n := .integer n.toInt
  decode d := (integerIn Int64.minValue.toInt Int64.maxValue.toInt "i64" d).map .ofInt

instance [Codec α] : Codec (Option α) where
  encode
    | none => .null
    | some a => encode a
  decode
    | .null => .ok none
    | d => (decode d).map some

instance [Codec α] : Codec (List α) where
  encode items := .list (items.map encode)
  decode
    | .list items => items.mapM decode
    | d => .error (.wrongForm d "a sequence")

/-- Every entry is read, and of several entries for one key the last one counts. -/
instance [Codec α] : Codec (SortedMap String α) where
  encode m := .object (m.entries.map fun e => (e.1, encode e.2))
  decode
    | .object fields => do
      let entries ← fields.mapM fun e => return (e.1, ← decode e.2)
      return .ofList entries
    | d => .error (.wrongForm d "a map")

instance : Codec (SortedSet String) where
  encode s := encode s.toList
  decode d := (decode d).map SortedSet.ofList

end Codec

end ViewMaintenance
