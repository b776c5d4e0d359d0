import ViewMaintenance.Document.Basic
import ViewMaintenance.Text.Quoted

namespace ViewMaintenance

/-- A document in an error text. A list and an object are only named. -/
def Document.describe : Document → String
  | .null => "null"
  | .bool b => s!"boolean `{b}`"
  | .integer n => s!"integer `{n}`"
  | .decimal d => s!"floating point `{d.toText}`"
  | .text s => s!"string {Text.quote s}"
  | .list _ => "sequence"
  | .object _ => "map"

/-- Why a document is not read as a value of a type. What was expected is given in words. -/
inductive DecodeError
  /-- The document has another form than the values of the type. -/
  | wrongForm (found : Document) (expected : String)
  /-- The integer is out of the range of the type. -/
  | outOfRange (found : Int) (expected : String)
  /-- The record lacks a field that it must have. -/
  | missingField (name : String)
  /-- The record has two fields of the name. -/
  | repeatedField (name : String)
  /-- The list has not as many items as the record has parts. -/
  | wrongLength (found : Nat) (expected : String)
  /-- The object should name one kind, and has no field or several. -/
  | notOneKind
  /-- No kind has the name. -/
  | unknownKind (name : String) (known : List String)
  /-- Only the name of the kind is given, and it is one with fields. -/
  | withoutFields

namespace DecodeError

/-- Names of which one is expected. -/
def alternatives : List String → String
  | [] => "nothing"
  | [a] => s!"`{a}`"
  | [a, b] => s!"`{a}` or `{b}`"
  | names => "one of " ++ ", ".intercalate (names.map fun n => s!"`{n}`")

/-- The text of the error. -/
def message : DecodeError → String
  | wrongForm found expected => s!"invalid type: {found.describe}, expected {expected}"
  | outOfRange found expected => s!"invalid value: integer `{found}`, expected {expected}"
  | missingField name => s!"missing field `{name}`"
  | repeatedField name => s!"duplicate field `{name}`"
  | wrongLength found expected => s!"invalid length {found}, expected {expected}"
  | notOneKind => "invalid value: map, expected map with a single key"
  | unknownKind name known => s!"unknown variant `{name}`, expected {alternatives known}"
  | withoutFields => "invalid type: unit variant, expected struct variant"

end DecodeError

end ViewMaintenance
