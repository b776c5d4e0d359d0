import ViewMaintenance.Text.Decimal

namespace ViewMaintenance

/-- A tree of data, the form in which data is exchanged. The fields of an object stand in the order
    of the text, and two of them may have one name. -/
inductive Document
  | null
  | bool (value : Bool)
  /-- An integer that fits into 64 bits, with or without a sign. -/
  | integer (value : Int)
  /-- Any other number. -/
  | decimal (value : Text.Decimal)
  | text (value : String)
  | list (items : List Document)
  | object (fields : List (String × Document))

namespace Document

/-- The fields of an object. -/
def fields? : Document → Option (List (String × Document))
  | object fields => some fields
  | _ => none

end Document

end ViewMaintenance
