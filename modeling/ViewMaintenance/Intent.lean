import ViewMaintenance.View.Existence

namespace ViewMaintenance

/-- What the deletion of a view row reaches. -/
inductive DeletionKind
  /-- The marker and every cell, up to the time of the deletion. -/
  | regular
  /-- The marker alone; cells stay, and a later marker brings the row back. -/
  | shadowable
deriving DecidableEq

/-- One change to one view row. It stands for a fragment of the row and is applied by merging
    this fragment, so it can be applied on its own, in any order with others, and more than once. -/
inductive Intent
  /-- Writes cells as they are, and perhaps a marker and a row deletion. -/
  | upsert (row : ViewKey) (marker : Option Marker) (deletion : Option Deletion)
      (cells : SortedMap String Cell)
  /-- Deletes columns, each at a time of its own. -/
  | deleteColumns (row : ViewKey) (columns : SortedMap String Timestamp)
  | deleteRow (row : ViewKey) (timestamp : Timestamp) (kind : DeletionKind)
deriving DecidableEq

namespace Intent

/-- The view row that the intent changes. -/
def row : Intent → ViewKey
  | upsert row _ _ _ => row
  | deleteColumns row _ => row
  | deleteRow row _ _ => row

/-- Whether the intent deletes the row. -/
def isRowDeletion : Intent → Bool
  | upsert .. | deleteColumns .. => false
  | deleteRow .. => true

/-- The fragment that the intent writes to its view row. -/
def fragment : Intent → Row
  | upsert row marker deletion cells => ⟨row.base, marker, deletion, cells⟩
  | deleteColumns row columns =>
    { Row.empty row.base with cells := columns.map fun _ timestamp => .tombstone timestamp }
  | deleteRow row timestamp .regular => (Row.empty row.base).withDeletion ⟨timestamp⟩
  | deleteRow row timestamp .shadowable => (Row.empty row.base).withMarker (.withdrawn timestamp)

end Intent

/-- The intents that one base mutation makes for one view. -/
structure ViewUpdate where
  view : String
  intents : List Intent
deriving DecidableEq

namespace ViewUpdate

/-- Whether there is nothing to apply. -/
def isEmpty (u : ViewUpdate) : Bool := u.intents.isEmpty

end ViewUpdate

end ViewMaintenance
