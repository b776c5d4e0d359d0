import ViewMaintenance.Deletion
import ViewMaintenance.Marker
import ViewMaintenance.Row.Key
import ViewMaintenance.SortedMap.Basic

namespace ViewMaintenance

/-- A base row: a marker, a row deletion and cells, each with its own timestamp. The same form
    serves for a stored row, for the fragment of it that one level holds, and for the fragment
    that one mutation writes. -/
structure Row where
  key : RowKey
  marker : Option Marker
  deletion : Option Deletion
  cells : SortedMap String Cell
deriving DecidableEq

/-- Two rows that were to be one have different keys. -/
structure KeyMismatch where
  before : RowKey
  after : RowKey
deriving DecidableEq

namespace KeyMismatch

/-- The text of the error. -/
def message (e : KeyMismatch) : String :=
  s!"KeyMismatch: before={e.before.toText} after={e.after.toText}"

end KeyMismatch

namespace Row

/-- The row of which nothing was written. -/
def empty (key : RowKey) : Row := ⟨key, none, none, ∅⟩

/-- Sets the marker. -/
def withMarker (r : Row) (marker : Marker) : Row := { r with marker := some marker }

/-- Sets the row deletion. -/
def withDeletion (r : Row) (deletion : Deletion) : Row := { r with deletion := some deletion }

/-- Sets the cell of a column. -/
def withCell (r : Row) (column : String) (cell : Cell) : Row :=
  { r with cells := r.cells.insert column cell }

/-- The cell of a column, live or not. -/
def cell? (r : Row) (column : String) : Option Cell := r.cells.get? column

/-- The cell of a column if it is live at `now`. -/
def liveCell? (r : Row) (column : String) (now : Timestamp) : Option Cell :=
  (r.cell? column).filter (·.isLive now)

/-- The marker if it is live at `now`. -/
def liveMarker? (r : Row) (now : Timestamp) : Option Marker := r.marker.filter (·.isLive now)

/-- Whether the row exists at `now`: through its marker or through any cell. -/
def isPresent (r : Row) (now : Timestamp) : Bool :=
  (r.liveMarker? now).isSome || r.cells.values.any (·.isLive now)

/-- Whether nothing was ever written. -/
def isEmpty (r : Row) : Bool := r.marker.isNone && r.deletion.isNone && r.cells.isEmpty

/-- The time of the latest write that is live at `now`. -/
def maxLiveTimestamp? (r : Row) (now : Timestamp) : Option Timestamp :=
  let cells := r.cells.values.filter (·.isLive now)
  ((r.liveMarker? now).toList.map Marker.timestamp ++ cells.map Cell.timestamp).max?

/-- Drops what the row deletion reaches. -/
def purge (r : Row) : Row :=
  { r with
    marker := r.marker.filter fun m => !Deletion.covers r.deletion m.timestamp
    cells := r.cells.filter fun _ c => !Deletion.covers r.deletion c.timestamp }

/-- Merges two fragments of the row that the first one names. The latest write of each part wins,
    then everything that the row deletion reaches is dropped. -/
def join (a b : Row) : Row :=
  purge {
    key := a.key
    marker := latest? a.marker b.marker
    deletion := latest? a.deletion b.deletion
    cells := SortedMap.mergeWith latest a.cells b.cells }

/-- Merges two fragments of one row. -/
def merge (a b : Row) : Except KeyMismatch Row :=
  if a.key = b.key then .ok (a.join b) else .error ⟨a.key, b.key⟩

/-- Applies a deletion that was written beside the row. -/
def shadow (r : Row) (deletion : Option Deletion) : Row :=
  purge { r with deletion := latest? r.deletion deletion }

end Row

end ViewMaintenance
