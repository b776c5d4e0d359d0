import ViewMaintenance.Row.Basic

namespace ViewMaintenance

/-- How one column changed. -/
inductive ColumnChange
  | becameLive (timestamp : Timestamp)
  /-- The time is that of the tombstone or of the expired cell that took the place of the value,
      or of the row deletion that dropped it. -/
  | becameDead (since : Timestamp)
  /-- Live before and after, but another cell won. -/
  | valueChanged (old new : Timestamp)
deriving DecidableEq

namespace ColumnChange

/-- The time of the write that caused the change. -/
def time : ColumnChange → Timestamp
  | becameLive timestamp => timestamp
  | becameDead since => since
  | valueChanged _ new => new

/-- The change from one cell of a column to the next, in a row that then has the given deletion. -/
def between (deletion : Option Deletion) (now : Timestamp) (before after : Option Cell) :
    Option ColumnChange :=
  match before.filter (·.isLive now), after.filter (·.isLive now) with
  | none, none => none
  | none, some a => some (.becameLive a.timestamp)
  | some b, none =>
    let cause := (after.map Cell.timestamp).or (deletion.map Deletion.markedAt)
    some (.becameDead (cause.getD b.timestamp))
  | some b, some a => if b = a then none else some (.valueChanged b.timestamp a.timestamp)

end ColumnChange

/-- How the marker of a row changed. -/
inductive MarkerChange
  | appeared (timestamp : Timestamp)
  | disappeared (since : Timestamp)
  | timestampChanged (old new : Timestamp)
deriving DecidableEq

namespace MarkerChange

/-- The change from one marker to the next, in a row that then has the given deletion. -/
def between (deletion : Option Deletion) (now : Timestamp) (before after : Option Marker) :
    Option MarkerChange :=
  match before.filter (·.isLive now), after.filter (·.isLive now) with
  | none, none => none
  | none, some a => some (.appeared a.timestamp)
  | some b, none =>
    let cause := (after.map Marker.timestamp).or (deletion.map Deletion.markedAt)
    some (.disappeared (cause.getD b.timestamp))
  | some b, some a => if b = a then none else some (.timestampChanged b.timestamp a.timestamp)

end MarkerChange

/-- Two states of one base row and the time at which they are compared. -/
structure Delta where
  before : Row
  after : Row
  now : Timestamp
  key_eq : before.key = after.key

namespace Delta

/-- Compares two states of a row at `now`. -/
def between (before after : Row) (now : Timestamp) : Except KeyMismatch Delta :=
  if h : before.key = after.key then .ok ⟨before, after, now, h⟩
  else .error ⟨before.key, after.key⟩

/-- The key of the row. -/
def key (d : Delta) : RowKey := d.after.key

/-- The change of a column, if it changed. -/
def column? (d : Delta) (column : String) : Option ColumnChange :=
  ColumnChange.between d.after.deletion d.now (d.before.cell? column) (d.after.cell? column)

/-- The columns that changed. -/
def columns (d : Delta) : SortedMap String ColumnChange :=
  SortedMap.combine (fun _ => ColumnChange.between d.after.deletion d.now) d.before.cells
    d.after.cells

/-- The change of the marker, if it changed. -/
def marker? (d : Delta) : Option MarkerChange :=
  MarkerChange.between d.after.deletion d.now d.before.marker d.after.marker

/-- The row deletion after the mutation, if the mutation raised it. -/
def newDeletion? (d : Delta) : Option Deletion :=
  if compare d.before.deletion d.after.deletion = .lt then d.after.deletion else none

/-- Whether nothing live changed. -/
def isUnchanged (d : Delta) : Bool := d.columns.isEmpty && d.marker?.isNone

end Delta

end ViewMaintenance
