import ViewMaintenance.Delta
import ViewMaintenance.Intent

namespace ViewMaintenance

/-- What is to be written to one view row; a tombstone among the cells deletes its column. -/
structure Changes where
  marker : Option Marker
  deletion : Option Deletion
  cells : SortedMap String Cell
deriving DecidableEq

namespace Changes

/-- At most one intent for what is written and one for the columns that are deleted. -/
def intents (c : Changes) (row : ViewKey) : List Intent :=
  let written := c.cells.filter fun _ cell => !cell.isTombstone
  let deleted := c.cells.filterMap fun _ cell =>
    if cell.isTombstone then some cell.timestamp else none
  let upserts :=
    if c.marker.isSome || c.deletion.isSome || !written.isEmpty then
      [Intent.upsert row c.marker c.deletion written]
    else []
  let deletions := if deleted.isEmpty then [] else [Intent.deleteColumns row deleted]
  upserts ++ deletions

end Changes

namespace View

/-- All that a base row holds for its view row. The deletion of the base row goes along, so that
    what the base table has dropped is dropped in the view row too, even if it was written there
    while the view row was not visible. -/
def fullImage (v : View) (r : Row) : Changes where
  marker := v.marker? r
  deletion := r.deletion
  cells := r.cells.filterMap v.cellImage?

/-- What a view row receives for the change of one column, if the deletion `covered` that was
    written to it does not reach that change. An expired value is written as it is, and the view
    evaluates the expiry itself. -/
def scopedCell? (v : View) (d : Delta) (covered : Option Deletion) (column : String)
    (change : ColumnChange) : Option Cell :=
  match change, d.after.cell? column with
  | .becameDead since, none =>
    if !v.tracks column || Deletion.covers covered since then none else some (.tombstone since)
  | .becameDead _, some cell =>
    if Deletion.covers covered cell.timestamp then none else v.cellImage? column cell
  | _, cell => cell.bind (v.cellImage? column)

/-- The marker that a view row receives for a change, if the deletion `covered` that was written to
    it does not reach that marker. -/
def scopedMarker? (v : View) (d : Delta) (covered : Option Deletion) : Option Marker :=
  match v.promoted with
  | some p =>
    match d.column? p with
    | some (.becameLive _) | some (.valueChanged _ _) => v.marker? d.after
    | some (.becameDead _) | none => none
  | none =>
    match d.marker? with
    | some (.appeared _) | some (.timestampChanged _ _) => d.after.marker
    | some (.disappeared since) =>
      let marker := d.after.marker.getD (.withdrawn since)
      if Deletion.covers covered marker.timestamp then none else some marker
    | none => none

/-- The changes of a row column by column, without those that the deletion `covered` reaches.
    Each is written at the time of the base write that caused it, so that the tombstone of one
    column never shadows an independent write to another. -/
def scopedChanges (v : View) (d : Delta) (covered : Option Deletion) : Changes where
  marker := v.scopedMarker? d covered
  deletion := none
  cells := d.columns.filterMap (v.scopedCell? d covered)

/-- Takes back the view row that the base row no longer maps to: by the row deletion that the
    mutation raised, and for what this does not reach by withdrawing the marker at the time at which
    the promoted column changed or, if no column is promoted, by the scoped changes. -/
def retraction (v : View) (d : Delta) (row : ViewKey) : List Intent :=
  let deletion := d.newDeletion?
  let deletions := deletion.toList.map fun x => Intent.deleteRow row x.markedAt .regular
  let rest :=
    match v.promoted with
    | some p =>
      match d.column? p with
      | some change =>
        if Deletion.covers deletion change.time then []
        else [Intent.deleteRow row change.time .shadowable]
      | none => []
    | none => (v.scopedChanges d deletion).intents row
  deletions ++ rest

/-- The intents for a change of a base row that maps to the given view rows before and after:

    * none before, none after: nothing;
    * none before, one after: the full image of the view row;
    * one before, none after: the retraction of the view row;
    * the same one before and after: the scoped changes only;
    * another one after: the retraction of the old view row, then the full image of the new one. -/
def intents (v : View) (before after : Option ViewKey) (d : Delta) : List Intent :=
  match before, after with
  | none, none => []
  | none, some new => (v.fullImage d.after).intents new
  | some old, none => v.retraction d old
  | some old, some new =>
    if old = new then (v.scopedChanges d none).intents new
    else v.retraction d old ++ (v.fullImage d.after).intents new

/-- The intents for a change of a base row. Both states of the row have to fit the schema. -/
def rowIntents (v : View) (d : Delta) : Except UnknownColumn (List Intent) :=
  match (v.unknownColumn? d.before).or (v.unknownColumn? d.after) with
  | some e => .error e
  | none => .ok (v.intents (v.rowKey? d.before d.now) (v.rowKey? d.after d.now) d)

/-- The intents for the deletion of base rows, which were read before it: afterwards they can not be
    told from rows that never existed. View data written after the deletion survives, as it does in
    the base table. -/
def deletionIntents (v : View) (rows : List Row) (deletion : Deletion) (now : Timestamp) :
    Except UnknownColumn (List Intent) :=
  match rows.findSome? v.unknownColumn? with
  | some e => .error e
  | none =>
    .ok ((rows.filterMap (v.rowKey? · now)).map fun row =>
      .deleteRow row deletion.markedAt .regular)

end View

end ViewMaintenance
