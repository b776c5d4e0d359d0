import ViewMaintenance.Row.Basic

namespace ViewMaintenance

/-- A change to a base table. Each one concerns a single partition. -/
inductive Mutation
  /-- Merges a fragment into its row. -/
  | row (fragment : Row)
  /-- Deletes the rows of a clustering range. -/
  | deleteRange (partition : Bytes) (range : ClusteringRange) (deletion : Deletion)
  /-- Deletes all rows of a partition. -/
  | deletePartition (partition : Bytes) (deletion : Deletion)
deriving DecidableEq

namespace Mutation

/-- The partition that the mutation concerns. -/
def partition : Mutation → Bytes
  | row fragment => fragment.key.partition
  | deleteRange partition _ _ => partition
  | deletePartition partition _ => partition

/-- Deletes one row. -/
def deleteRow (key : RowKey) (timestamp : Timestamp) : Mutation :=
  row ((Row.empty key).withDeletion ⟨timestamp⟩)

end Mutation

/-- A write to columns of one row at one time, by an insertion or an update. An insertion also
    marks the row as existing. -/
structure RowWrite where
  key : RowKey
  timestamp : Timestamp
  isInsert : Bool
  expiry : Option Expiry
  /-- The columns written, in order; a column without a value is deleted. -/
  columns : List (String × Option Bytes)

namespace RowWrite

/-- An insertion that writes no column yet. -/
def insert (key : RowKey) (timestamp : Timestamp) : RowWrite := ⟨key, timestamp, true, none, []⟩

/-- An update that writes no column yet. -/
def update (key : RowKey) (timestamp : Timestamp) : RowWrite := ⟨key, timestamp, false, none, []⟩

/-- Lets the whole write expire `ttl` after `now`. -/
def withTtl (w : RowWrite) (ttl : UInt32) (now : Timestamp) : RowWrite :=
  { w with expiry := some (.after ttl now) }

/-- Writes a value to a column. -/
def set (w : RowWrite) (column : String) (value : Bytes) : RowWrite :=
  { w with columns := w.columns ++ [(column, some value)] }

/-- Deletes a column. -/
def delete (w : RowWrite) (column : String) : RowWrite :=
  { w with columns := w.columns ++ [(column, none)] }

/-- The cell that the write leaves in a column. -/
def cell (w : RowWrite) (value : Option Bytes) : Cell :=
  Cell.withExpiry ⟨w.timestamp, value, none⟩ w.expiry

/-- The fragment written. Of several writes to a column the last one counts. -/
def toRow (w : RowWrite) : Row where
  key := w.key
  marker := if w.isInsert then some (.live w.timestamp w.expiry) else none
  deletion := none
  cells := SortedMap.ofList (w.columns.map fun (column, value) => (column, w.cell value))

/-- The mutation that merges the fragment written. -/
def toMutation (w : RowWrite) : Mutation := .row w.toRow

end RowWrite

end ViewMaintenance
