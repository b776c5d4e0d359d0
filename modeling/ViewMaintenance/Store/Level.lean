import ViewMaintenance.Mutation
import ViewMaintenance.Store.Covering
import ViewMaintenance.Store.Error
import ViewMaintenance.Warning

namespace ViewMaintenance

/-- One level of a base table: row fragments in key order, and the deletions of partitions and
    ranges. Fragments of one key are merged as they are written, while deletions are kept beside
    the fragments, since they also cover what other levels hold. -/
structure Level where
  rows : SortedMap RowKey Row
  partitionDeletions : SortedMap Bytes Deletion
  rangeDeletions : SortedMap Bytes (List RangeDeletion)
deriving DecidableEq

/-- Whether a key lies before all keys of a partition that a lower end admits. -/
def Bound.isAfter (lower : Bound) (partition : Bytes) (key : RowKey) : Bool :=
  match lower with
  | unbounded => (compare key (.ofPartition partition)).isLT
  | included c => (compare key ⟨partition, c⟩).isLT
  | excluded c => (compare key ⟨partition, c⟩).isLE

namespace Level

/-- A level to which nothing was written. -/
def empty : Level := ⟨∅, ∅, ∅⟩

instance : EmptyCollection Level := ⟨empty⟩

/-- The fragment of a key. -/
def fragment? (l : Level) (key : RowKey) : Option Row := l.rows.get? key

/-- Merges a fragment into what the level holds of its row. -/
def applyRow (l : Level) (fragment : Row) : Except KeyMismatch Level :=
  let stored := (l.fragment? fragment.key).getD (.empty fragment.key)
  (stored.merge fragment).map fun row => { l with rows := l.rows.insert fragment.key row }

/-- Adds the deletion of a range. -/
def applyRange (l : Level) (partition : Bytes) (deletion : RangeDeletion) : Level :=
  let stored := (l.rangeDeletions.get? partition).getD []
  { l with rangeDeletions := l.rangeDeletions.insert partition (stored ++ [deletion]) }

/-- Raises the deletion of a partition. -/
def applyPartition (l : Level) (partition : Bytes) (deletion : Deletion) : Level :=
  let stored := (l.partitionDeletions.get? partition).getD deletion
  { l with
    partitionDeletions := l.partitionDeletions.insert partition (latest stored deletion) }

/-- Writes a mutation. -/
def apply (l : Level) : Mutation → Except StoreError Level
  | .row fragment => (l.applyRow fragment).mapError .keyMismatch
  | .deleteRange partition range deletion => .ok (l.applyRange partition ⟨range, deletion⟩)
  | .deletePartition partition deletion => .ok (l.applyPartition partition deletion)

/-- Whether the level holds nothing, not even a deletion. -/
def isEmpty (l : Level) : Bool :=
  l.rows.isEmpty && l.partitionDeletions.isEmpty && l.rangeDeletions.isEmpty

/-- The number of row fragments. -/
def size (l : Level) : Nat := l.rows.size

/-- The fragments of a clustering range, in key order: from the first key that the lower end admits
    up to the end of the partition, those that both ends admit. -/
def fragments (l : Level) (partition : Bytes) (range : ClusteringRange) : List Row :=
  let start := l.rows.entries.dropWhile fun e => range.lower.isAfter partition e.1
  let inPartition := start.takeWhile fun e => e.1.partition == partition
  (inPartition.filter fun e => range.contains e.1.clustering).map (·.2)

/-- The deletions that cover more than one row of a partition. -/
def covering (l : Level) (partition : Bytes) : Covering :=
  ⟨l.partitionDeletions.get? partition, (l.rangeDeletions.get? partition).getD []⟩

/-- A range read that returns more fragments than this is worth a warning. -/
def bigRange : Nat := 1000

/-- The warning that a range read of the level gives. -/
def warning? (l : Level) (partition : Bytes) (range : ClusteringRange) : Option Warning :=
  let rows := (l.fragments partition range).length
  if bigRange < rows then some (.bigRange rows partition) else none

end Level

end ViewMaintenance
