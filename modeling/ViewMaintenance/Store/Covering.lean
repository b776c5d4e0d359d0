import ViewMaintenance.Deletion
import ViewMaintenance.Reconcile
import ViewMaintenance.Row.Key

namespace ViewMaintenance

/-- The deletion of a clustering range. -/
structure RangeDeletion where
  range : ClusteringRange
  deletion : Deletion
deriving DecidableEq

/-- The deletion of a whole partition, if there is one, and the deletions of its ranges. They
    cover what any level holds, not only what lies in the level that they were written to. -/
structure Covering where
  partition : Option Deletion
  ranges : List RangeDeletion
deriving DecidableEq

namespace Covering

/-- No deletion at all. -/
def empty : Covering := ⟨none, []⟩

/-- The deletions of two levels together. -/
def union (a b : Covering) : Covering := ⟨latest? a.partition b.partition, a.ranges ++ b.ranges⟩

/-- The greatest deletion that covers the row with a clustering key. -/
def deletion? (c : Covering) (clustering : Bytes) : Option Deletion :=
  let covering := c.ranges.filter (·.range.contains clustering)
  covering.foldl (fun d x => latest? d (some x.deletion)) c.partition

end Covering

end ViewMaintenance
