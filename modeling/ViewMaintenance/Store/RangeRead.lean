import ViewMaintenance.Store.Level

namespace ViewMaintenance

namespace SortedMap

variable {α β : Type} [Ord α]

/-- One end of a range of keys. -/
inductive End (α : Type)
  | unbounded
  | included (key : α)
  | excluded (key : α)

namespace End

/-- Whether a lower end leaves out a key. -/
def isAfter : End α → α → Bool
  | unbounded, _ => false
  | included a, k => (compare k a).isLT
  | excluded a, k => (compare k a).isLE

/-- Whether an upper end leaves out a key. -/
def isBefore : End α → α → Bool
  | unbounded, _ => false
  | included b, k => (compare b k).isLT
  | excluded b, k => (compare b k).isLE

/-- Whether a lower end lies above an upper one, or both leave out one and the same key. -/
def isInverted : End α → End α → Bool
  | excluded a, excluded b => (compare a b).isGE
  | included a, included b | included a, excluded b | excluded a, included b => (compare a b).isGT
  | unbounded, _ | _, unbounded => false

end End

/-- The entries of a range in key order. A range with inverted ends is refused, which is not the
    same as an empty one. -/
def range? (m : SortedMap α β) (lower upper : End α) : Option (List (α × β)) :=
  if lower.isInverted upper then none
  else
    let start := m.entries.dropWhile fun e => lower.isAfter e.1
    some (start.takeWhile fun e => !upper.isBefore e.1)

end SortedMap

/-- Where the clustering keys of a partition that a lower end admits start among all keys. -/
def Bound.start (lower : Bound) (partition : Bytes) : SortedMap.End RowKey :=
  match lower with
  | unbounded => .included (.ofPartition partition)
  | included c => .included ⟨partition, c⟩
  | excluded c => .excluded ⟨partition, c⟩

/-- The fragments of a clustering range, unless the map of all rows refuses what is asked of it.
    The ends of a clustering range may be inverted, so the map is given the lower one only. -/
def Level.fragments? (l : Level) (partition : Bytes) (range : ClusteringRange) :
    Option (List Row) :=
  (l.rows.range? (range.lower.start partition) .unbounded).map fun start =>
    let inPartition := start.takeWhile fun e => e.1.partition == partition
    (inPartition.filter fun e => range.contains e.1.clustering).map (·.2)

end ViewMaintenance
