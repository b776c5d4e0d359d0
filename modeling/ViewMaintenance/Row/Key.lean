import ViewMaintenance.Bytes

namespace ViewMaintenance

/-- Names a base row: the partition that holds it and its place there. -/
structure RowKey where
  partition : Bytes
  clustering : Bytes
deriving DecidableEq

namespace RowKey

/-- The key of the only row of a partition without clustering key. -/
def ofPartition (partition : Bytes) : RowKey := ⟨partition, []⟩

/-- The text of a key in messages. -/
def toText (k : RowKey) : String := s!"({k.partition.toText}, {k.clustering.toText})"

/-- Rows of one partition lie together, in the order of their clustering keys. -/
instance : Ord RowKey where
  compare := compareLex (compareOn partition) (compareOn clustering)

instance : Std.TransOrd RowKey := by
  unfold Std.TransOrd compare instOrd
  infer_instance

instance : Std.LawfulEqOrd RowKey where
  compare_self := Std.ReflCmp.compare_self
  eq_of_compare {a b} h := by
    change compareLex _ _ a b = .eq at h
    simp only [compareLex_eq_eq, compareOn, Std.LawfulEqCmp.compare_eq_iff_eq] at h
    cases a
    cases b
    simpa using h

end RowKey

/-- One end of a range of clustering keys. -/
inductive Bound
  | unbounded
  | included (clustering : Bytes)
  | excluded (clustering : Bytes)
deriving DecidableEq

namespace Bound

/-- Whether a lower end admits a clustering key. -/
def admitsAbove : Bound → Bytes → Bool
  | unbounded, _ => true
  | included b, c => (compare b c).isLE
  | excluded b, c => (compare b c).isLT

/-- Whether an upper end admits a clustering key. -/
def admitsBelow : Bound → Bytes → Bool
  | unbounded, _ => true
  | included b, c => (compare c b).isLE
  | excluded b, c => (compare c b).isLT

end Bound

/-- A range of clustering keys. It is empty if its ends are inverted. -/
structure ClusteringRange where
  lower : Bound
  upper : Bound
deriving DecidableEq

namespace ClusteringRange

/-- The range of all clustering keys. -/
def full : ClusteringRange := ⟨.unbounded, .unbounded⟩

/-- Whether a clustering key lies between both ends. -/
def contains (r : ClusteringRange) (clustering : Bytes) : Bool :=
  r.lower.admitsAbove clustering && r.upper.admitsBelow clustering

end ClusteringRange

end ViewMaintenance
