import ViewMaintenance.Bytes

namespace ViewMaintenance

/-- The deletion of everything written up to a timestamp. A greater deletion makes a smaller one
    superfluous. -/
structure Deletion where
  markedAt : Timestamp
deriving DecidableEq

namespace Deletion

/-- Whether a write of that time is deleted. -/
def deletes (d : Deletion) (timestamp : Timestamp) : Bool := decide (timestamp ≤ d.markedAt)

/-- The text of a deletion in log lines. -/
def toText (d : Deletion) : String := s!"deleted@{d.markedAt}"

/-- Deletions are ordered by what they reach. -/
instance : Ord Deletion where
  compare := compareOn markedAt

instance : Std.TransOrd Deletion := by
  unfold Std.TransOrd compare instOrd
  infer_instance

instance : Std.LawfulEqOrd Deletion where
  compare_self := Std.ReflCmp.compare_self
  eq_of_compare {a b} h := by
    change compareOn markedAt a b = .eq at h
    simp only [compareOn, Std.LawfulEqCmp.compare_eq_iff_eq] at h
    cases a
    cases b
    simpa using h

/-- Whether a deletion, if there is one, deletes a write of that time. -/
def covers (d : Option Deletion) (timestamp : Timestamp) : Bool := d.any (·.deletes timestamp)

end Deletion

end ViewMaintenance
