import ViewMaintenance.Cell

namespace ViewMaintenance

/-- What was last written about a row as a whole. A row exists through a live marker even where
    it has no live cell, and a withdrawn marker takes an older live one back without touching any
    cell. -/
inductive Marker
  /-- The row was inserted. -/
  | live (timestamp : Timestamp) (expiry : Option Expiry)
  /-- The insertion was taken back. -/
  | withdrawn (timestamp : Timestamp)
deriving DecidableEq

namespace Marker

/-- When the marker was written. -/
def timestamp : Marker → Timestamp
  | live timestamp _ => timestamp
  | withdrawn timestamp => timestamp

/-- Until when the marker holds; a withdrawal never expires. -/
def expiry : Marker → Option Expiry
  | live _ expiry => expiry
  | withdrawn _ => none

/-- The marker of an insertion at `now` that lives for `ttl`. -/
def expiring (timestamp : Timestamp) (ttl : UInt32) (now : Timestamp) : Marker :=
  live timestamp (some (.after ttl now))

/-- Whether the marker takes an insertion back. -/
def isWithdrawn : Marker → Bool
  | live _ _ => false
  | withdrawn _ => true

/-- Whether the marker lets its row exist at `now`. -/
def isLive (m : Marker) (now : Timestamp) : Bool :=
  !m.isWithdrawn && !m.expiry.any (·.isExpired now)

/-- The later marker is greater. Of two markers of one time a withdrawal is greater than an
    insertion, one that never expires is greater than one that does, then the later deletion time
    and the greater time to live decide. -/
instance : Ord Marker where
  compare :=
    compareLex (compareOn timestamp) <|
    compareLex (compareOn isWithdrawn) <|
    compareLex (compareOn (·.expiry.isNone)) <|
    compareLex (compareOn (·.expiry.map Expiry.localDeletionTime)) <|
    compareOn (·.expiry.map Expiry.ttl)

instance : Std.TransOrd Marker := by
  unfold Std.TransOrd compare instOrd
  infer_instance

instance : Std.LawfulEqOrd Marker where
  compare_self := Std.ReflCmp.compare_self
  eq_of_compare {a b} h := by
    change compareLex _ _ a b = .eq at h
    simp only [compareLex_eq_eq, compareOn, Std.LawfulEqCmp.compare_eq_iff_eq] at h
    cases a with
    | withdrawn ta => cases b <;> simp_all [timestamp, isWithdrawn]
    | live ta ea => cases b with
      | withdrawn tb => simp [isWithdrawn] at h
      | live tb eb => cases ea <;> cases eb <;> simp_all [timestamp, expiry, Expiry.ext_iff]

/-- The marker that stays of two. -/
def reconcile (a b : Marker) : Marker := latest a b

end Marker

end ViewMaintenance
