import ViewMaintenance.Bytes
import ViewMaintenance.Reconcile

namespace ViewMaintenance

/-- Until when a write stays visible. -/
@[ext]
structure Expiry where
  /-- The time to live that the writer asked for. -/
  ttl : UInt32
  /-- The first reference time at which the write is gone. -/
  localDeletionTime : Timestamp
deriving DecidableEq

namespace Expiry

/-- The expiry of a write made at `now`. Times past the last representable one stand at it. -/
def after (ttl : UInt32) (now : Timestamp) : Expiry :=
  ⟨ttl, Int64.ofInt (min (now.toInt + ttl.toNat) Int64.maxValue.toInt)⟩

/-- Whether a write with this expiry is gone at `now`. -/
def isExpired (e : Expiry) (now : Timestamp) : Bool := decide (e.localDeletionTime ≤ now)

end Expiry

/-- A write to one column, or its deletion. -/
structure Cell where
  timestamp : Timestamp
  /-- The value written; a tombstone has none. -/
  value : Option Bytes
  expiry : Option Expiry
deriving DecidableEq

namespace Cell

/-- A value that never expires. -/
def new (timestamp : Timestamp) (value : Bytes) : Cell := ⟨timestamp, some value, none⟩

/-- The deletion of a column. -/
def tombstone (timestamp : Timestamp) : Cell := ⟨timestamp, none, none⟩

/-- Whether the cell deletes its column. -/
def isTombstone (c : Cell) : Bool := c.value.isNone

/-- Gives a value an expiry. A tombstone stays as it is: a deletion holds for ever. -/
def withExpiry (c : Cell) (expiry : Option Expiry) : Cell :=
  if c.isTombstone then c else { c with expiry }

/-- Whether the cell shows a value at `now`. -/
def isLive (c : Cell) (now : Timestamp) : Bool :=
  !c.isTombstone && !c.expiry.any (·.isExpired now)

/-- The value that the cell shows at `now`. -/
def liveValue? (c : Cell) (now : Timestamp) : Option Bytes :=
  if c.isLive now then c.value else none

/-- The cell without the content of its value. It is live when the cell is. -/
def toVirtual (c : Cell) : Cell := { c with value := c.value.map fun _ => [] }

/-- The later write is greater. Of two writes of one time a tombstone is greater than a value, a
    cell that never expires is greater than one that does, then the later deletion time, the
    greater time to live and the greater value decide. Two cells that compare equal are one cell. -/
instance : Ord Cell where
  compare :=
    compareLex (compareOn timestamp) <|
    compareLex (compareOn isTombstone) <|
    compareLex (compareOn (·.expiry.isNone)) <|
    compareLex (compareOn (·.expiry.map Expiry.localDeletionTime)) <|
    compareLex (compareOn (·.expiry.map Expiry.ttl)) <|
    compareOn value

instance : Std.TransOrd Cell := by
  unfold Std.TransOrd compare instOrd
  infer_instance

instance : Std.LawfulEqOrd Cell where
  compare_self := Std.ReflCmp.compare_self
  eq_of_compare {a b} h := by
    change compareLex _ _ a b = .eq at h
    simp only [compareLex_eq_eq, compareOn, Std.LawfulEqCmp.compare_eq_iff_eq] at h
    obtain ⟨ta, va, ea⟩ := a
    obtain ⟨tb, vb, eb⟩ := b
    cases ea <;> cases eb <;> simp_all [Expiry.ext_iff]

/-- The cell that stays of two writes to one column. -/
def reconcile (a b : Cell) : Cell := latest a b

end Cell

end ViewMaintenance
