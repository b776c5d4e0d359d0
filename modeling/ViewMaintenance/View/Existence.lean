import ViewMaintenance.View.Definition

namespace ViewMaintenance

/-- Names a view row: the base key, and the value of the promoted column if the view has one. -/
structure ViewKey where
  base : RowKey
  promoted : Option Bytes
deriving DecidableEq

namespace ViewKey

/-- The text of a view key in messages. -/
def toText (k : ViewKey) : String :=
  match k.promoted with
  | none => k.base.toText
  | some value => s!"{k.base.toText}+{value.toText}"

/-- View rows of one base row lie together; a key without a promoted value comes first. -/
instance : Ord ViewKey where
  compare := compareLex (compareOn base) (compareOn promoted)

instance : Std.TransOrd ViewKey := by
  unfold Std.TransOrd compare instOrd
  infer_instance

instance : Std.LawfulEqOrd ViewKey where
  compare_self := Std.ReflCmp.compare_self
  eq_of_compare {a b} h := by
    change compareLex _ _ a b = .eq at h
    simp only [compareLex_eq_eq, compareOn, Std.LawfulEqCmp.compare_eq_iff_eq] at h
    cases a
    cases b
    simpa using h

end ViewKey

namespace View

/-- The view row that a base row maps to at `now`: while the promoted column is live, the one
    that its value names; without a promoted column, while the base row is present. Each state of
    a base row is looked at on its own: a row deleted through one column can be present again
    through another one that was written at an older time. -/
def rowKey? (v : View) (r : Row) (now : Timestamp) : Option ViewKey :=
  match v.promoted with
  | some p => ((r.cell? p).bind (·.liveValue? now)).map fun value => ⟨r.key, some value⟩
  | none => if r.isPresent now then some ⟨r.key, none⟩ else none

/-- The marker of the view row: it lives as long as the promoted cell, or as the marker of the base
    row if no column is promoted. -/
def marker? (v : View) (r : Row) : Option Marker :=
  match v.promoted with
  | some p => (r.cell? p).bind fun c =>
      if c.isTombstone then none else some (.live c.timestamp c.expiry)
  | none => r.marker

/-- What a base cell is in the view: nothing for a column that is not tracked, a tombstone for a
    tombstone, and for a value the cell itself, its content left out if the column is virtual. -/
def cellImage? (v : View) (column : String) (cell : Cell) : Option Cell :=
  if !v.tracks column then none
  else if cell.isTombstone then some (.tombstone cell.timestamp)
  else if v.isVirtual column then some cell.toVirtual
  else some cell

/-- The values that the selected columns of a row show at `now`. -/
def liveColumns (v : View) (r : Row) (now : Timestamp) : SortedMap String Bytes :=
  r.cells.filterMap fun column cell =>
    if v.isSelected column then cell.liveValue? now else none

end View

end ViewMaintenance
