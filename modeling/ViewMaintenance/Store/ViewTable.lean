import ViewMaintenance.Intent
import ViewMaintenance.Store.Error

namespace ViewMaintenance

/-- The stored rows of one view. A view row is stored like a base row, and every intent is merged
    into it as a fragment. -/
structure ViewTable where
  view : View
  rows : SortedMap ViewKey Row

namespace ViewTable

/-- The table of a view that has no rows yet. -/
def new (view : View) : ViewTable := ⟨view, ∅⟩

/-- What is stored of a view row, visible or not. -/
def stored? (t : ViewTable) (key : ViewKey) : Option Row := t.rows.get? key

/-- Merges an intent into its view row. -/
def apply (t : ViewTable) (i : Intent) : Except StoreError ViewTable :=
  let stored := (t.stored? i.row).getD (.empty i.row.base)
  ((stored.merge i.fragment).mapError .keyMismatch).map fun row =>
    { t with rows := t.rows.insert i.row row }

/-- Whether a stored row is visible at `now`. A row of a strict view needs a live marker, a row of
    another view a live marker or a live cell. -/
def shows (t : ViewTable) (row : Row) (now : Timestamp) : Bool :=
  if t.view.isStrict then (row.liveMarker? now).isSome else row.isPresent now

/-- Whether a view row is visible at `now`. -/
def isVisible (t : ViewTable) (key : ViewKey) (now : Timestamp) : Bool :=
  (t.stored? key).any (t.shows · now)

/-- The visible rows at `now` with their selected live columns. -/
def read (t : ViewTable) (now : Timestamp) : SortedMap ViewKey (SortedMap String Bytes) :=
  t.rows.filterMap fun _ row => if t.shows row now then some (t.view.liveColumns row now) else none

end ViewTable

/-- The tables of the views of one base table, by name. -/
structure ViewTables where
  tables : SortedMap String ViewTable

namespace ViewTables

/-- No views. -/
def empty : ViewTables := ⟨∅⟩

instance : EmptyCollection ViewTables := ⟨empty⟩

/-- Adds the empty table of a view, in place of the table of that name. -/
def add (ts : ViewTables) (view : View) : ViewTables := ⟨ts.tables.insert view.name (.new view)⟩

/-- The table of a name. -/
def get? (ts : ViewTables) (name : String) : Option ViewTable := ts.tables.get? name

/-- Applies the intents of one update in order. -/
def applyUpdate (ts : ViewTables) (u : ViewUpdate) : Except StoreError ViewTables :=
  match ts.get? u.view with
  | none => .error (.unknownView u.view)
  | some table =>
    (u.intents.foldlM ViewTable.apply table).map fun table => ⟨ts.tables.insert u.view table⟩

/-- Applies updates in order, or none of them if one is for an unknown view. -/
def apply (ts : ViewTables) (updates : List ViewUpdate) : Except StoreError ViewTables :=
  match updates.find? fun u => (ts.get? u.view).isNone with
  | some u => .error (.unknownView u.view)
  | none => updates.foldlM applyUpdate ts

end ViewTables

end ViewMaintenance
