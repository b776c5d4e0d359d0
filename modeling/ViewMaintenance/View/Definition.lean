import ViewMaintenance.Row.Basic
import ViewMaintenance.SortedMap.Lemmas
import ViewMaintenance.View.Schema

namespace ViewMaintenance

/-- A view, checked against the schema of its base table. Its key is the base key, which one
    regular column may extend, the promoted column. A view with a promoted column has a row
    exactly while that column is live in the base row, another view while the base row is
    present. -/
structure View where
  name : String
  schema : Schema
  /-- The regular columns that reads return. -/
  selected : SortedSet String
  /-- The regular column that extends the key. -/
  promoted : Option String
  isRegular_of_selected : ∀ c, selected.contains c = true → schema.isRegular c = true
  isRegular_of_promoted : ∀ c, promoted = some c → schema.isRegular c = true
  not_selected_of_promoted : ∀ c, promoted = some c → selected.contains c = false

namespace View

/-- Whether the rows of the view live and die with one column. -/
def isStrict (v : View) : Bool := v.promoted.isSome

/-- Whether reads return a column. -/
def isSelected (v : View) (column : String) : Bool := v.selected.contains column

/-- Whether changes of a base column reach view rows as cells. -/
def tracks (v : View) (column : String) : Bool :=
  match v.promoted with
  | some p => p != column && v.isSelected column
  | none => v.schema.isRegular column

/-- Whether a column is tracked for the existence of view rows only. Its cells keep the time and
    the expiry of a write and are never read. -/
def isVirtual (v : View) (column : String) : Bool := v.tracks column && !v.isSelected column

end View

/-- A row holds a column that the schema of a view does not know. -/
structure UnknownColumn where
  view : String
  column : String
deriving DecidableEq

namespace UnknownColumn

/-- The text of the error. -/
def message (e : UnknownColumn) : String := s!"UnknownColumn: view={e.view} column={e.column}"

end UnknownColumn

/-- The first column of a row that the schema of a view does not know, as an error. -/
def View.unknownColumn? (v : View) (r : Row) : Option UnknownColumn :=
  (r.cells.keys.find? fun c => !v.schema.isRegular c).map (⟨v.name, ·⟩)

/-- Why a view can not be built over a base table. -/
inductive ViewError
  /-- A selected column is not regular. -/
  | unknownColumn (view column : String)
  /-- The promoted column is not regular. -/
  | promotedNotRegular (view column : String)
  /-- A key was to be extended by more than one column. -/
  | multiplePromoted (view first second : String)
deriving DecidableEq

namespace ViewError

/-- The text of the error. -/
def message : ViewError → String
  | unknownColumn view column =>
    s!"UnknownColumn: view={view} column={column} is not a regular column of the base table"
  | promotedNotRegular view column =>
    s!"PromotedNotRegular: view={view} column={column} can not be promoted into the view key"
  | multiplePromoted view first second =>
    s!"MultiplePromoted: view={view} already promotes {first}, can not promote {second}"

end ViewError

/-- What a view is asked to be, before it is checked. -/
structure ViewRequest where
  name : String
  schema : Schema
  selected : SortedSet String
  /-- The columns to extend the key with, in the order of the requests. -/
  promoted : List String

namespace ViewRequest

/-- A view that selects nothing. -/
def new (name : String) (schema : Schema) : ViewRequest := ⟨name, schema, ∅, []⟩

/-- Selects columns. -/
def select (q : ViewRequest) (columns : List String) : ViewRequest :=
  { q with selected := columns.foldl (fun s c => s.insert c ()) q.selected }

/-- Selects every regular column. -/
def selectAll (q : ViewRequest) : ViewRequest := q.select q.schema.regular.toList

/-- Extends the key by a column. -/
def promote (q : ViewRequest) (column : String) : ViewRequest :=
  { q with promoted := q.promoted ++ [column] }

theorem isRegular_of_find?_eq_none {s : Schema} {cs : SortedSet String}
    (h : cs.toList.find? (fun c => !s.isRegular c) = none) (c : String)
    (hc : cs.contains c = true) : s.isRegular c = true := by
  have := List.find?_eq_none.1 h c (SortedMap.mem_keys_iff.2 hc)
  simpa using this

/-- Checks the selected columns in their order, then the number of promoted columns, then the
    promoted column. A promoted column is part of the key and no longer a selected column. -/
def build (q : ViewRequest) : Except ViewError View :=
  match hselected : q.selected.toList.find? (fun c => !q.schema.isRegular c) with
  | some c => .error (.unknownColumn q.name c)
  | none =>
    match q.promoted with
    | first :: second :: _ => .error (.multiplePromoted q.name first second)
    | [p] =>
      if hp : q.schema.isRegular p = true then
        .ok {
          name := q.name
          schema := q.schema
          selected := q.selected.filter fun c _ => c != p
          promoted := some p
          isRegular_of_selected := fun c hc => by
            refine isRegular_of_find?_eq_none hselected c ?_
            simp only [SortedMap.contains, SortedMap.get?_filter] at hc ⊢
            cases hget : q.selected.get? c <;> simp_all
          isRegular_of_promoted := fun c hc => by simpa [← Option.some.inj hc] using hp
          not_selected_of_promoted := fun c hc => by
            obtain rfl := Option.some.inj hc
            simp only [SortedMap.contains, SortedMap.get?_filter]
            cases hget : q.selected.get? p <;> simp }
      else .error (.promotedNotRegular q.name p)
    | [] =>
      .ok {
        name := q.name
        schema := q.schema
        selected := q.selected
        promoted := none
        isRegular_of_selected := isRegular_of_find?_eq_none hselected
        isRegular_of_promoted := by simp
        not_selected_of_promoted := by simp }

end ViewRequest

end ViewMaintenance
