import ViewMaintenance.Row.Basic

namespace ViewMaintenance

/-- Why a store refuses a call. -/
inductive StoreError
  /-- A store holds, under one key, fragments of different rows. -/
  | keyMismatch (cause : KeyMismatch)
  /-- A batch of updates names a view that the store does not hold. -/
  | unknownView (name : String)
  /-- The medium of the store failed. -/
  | failed (reason : String)
deriving DecidableEq

namespace StoreError

/-- The text of the error. -/
def message : StoreError → String
  | keyMismatch cause => cause.message
  | unknownView name => s!"ViewTables::apply(): unknown view: {name}"
  | failed reason => reason

end StoreError

/-- An item of a scan. A scan can break in the middle. -/
abbrev RowResult := Except StoreError Row

end ViewMaintenance
