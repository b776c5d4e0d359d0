import ViewMaintenance.Engine.Apply

namespace ViewMaintenance

/-- Applies intents in order until the table refuses one, and keeps what was applied by then. -/
def ViewTable.applyInPlace (t : ViewTable) : List Intent → Except StoreError Unit × ViewTable
  | [] => (.ok (), t)
  | i :: intents =>
    match t.apply i with
    | .error err => (.error err, t)
    | .ok t => t.applyInPlace intents

namespace ViewTables

/-- Applies updates in order until a table refuses an intent, and keeps what was applied by then. -/
def updateInPlace (ts : ViewTables) : List ViewUpdate → Except StoreError Unit × ViewTables
  | [] => (.ok (), ts)
  | u :: updates =>
    match ts.get? u.view with
    | none => ts.updateInPlace updates
    | some table =>
      match table.applyInPlace u.intents with
      | (.error err, table) => (.error err, ⟨ts.tables.insert u.view table⟩)
      | (.ok (), table) => updateInPlace ⟨ts.tables.insert u.view table⟩ updates

/-- Applies a batch, unless it is for an unknown view. -/
def applyInPlace (ts : ViewTables) (updates : List ViewUpdate) : Except StoreError Unit × ViewTables :=
  match updates.find? fun u => (ts.get? u.view).isNone with
  | some u => (.error (.unknownView u.view), ts)
  | none => ts.updateInPlace updates

end ViewTables

/-- Applies a mutation to stores that are written in place. A call that fails in the middle keeps
    what it has written by then. -/
def Engine.applyInPlace (e : Engine) (m : Mutation) (now : Timestamp) (s : Store) :
    Except EngineError (List ViewUpdate) × Store :=
  match e.updates s.base.reader m now with
  | .error err => (.error err, s)
  | .ok updates =>
    match s.views.applyInPlace updates with
    | (.error err, views) => (.error (.store err), { s with views })
    | (.ok (), views) =>
      match s.base.apply m with
      | .error err => (.error (.store err), { s with views })
      | .ok base => (.ok updates, ⟨base, views⟩)

end ViewMaintenance
