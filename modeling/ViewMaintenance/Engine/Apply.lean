import ViewMaintenance.Engine.Basic
import ViewMaintenance.Store.ViewTable

namespace ViewMaintenance

/-- A base table and the tables of its views. -/
structure Store where
  base : BaseTable
  views : ViewTables

/-- What fails in the stores while one mutation is applied. A write that fails writes nothing. -/
structure Faults where
  /-- Reading a row fails. -/
  read : Option StoreError
  /-- Starting a scan fails. -/
  scan : Option StoreError
  /-- A scan breaks after some rows. -/
  scanBreak : Option (Nat × StoreError)
  /-- Writing to the views fails. -/
  viewWrite : Option StoreError
  /-- Writing to the base table fails. -/
  baseWrite : Option StoreError

namespace Faults

/-- Nothing fails. -/
def none : Faults := ⟨.none, .none, .none, .none, .none⟩

/-- A call that fails if there is a reason to. -/
def call {α : Type} (fault : Option StoreError) (result : Except StoreError α) :
    Except StoreError α :=
  match fault with
  | some e => .error e
  | .none => result

/-- The items that a scan gives until it breaks. -/
def cut (f : Faults) (items : List RowResult) : List RowResult :=
  match f.scanBreak with
  | some (n, e) => items.take n ++ [.error e]
  | .none => items

/-- The reads of a base table while the faults are there. -/
def reader (f : Faults) (base : BaseReader) : BaseReader where
  read key := call f.read (base.read key)
  scan partition range := call f.scan ((base.scan partition range).map f.cut)

end Faults

namespace Store

/-- Writes updates to the views; the views are not called if there are none. -/
def writeViews (s : Store) (f : Faults) (updates : List ViewUpdate) : Except StoreError Store :=
  if updates.isEmpty then .ok s
  else (Faults.call f.viewWrite (s.views.apply updates)).map fun views => { s with views }

/-- Writes a mutation to the base table. -/
def writeBase (s : Store) (f : Faults) (m : Mutation) : Except StoreError Store :=
  (Faults.call f.baseWrite (s.base.apply m)).map fun base => { s with base }

end Store

namespace Engine

/-- Writes what was computed for a mutation: the updates to the views, then the mutation to the
    base table. The result is the list of the updates, or the first error. On an error the base
    table is as before, so another attempt reads the same rows again and computes the same
    updates, which the views absorb. -/
def commit (f : Faults) (m : Mutation) (s : Store) :
    Except EngineError (List ViewUpdate) → Except EngineError (List ViewUpdate) × Store
  | .error err => (.error err, s)
  | .ok updates =>
    match s.writeViews f updates with
    | .error err => (.error (.store err), s)
    | .ok written =>
      match written.writeBase f m with
      | .error err => (.error (.store err), written)
      | .ok done => (.ok updates, done)

/-- Applies a mutation, with expiries evaluated at `now`. A mutation that was refused can be applied
    again. -/
def apply (e : Engine) (f : Faults) (m : Mutation) (now : Timestamp) (s : Store) :
    Except EngineError (List ViewUpdate) × Store :=
  commit f m s (e.updates (f.reader s.base.reader) m now)

/-- The warnings for the scan of a deletion: those of the base table, then one of the engine if more
    rows were read than its threshold says. -/
def deletionWarnings (e : Engine) (f : Faults) (s : Store) (partition : Bytes)
    (range : ClusteringRange) (deletion : Deletion) : List Warning :=
  if f.scan.isSome then []
  else
    let scanned := (f.reader s.base.reader).scan partition range
    let big := match scanned.bind (·.mapM id) with
      | .ok rows =>
        if e.config.rangeScanWarnThreshold.toNat < rows.length then
          [Warning.bigDeletion deletion rows.length partition]
        else []
      | .error _ => []
    s.base.scanWarnings partition range ++ big

/-- The warnings that applying a mutation gives. -/
def warnings (e : Engine) (f : Faults) (m : Mutation) (s : Store) : List Warning :=
  match m with
  | .row _ => []
  | .deleteRange partition range deletion => e.deletionWarnings f s partition range deletion
  | .deletePartition partition deletion => e.deletionWarnings f s partition .full deletion

end Engine

end ViewMaintenance
