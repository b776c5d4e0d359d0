import ViewMaintenance.Store.BaseTable
import ViewMaintenance.View.Changes

namespace ViewMaintenance

/-- Settings of an engine. -/
structure EngineConfig where
  /-- A deletion that reads more rows than this gives a warning. -/
  rangeScanWarnThreshold : UInt64 := 1000
  /-- Whether the lock of a partition is dropped once no mutation of it is in flight. -/
  pruneIdlePartitions : Bool := true
deriving DecidableEq

/-- Why a mutation is refused. -/
inductive EngineError
  | keyMismatch (cause : KeyMismatch)
  | unknownColumn (cause : UnknownColumn)
  | store (cause : StoreError)
deriving DecidableEq

namespace EngineError

/-- The text of the error. -/
def message : EngineError → String
  | keyMismatch cause => cause.message
  | unknownColumn cause => cause.message
  | store cause => cause.message

end EngineError

/-- What the engine asks of a base table before a mutation. -/
structure BaseReader where
  read : RowKey → Except StoreError Row
  scan : Bytes → ClusteringRange → Except StoreError (List RowResult)

/-- The reads of a base table. -/
def BaseTable.reader (t : BaseTable) : BaseReader := ⟨t.read, t.scan⟩

/-- The views of one base table, and how to maintain them. -/
structure Engine where
  views : List View
  config : EngineConfig

namespace Engine

/-- The updates of all views for a fragment of one row. -/
def rowUpdates (e : Engine) (base : BaseReader) (fragment : Row) (now : Timestamp) :
    Except EngineError (List ViewUpdate) := do
  let before ← (base.read fragment.key).mapError .store
  let after ← (before.merge fragment).mapError .keyMismatch
  let delta ← (Delta.between before after now).mapError .keyMismatch
  e.views.mapM fun v =>
    ((v.rowIntents delta).mapError .unknownColumn).map fun intents => ⟨v.name, intents⟩

/-- The updates of all views for the deletion of a range, which is read to its end before. -/
def deletionUpdates (e : Engine) (base : BaseReader) (partition : Bytes)
    (range : ClusteringRange) (deletion : Deletion) (now : Timestamp) :
    Except EngineError (List ViewUpdate) := do
  let scanned ← (base.scan partition range).mapError .store
  let rows ← (scanned.mapM id).mapError .store
  e.views.mapM fun v =>
    ((v.deletionIntents rows deletion now).mapError .unknownColumn).map fun intents =>
      ⟨v.name, intents⟩

/-- The updates that a mutation makes, those that change something. The rows that it affects are
    read before it. Either all views have their updates, or the mutation is refused. -/
def updates (e : Engine) (base : BaseReader) (m : Mutation) (now : Timestamp) :
    Except EngineError (List ViewUpdate) :=
  let all := match m with
    | .row fragment => e.rowUpdates base fragment now
    | .deleteRange partition range deletion =>
      e.deletionUpdates base partition range deletion now
    | .deletePartition partition deletion =>
      e.deletionUpdates base partition .full deletion now
  all.map fun us => us.filter fun u => !u.isEmpty

end Engine

end ViewMaintenance
