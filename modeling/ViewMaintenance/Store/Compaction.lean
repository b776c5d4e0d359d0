import ViewMaintenance.Store.Level
import ViewMaintenance.Store.Scan

namespace ViewMaintenance

/-- What a read asks of one level. Any question can fail, and a range read can also break later. -/
structure Source where
  covering : Bytes → Except StoreError Covering
  fragment? : RowKey → Except StoreError (Option Row)
  fragments : Bytes → ClusteringRange → Except StoreError (List RowResult)

/-- A level in memory never fails. -/
def Level.source (l : Level) : Source where
  covering partition := .ok (l.covering partition)
  fragment? key := .ok (l.fragment? key)
  fragments partition range := .ok ((l.fragments partition range).map .ok)

namespace Compaction

/-- Reads on over the given levels: `row` and `covering` are what was found so far. Each level is
    asked for its covering deletions, then for its fragment. The deletions are applied at the
    end, whichever level holds them. -/
def readFrom (key : RowKey) (row : Row) (covering : Covering) :
    List Source → Except StoreError Row
  | [] => .ok (row.shadow (covering.deletion? key.clustering))
  | source :: sources => do
    let covering := covering.union (← source.covering key.partition)
    match ← source.fragment? key with
    | none => readFrom key row covering sources
    | some fragment =>
      let row ← (row.merge fragment).mapError .keyMismatch
      readFrom key row covering sources

/-- The row of a key. A row that was never written is read as an empty one. -/
def read (sources : List Source) (key : RowKey) : Except StoreError Row :=
  readFrom key (.empty key) .empty sources

/-- The covering deletions and the fragments of a range in one level. -/
def open? (partition : Bytes) (range : ClusteringRange) (source : Source) :
    Except StoreError (Covering × List RowResult) := do
  let covering ← source.covering partition
  let fragments ← source.fragments partition range
  return (covering, fragments)

/-- The rows of a clustering range, one for each key of which a level holds a fragment. A row that a
    deletion has emptied is still among them, with that deletion. How the streams of the levels are
    merged into one is left open. -/
def scanBy (merge : List (List RowResult) → List RowResult) (sources : List Source)
    (partition : Bytes) (range : ClusteringRange) : Except StoreError (List RowResult) := do
  let opened ← sources.mapM (open? partition range)
  let covering := (opened.map (·.1)).foldl Covering.union .empty
  let merged := merge (opened.map (·.2))
  return (Scan.coalesce RowResult.join? merged).map fun item =>
    item.map fun row => row.shadow (covering.deletion? row.key.clustering)

/-- The rows of a clustering range, from streams that are merged over a heap. -/
def scan (sources : List Source) (partition : Bytes) (range : ClusteringRange) :
    Except StoreError (List RowResult) :=
  scanBy (Scan.merge RowResult.precedes) sources partition range

end Compaction

end ViewMaintenance
