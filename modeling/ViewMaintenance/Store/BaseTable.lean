import ViewMaintenance.Store.Compaction

namespace ViewMaintenance

/-- A base table in memory: one level that is written to, over levels that are frozen. -/
structure BaseTable where
  top : Level
  /-- The newest first. -/
  frozen : List Level
deriving DecidableEq

namespace BaseTable

/-- The table without rows. -/
def empty : BaseTable := ⟨∅, []⟩

instance : EmptyCollection BaseTable := ⟨empty⟩

/-- All levels, in the order in which reads ask them. -/
def levels (t : BaseTable) : List Level := t.top :: t.frozen

/-- Freezes the top level, unless it is empty, and starts a new one. -/
def flush (t : BaseTable) : BaseTable :=
  if t.top.isEmpty then t else ⟨∅, t.top :: t.frozen⟩

/-- Writes a mutation to the top level. -/
def apply (t : BaseTable) (m : Mutation) : Except StoreError BaseTable :=
  (t.top.apply m).map fun top => { t with top }

/-- The row of a key. -/
def read (t : BaseTable) (key : RowKey) : Except StoreError Row :=
  Compaction.read (t.levels.map (·.source)) key

/-- The rows of a clustering range in key order. -/
def scan (t : BaseTable) (partition : Bytes) (range : ClusteringRange) :
    Except StoreError (List RowResult) :=
  Compaction.scan (t.levels.map (·.source)) partition range

/-- The warnings that a scan gives. -/
def scanWarnings (t : BaseTable) (partition : Bytes) (range : ClusteringRange) : List Warning :=
  t.levels.filterMap (·.warning? partition range)

end BaseTable

end ViewMaintenance
