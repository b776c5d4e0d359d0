import ViewMaintenance.Deletion

namespace ViewMaintenance

/-- A read that may be more expensive than its caller expects. -/
inductive Warning
  /-- One level returned many rows of a partition. -/
  | bigRange (rows : Nat) (partition : Bytes)
  /-- A deletion had to read many rows of a partition. -/
  | bigDeletion (deletion : Deletion) (rows : Nat) (partition : Bytes)
deriving DecidableEq

namespace Warning

/-- The log line of the warning. -/
def message : Warning → String
  | bigRange rows partition =>
    s!"Level::fragments() returns big range of len={rows} partition={partition.toText}"
  | bigDeletion deletion rows partition =>
    s!"ViewUpdateEngine: range deletion {deletion.toText} scans {rows} rows in partition " ++
      partition.toText

end Warning

end ViewMaintenance
