import ViewMaintenance.SortedMap.Basic

namespace ViewMaintenance

/-- The columns of a base table. The names of key columns are kept for reporting; the values of
    both keys are in the key of a row. -/
structure Schema where
  table : String
  partitionKey : String
  clusteringKey : Option String
  /-- The columns that are not part of the key. -/
  regular : SortedSet String
deriving DecidableEq

namespace Schema

/-- Whether a column is not part of the key. -/
def isRegular (s : Schema) (column : String) : Bool := s.regular.contains column

/-- Whether a column is part of the key. -/
def isKey (s : Schema) (column : String) : Bool :=
  s.partitionKey == column || s.clusteringKey == some column

end Schema

end ViewMaintenance
