import ViewMaintenance.Document.Record
import ViewMaintenance.Engine.Basic

namespace ViewMaintenance

open Record (make)

/-- The parts of an expiry. -/
def Expiry.record : Record Expiry Expiry :=
  make Expiry.mk |>.field "ttl" (·.ttl) |>.field "local_deletion_time" (·.localDeletionTime)

instance : Codec Expiry := Expiry.record.codec "struct Expiry"

/-- The parts of a cell. -/
def Cell.record : Record Cell Cell :=
  make Cell.mk |>.field "timestamp" (·.timestamp) |>.field "value" (·.value)
    |>.field "expiry" (·.expiry)

instance : Codec Cell := Cell.record.codec "struct Cell"

namespace Marker

/-- What belongs to a live marker. -/
def liveParts : Record (Timestamp × Option Expiry) Marker :=
  make live |>.field "timestamp" (·.1) |>.field "expiry" (·.2)

/-- What belongs to a withdrawn marker. -/
def withdrawnParts : Record Timestamp Marker := make withdrawn |>.field "timestamp" id

instance : Codec Marker where
  encode
    | live timestamp expiry => .object [("Live", liveParts.write (timestamp, expiry))]
    | withdrawn timestamp => .object [("Withdrawn", withdrawnParts.write timestamp)]
  decode d := do
    match ← d.kind with
    | ("Live", d) => liveParts.decodeKind "struct variant LivenessInfo::Live" d
    | ("Withdrawn", d) => withdrawnParts.decodeKind "struct variant LivenessInfo::Withdrawn" d
    | (kind, _) => throw (.unknownKind kind ["Live", "Withdrawn"])

end Marker

/-- The one part of a deletion. -/
def Deletion.record : Record Deletion Deletion := make Deletion.mk |>.field "marked_at" (·.markedAt)

instance : Codec Deletion := Deletion.record.codec "struct Deletion"

/-- The parts of a row key. -/
def RowKey.record : Record RowKey RowKey :=
  make RowKey.mk |>.field "partition" (·.partition) |>.field "clustering" (·.clustering)

instance : Codec RowKey := RowKey.record.codec "struct BaseKey"

/-- The parts of a row. -/
def Row.record : Record Row Row :=
  make Row.mk |>.field "key" (·.key) |>.field "liveness" (·.marker) |>.field "deletion" (·.deletion)
    |>.field "cells" (·.cells)

instance : Codec Row := Row.record.codec "struct BaseRow"

/-- The parts of a schema. -/
def Schema.record : Record Schema Schema :=
  make Schema.mk |>.field "table" (·.table) |>.field "partition_key" (·.partitionKey)
    |>.field "clustering_key" (·.clusteringKey) |>.field "regular" (·.regular)

instance : Codec Schema := Schema.record.codec "struct BaseSchema"

/-- The settings of an engine. Those that are not given are as in the settings by default. -/
def EngineConfig.record : Record EngineConfig EngineConfig :=
  make EngineConfig.mk
    |>.fieldD "range_scan_warn_threshold" (·.rangeScanWarnThreshold) {}
    |>.fieldD "prune_idle_partitions" (·.pruneIdlePartitions) {}

instance : Codec EngineConfig := EngineConfig.record.codec "struct EngineConfig"

/-- The parts of a view key. -/
def ViewKey.record : Record ViewKey ViewKey :=
  make ViewKey.mk |>.field "base" (·.base) |>.field "promoted" (·.promoted)

instance : Codec ViewKey := ViewKey.record.codec "struct ViewRowIdentity"

instance : Codec DeletionKind where
  encode
    | .regular => .text "Regular"
    | .shadowable => .text "Shadowable"
  decode d := do
    match ← d.kind with
    | ("Regular", d) => decodeBareKind .regular d
    | ("Shadowable", d) => decodeBareKind .shadowable d
    | (kind, _) => throw (.unknownKind kind ["Regular", "Shadowable"])

namespace Intent

/-- What belongs to the writing of a row. -/
def upsertParts :
    Record (ViewKey × Option Marker × Option Deletion × SortedMap String Cell) Intent :=
  make upsert |>.field "row" (·.1) |>.field "liveness" (·.2.1) |>.field "deletion" (·.2.2.1)
    |>.field "cells" (·.2.2.2)

/-- What belongs to the deletion of columns. -/
def deleteColumnsParts : Record (ViewKey × SortedMap String Timestamp) Intent :=
  make deleteColumns |>.field "row" (·.1) |>.field "columns" (·.2)

/-- What belongs to the deletion of a row. -/
def deleteRowParts : Record (ViewKey × Timestamp × DeletionKind) Intent :=
  make deleteRow |>.field "row" (·.1) |>.field "timestamp" (·.2.1) |>.field "kind" (·.2.2)

instance : Codec Intent where
  encode
    | upsert row marker deletion cells =>
      .object [("Upsert", upsertParts.write (row, marker, deletion, cells))]
    | deleteColumns row columns =>
      .object [("DeleteColumns", deleteColumnsParts.write (row, columns))]
    | deleteRow row timestamp kind =>
      .object [("DeleteRow", deleteRowParts.write (row, timestamp, kind))]
  decode d := do
    match ← d.kind with
    | ("Upsert", d) => upsertParts.decodeKind "struct variant MutationIntent::Upsert" d
    | ("DeleteColumns", d) =>
      deleteColumnsParts.decodeKind "struct variant MutationIntent::DeleteColumns" d
    | ("DeleteRow", d) => deleteRowParts.decodeKind "struct variant MutationIntent::DeleteRow" d
    | (kind, _) => throw (.unknownKind kind ["Upsert", "DeleteColumns", "DeleteRow"])

end Intent

/-- The parts of a view update. -/
def ViewUpdate.record : Record ViewUpdate ViewUpdate :=
  make ViewUpdate.mk |>.field "view" (·.view) |>.field "intents" (·.intents)

instance : Codec ViewUpdate := ViewUpdate.record.codec "struct ViewUpdate"

end ViewMaintenance
