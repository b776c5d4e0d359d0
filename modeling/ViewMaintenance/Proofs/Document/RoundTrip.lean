import ViewMaintenance.Document.Data
import ViewMaintenance.Proofs.Document.Record

namespace ViewMaintenance

section Data

open Codec

instance : Faithful Expiry :=
  Expiry.record.faithful_codec (by decide) Record.faithful_make.field.field fun _ => rfl

instance : NeverNull Expiry := ⟨fun _ => nofun⟩

instance : Faithful Cell :=
  Cell.record.faithful_codec (by decide) Record.faithful_make.field.field.field fun _ => rfl

instance : Faithful Marker where
  decode_encode
    | .live timestamp expiry => Record.readFields_fields (r := Marker.liveParts) (by decide)
      Record.faithful_make.field.field (timestamp, expiry)
    | .withdrawn timestamp => Record.readFields_fields (r := Marker.withdrawnParts) (by decide)
      Record.faithful_make.field timestamp

instance : NeverNull Marker where
  encode_ne_null
    | .live _ _ => nofun
    | .withdrawn _ => nofun

instance : Faithful Deletion :=
  Deletion.record.faithful_codec (by decide) Record.faithful_make.field fun _ => rfl

instance : NeverNull Deletion := ⟨fun _ => nofun⟩

instance : Faithful RowKey :=
  RowKey.record.faithful_codec (by decide) Record.faithful_make.field.field fun _ => rfl

instance : Faithful Row :=
  Row.record.faithful_codec (by decide) Record.faithful_make.field.field.field.field fun _ => rfl

instance : Faithful Schema :=
  Schema.record.faithful_codec (by decide) Record.faithful_make.field.field.field.field fun _ => rfl

instance : Faithful EngineConfig :=
  EngineConfig.record.faithful_codec (by decide) Record.faithful_make.fieldD.fieldD fun _ => rfl

instance : Faithful ViewKey :=
  ViewKey.record.faithful_codec (by decide) Record.faithful_make.field.field fun _ => rfl

instance : Faithful DeletionKind where
  decode_encode
    | .regular => rfl
    | .shadowable => rfl

instance : Faithful Intent where
  decode_encode
    | .upsert row marker deletion cells => Record.readFields_fields (r := Intent.upsertParts)
      (by decide) Record.faithful_make.field.field.field.field (row, marker, deletion, cells)
    | .deleteColumns row columns => Record.readFields_fields (r := Intent.deleteColumnsParts)
      (by decide) Record.faithful_make.field.field (row, columns)
    | .deleteRow row timestamp kind => Record.readFields_fields (r := Intent.deleteRowParts)
      (by decide) Record.faithful_make.field.field.field (row, timestamp, kind)

instance : Faithful ViewUpdate :=
  ViewUpdate.record.faithful_codec (by decide) Record.faithful_make.field.field fun _ => rfl

end Data

/-- Every value of the type is read back from its document, and whatever document a value was read
    from, the document that it is written as is read as this value. -/
structure Codec.RoundTrips (α : Type) [Codec α] : Prop where
  decode_encode : ∀ a : α, decode (encode a) = .ok a
  decode_encode_of_decode : ∀ (d : Document) (a : α), decode d = .ok a → decode (encode a) = .ok a

theorem Codec.roundTrips (α : Type) [Codec α] [Faithful α] : RoundTrips α where
  decode_encode := Faithful.decode_encode
  decode_encode_of_decode _ a _ := Faithful.decode_encode a

/-- View updates, rows, schemas and settings survive being written and read. -/
theorem data_roundTrips :
    Codec.RoundTrips ViewUpdate ∧ Codec.RoundTrips Row ∧ Codec.RoundTrips Schema ∧
      Codec.RoundTrips EngineConfig :=
  ⟨Codec.roundTrips _, Codec.roundTrips _, Codec.roundTrips _, Codec.roundTrips _⟩

section Accounts

/-- The deletion of the owner of an account. Its fields come in another order than they are written
    in, one of them is not asked for, most that may be absent is left out, and the row and its
    marker are lists of their parts. -/
def sparseUpdate : Document :=
  .object [
    ("intents", .list [.object [("Upsert", .object [
      ("cells", .object [
        ("owner", .object [("timestamp", .integer (-5)), ("origin", .text "import")])]),
      ("liveness", .object [("Live", .list [.integer 7, .null])]),
      ("row", .list [.list [.list [.integer 255], .list []], .null])])]]),
    ("view", .text "accounts")]

/-- What the update says. -/
def ownerDeletion : ViewUpdate :=
  ⟨"accounts", [.upsert ⟨⟨[255], []⟩, none⟩ (some (.live 7 none)) none
    (SortedMap.ofList [("owner", .tombstone (-5))])]⟩

/-- The sparse update and settings that name one value are read, and what they are read as is
    written in full and read again. -/
theorem data_roundTrips_of_sparse :
    decode sparseUpdate = .ok ownerDeletion ∧
    decode (encode ownerDeletion) = .ok ownerDeletion ∧
    decode (.list [.integer 10]) = .ok ({ rangeScanWarnThreshold := 10 } : EngineConfig) ∧
    decode (encode ({ rangeScanWarnThreshold := 10 } : EngineConfig)) =
      .ok ({ rangeScanWarnThreshold := 10 } : EngineConfig) := by
  obtain ⟨hupdate, _, _, hconfig⟩ := data_roundTrips
  exact ⟨rfl, hupdate.decode_encode_of_decode sparseUpdate ownerDeletion rfl, rfl,
    hconfig.decode_encode_of_decode (.list [.integer 10]) { rangeScanWarnThreshold := 10 } rfl⟩

end Accounts

end ViewMaintenance
