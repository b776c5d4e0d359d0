import ViewMaintenance.Text.Utf8

namespace ViewMaintenance

/-- A key or a column value. Byte strings are ordered lexicographically, a part before the whole. -/
abbrev Bytes := List UInt8

/-- A point in time, as a signed 64-bit number: the time of a write, chosen by its writer, or the
    reference time at which expiries are evaluated. -/
abbrev Timestamp := Int64

/-- The text of a byte string read as UTF-8, each ill-formed part shown as one `U+FFFD`. -/
def Bytes.toText (bytes : Bytes) : String := String.ofList (Text.decodeUtf8 bytes)

end ViewMaintenance
