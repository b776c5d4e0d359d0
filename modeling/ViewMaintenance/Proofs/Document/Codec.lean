import ViewMaintenance.Document.Codec
import ViewMaintenance.SortedMap.Lemmas

namespace ViewMaintenance

namespace Codec

/-- Every value of the type is read back from its document. -/
class Faithful (α : Type) [Codec α] : Prop where
  decode_encode : ∀ a : α, decode (encode a) = .ok a

/-- No value of the type has the document of an absent part. A part that may be absent is written as
    `null` if it is, and that it can be told from one that is given rests on this. -/
class NeverNull (α : Type) [Codec α] : Prop where
  encode_ne_null : ∀ a : α, encode a ≠ .null

export Faithful (decode_encode)
export NeverNull (encode_ne_null)

instance : Faithful Bool := ⟨fun _ => rfl⟩

instance : Faithful String := ⟨fun _ => rfl⟩

instance : NeverNull String := ⟨fun _ => nofun⟩

theorem integerIn_integer {least greatest n : Int} (expected : String) (hleast : least ≤ n)
    (hgreatest : n ≤ greatest) : integerIn least greatest expected (.integer n) = .ok n :=
  if_pos ⟨hleast, hgreatest⟩

theorem integerIn_of_lt {n size : Nat} (expected : String) (h : n < size) :
    integerIn 0 (size - 1) expected (.integer n) = .ok n :=
  integerIn_integer expected (by omega) (by omega)

instance : Faithful UInt8 where
  decode_encode n := by
    have hlt : n.toNat < UInt8.size := n.toNat_lt
    change (integerIn 0 (UInt8.size - 1) "u8" (.integer n.toNat)).map _ = _
    rw [integerIn_of_lt _ hlt]
    simp [Except.map]

instance : Faithful UInt32 where
  decode_encode n := by
    have hlt : n.toNat < UInt32.size := n.toNat_lt
    change (integerIn 0 (UInt32.size - 1) "u32" (.integer n.toNat)).map _ = _
    rw [integerIn_of_lt _ hlt]
    simp [Except.map]

instance : Faithful UInt64 where
  decode_encode n := by
    have hlt : n.toNat < UInt64.size := n.toNat_lt
    change (integerIn 0 (UInt64.size - 1) "usize" (.integer n.toNat)).map _ = _
    rw [integerIn_of_lt _ hlt]
    simp [Except.map]

instance : Faithful Int64 where
  decode_encode n := by
    change (integerIn Int64.minValue.toInt Int64.maxValue.toInt "i64" (.integer n.toInt)).map _ = _
    rw [integerIn_integer _ (Int64.minValue_le_toInt n) n.toInt_le]
    simp [Except.map]

variable {α : Type} [Codec α]

theorem decode_option_of_ne_null {d : Document} (h : d ≠ .null) :
    (decode d : Except DecodeError (Option α)) = (decode d).map some := by
  cases d with
  | null => exact absurd rfl h
  | _ => rfl

instance [Faithful α] [NeverNull α] : Faithful (Option α) where
  decode_encode
    | none => rfl
    | some a => by
      change decode (encode a) = _
      rw [decode_option_of_ne_null (encode_ne_null a), decode_encode]
      rfl

/-- Reading item by item gives back the items if each of them is given back. -/
theorem mapM_map_of_inverse {ε β γ : Type} {write : β → γ} {read : γ → Except ε β}
    (h : ∀ b, read (write b) = .ok b) (items : List β) : (items.map write).mapM read = .ok items := by
  induction items with
  | nil => rfl
  | cons b items ih =>
    rw [List.map_cons, List.mapM_cons, h, ih]
    rfl

instance [Faithful α] : Faithful (List α) where
  decode_encode items := mapM_map_of_inverse decode_encode items

instance : NeverNull (List α) := ⟨fun _ => nofun⟩

instance [Faithful α] : Faithful (SortedMap String α) where
  decode_encode m := by
    simp only [encode, decode]
    rw [mapM_map_of_inverse]
    · exact congrArg Except.ok m.ofList_entries
    · intro e
      rw [decode_encode]
      rfl

instance : Faithful (SortedSet String) where
  decode_encode s := by
    change (decode (encode s.toList)).map SortedSet.ofList = .ok s
    rw [decode_encode]
    exact congrArg Except.ok s.ofList_keys

end Codec

end ViewMaintenance
