import ViewMaintenance.Proofs.Engine.Run
import ViewMaintenance.Proofs.View.Promotion

namespace ViewMaintenance

/-- All that decides between two writes of one kind except the content of their values. -/
structure Rank where
  timestamp : Timestamp
  isRemoval : Bool
  neverExpires : Bool
  /-- The greatest time for a write that never expires. -/
  localDeletionTime : Timestamp
  /-- Zero for a write that never expires. -/
  ttl : UInt32
deriving DecidableEq

namespace Rank

/-- The fields decide in the order in which they are declared. -/
instance : Ord Rank where
  compare :=
    compareLex (compareOn timestamp) <|
    compareLex (compareOn isRemoval) <|
    compareLex (compareOn neverExpires) <|
    compareLex (compareOn localDeletionTime) <|
    compareOn ttl

instance : Std.TransOrd Rank := by
  unfold Std.TransOrd compare instOrd
  infer_instance

instance : Std.LawfulEqOrd Rank where
  compare_self := Std.ReflCmp.compare_self
  eq_of_compare {a b} h := by
    change compareLex _ _ a b = .eq at h
    simp only [compareLex_eq_eq, compareOn, Std.LawfulEqCmp.compare_eq_iff_eq] at h
    cases a
    cases b
    simp_all

/-- The rank of a write by its time, whether it removes, and its expiry. -/
def of (timestamp : Timestamp) (isRemoval : Bool) (expiry : Option Expiry) : Rank where
  timestamp := timestamp
  isRemoval := isRemoval
  neverExpires := expiry.isNone
  localDeletionTime := (expiry.map Expiry.localDeletionTime).getD Int64.maxValue
  ttl := (expiry.map Expiry.ttl).getD 0

/-- The defaults are compared with each other only, since whether there is an expiry comes first. -/
theorem compare_expiry (a b : Option Expiry) :
    (compare a.isNone b.isNone).then
      ((compare ((a.map Expiry.localDeletionTime).getD Int64.maxValue)
          ((b.map Expiry.localDeletionTime).getD Int64.maxValue)).then
        (compare ((a.map Expiry.ttl).getD 0) ((b.map Expiry.ttl).getD 0))) =
      (compare a.isNone b.isNone).then
        ((compare (a.map Expiry.localDeletionTime) (b.map Expiry.localDeletionTime)).then
          (compare (a.map Expiry.ttl) (b.map Expiry.ttl))) := by
  cases a <;> cases b <;> simp <;> rfl

theorem compare_of (ta tb : Timestamp) (xa xb : Bool) (ea eb : Option Expiry) :
    compare (of ta xa ea) (of tb xb eb) =
      (compare ta tb).then ((compare xa xb).then ((compare ea.isNone eb.isNone).then
        ((compare (ea.map Expiry.localDeletionTime) (eb.map Expiry.localDeletionTime)).then
          (compare (ea.map Expiry.ttl) (eb.map Expiry.ttl))))) := by
  rw [← compare_expiry]
  rfl

end Rank

namespace Marker

/-- The key by which markers of one row are ordered. -/
def orderKey (m : Marker) : Rank := .of m.timestamp m.isWithdrawn m.expiry

theorem compare_eq_orderKey (a b : Marker) : compare a b = compare a.orderKey b.orderKey := by
  rw [orderKey, orderKey, Rank.compare_of]
  rfl

theorem eq_of_orderKey_eq {a b : Marker} (h : a.orderKey = b.orderKey) : a = b := by
  have hkeys : compare a b = .eq := by
    rw [compare_eq_orderKey, h]
    exact Std.ReflCmp.compare_self
  exact Std.LawfulEqCmp.eq_of_compare hkeys

end Marker

namespace Cell

/-- What of the order key of a cell does not depend on the content of its value. -/
def rank (c : Cell) : Rank := .of c.timestamp c.isTombstone c.expiry

/-- The order key of a cell. -/
structure OrderKey where
  rank : Rank
  /-- Empty for a tombstone. -/
  content : Bytes
deriving DecidableEq

instance : Ord OrderKey where
  compare := compareLex (compareOn OrderKey.rank) (compareOn OrderKey.content)

instance : Std.ReflOrd OrderKey := by
  unfold Std.ReflOrd compare instOrdOrderKey
  infer_instance

/-- The key by which cells of one column are ordered. -/
def orderKey (c : Cell) : OrderKey := ⟨c.rank, c.value.getD []⟩

theorem compare_eq_rank_then (a b : Cell) :
    compare a b = (compare a.rank b.rank).then (compare a.value b.value) := by
  rw [rank, rank, Rank.compare_of]
  simp only [Ordering.then_assoc]
  rfl

theorem compare_value_of_rank_eq {a b : Cell} (h : a.rank = b.rank) :
    compare a.value b.value = compare (a.value.getD []) (b.value.getD []) := by
  have hflag : a.value.isNone = b.value.isNone := congrArg Rank.isRemoval h
  generalize a.value = va at hflag ⊢
  generalize b.value = vb at hflag ⊢
  cases va with
  | none => cases vb with
    | none => rfl
    | some y => cases hflag
  | some x => cases vb with
    | none => cases hflag
    | some y => rfl

theorem compare_eq_orderKey (a b : Cell) : compare a b = compare a.orderKey b.orderKey := by
  change _ = (compare a.rank b.rank).then (compare (a.value.getD []) (b.value.getD []))
  rw [compare_eq_rank_then]
  cases h : compare a.rank b.rank with
  | lt => rfl
  | gt => rfl
  | eq => exact compare_value_of_rank_eq (Std.LawfulEqCmp.eq_of_compare h)

theorem eq_of_orderKey_eq {a b : Cell} (h : a.orderKey = b.orderKey) : a = b := by
  have hkeys : compare a b = .eq := by
    rw [compare_eq_orderKey, h]
    exact Std.ReflCmp.compare_self
  exact Std.LawfulEqCmp.eq_of_compare hkeys

end Cell

section Greatest

/-- The order of the keys. -/
instance : LE Cell where
  le a b := (compare a.orderKey b.orderKey).isLE

instance : Std.LawfulOrderOrd Cell where
  isLE_compare a b := by
    rw [Cell.compare_eq_orderKey]
    rfl
  isGE_compare a b := by
    rw [Std.OrientedCmp.isGE_eq_isLE, Cell.compare_eq_orderKey]
    rfl

/-- The order of the keys. -/
instance : LE Marker where
  le a b := (compare a.orderKey b.orderKey).isLE

instance : Std.LawfulOrderOrd Marker where
  isLE_compare a b := by
    rw [Marker.compare_eq_orderKey]
    rfl
  isGE_compare a b := by
    rw [Std.OrientedCmp.isGE_eq_isLE, Marker.compare_eq_orderKey]
    rfl

/-- Whichever comes first, `pick` keeps the greater of two under a linear order. -/
structure PicksGreatest {α : Type} [LE α] (pick : α → α → α) : Prop where
  linear : Std.IsLinearOrder α
  eq_or : ∀ a b, pick a b = a ∨ pick a b = b
  le_left : ∀ a b, a ≤ pick a b
  le_right : ∀ a b, b ≤ pick a b
  comm : ∀ a b, pick a b = pick b a

variable {α : Type} [Ord α] [LE α] [Std.LawfulOrderOrd α] [Std.TransOrd α] [Std.LawfulEqOrd α]

theorem le_latest (a b : α) : a ≤ latest a b := by
  rw [← Std.LawfulOrderOrd.isLE_compare, ← latest_eq_right_iff, ← latest_assoc, latest_self]

theorem picksGreatest_latest : PicksGreatest (latest (α := α)) where
  linear := .of_ord
  eq_or := latest_eq_or
  le_left := le_latest
  le_right a b := by
    rw [latest_comm]
    exact le_latest b a
  comm := latest_comm

end Greatest

/-- A cell whose value is left out, and the marker that a view derives from a cell, are reconciled
    in the view as the cells are in the base table. Keys tell any two cells and any two markers
    apart, and of two the one with the greater key stays. -/
theorem projections_reconcile :
    (∀ a b : Cell, (a.reconcile b).toVirtual = a.toVirtual.reconcile b.toVirtual) ∧
    (∀ (v : View) (p : String) (r : Row) (c : Cell), v.promoted = some p → r.cell? p = some c →
      c.isTombstone = false → v.marker? r = some c.marker) ∧
    (∀ a b : Cell, a.isTombstone = false → b.isTombstone = false →
      (a.reconcile b).isTombstone = false ∧
        (a.reconcile b).marker = a.marker.reconcile b.marker) ∧
    (∀ a b : Cell, a.orderKey = b.orderKey → a = b) ∧
    (∀ a b : Marker, a.orderKey = b.orderKey → a = b) ∧
    PicksGreatest Cell.reconcile ∧ PicksGreatest Marker.reconcile := by
  refine ⟨?virtual, ?derived, ?marker, ?cells, ?markers, picksGreatest_latest,
    picksGreatest_latest⟩
  case virtual => exact fun _ _ => latest_map_of_isLE Cell.isLE_toVirtual Cell.isLE_toVirtual
  case derived =>
    intro v p r c hp hc hvalue
    exact (View.marker?_eq_some_iff hp).mpr ⟨c, hc, hvalue, rfl⟩
  case marker =>
    intro a b ha hb
    refine ⟨?_, latest_map_of_isLE (Cell.isLE_marker · ha hb) (Cell.isLE_marker · hb ha)⟩
    rcases latest_eq_or a b with h | h <;> rw [Cell.reconcile, h] <;> assumption
  case cells => exact fun _ _ => Cell.eq_of_orderKey_eq
  case markers => exact fun _ _ => Marker.eq_of_orderKey_eq

section Orders

/-- A status that is gone by 100. -/
def shorterStatus : Cell := ⟨5, some [7], some ⟨60, 100⟩⟩

/-- A status of the same time that is gone at the same time and was to live longer. -/
def longerStatus : Cell := ⟨5, some [2], some ⟨90, 100⟩⟩

/-- The time to live decides between the two statuses, between what a view keeps of them and
    between their markers, though the value of the loser is the greater one. -/
theorem projections_reconcile_of_tie :
    shorterStatus.reconcile longerStatus = longerStatus ∧
    shorterStatus.toVirtual.reconcile longerStatus.toVirtual = longerStatus.toVirtual ∧
    shorterStatus.marker.reconcile longerStatus.marker = longerStatus.marker ∧
    Engine.ordersByStatus.marker? ((Row.empty Engine.order).withCell "status" longerStatus) =
      some longerStatus.marker := by
  obtain ⟨hvirtual, hderived, hmarker, hcells, hmarkers, _⟩ := projections_reconcile
  have hlonger : shorterStatus.reconcile longerStatus = longerStatus := hcells _ _ (by decide)
  refine ⟨hlonger, ?_, ?_, hderived _ "status" _ longerStatus rfl rfl rfl⟩
  · rw [← hvirtual, hlonger]
  · rw [← (hmarker shorterStatus longerStatus rfl rfl).2]
    exact hmarkers _ _ (by decide)

end Orders

end ViewMaintenance
