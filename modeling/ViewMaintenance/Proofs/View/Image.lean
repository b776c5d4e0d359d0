import ViewMaintenance.Proofs.Row.Join
import ViewMaintenance.View.Image

namespace ViewMaintenance

open Write

namespace Cell

theorem isLE_iff {a b : Cell} : (compare a b).isLE ↔
    compare a.timestamp b.timestamp = .lt ∨ a.timestamp = b.timestamp ∧
      (compare a.isTombstone b.isTombstone = .lt ∨ a.isTombstone = b.isTombstone ∧
        (compare a.expiry.isNone b.expiry.isNone = .lt ∨ a.expiry.isNone = b.expiry.isNone ∧
          (compare (a.expiry.map Expiry.localDeletionTime) (b.expiry.map Expiry.localDeletionTime) = .lt ∨
            a.expiry.map Expiry.localDeletionTime = b.expiry.map Expiry.localDeletionTime ∧
            (compare (a.expiry.map Expiry.ttl) (b.expiry.map Expiry.ttl) = .lt ∨
              a.expiry.map Expiry.ttl = b.expiry.map Expiry.ttl ∧
              (compare a.value b.value).isLE)))) := by
  change (compareLex _ _ a b).isLE ↔ _
  simp only [compareLex, Ordering.isLE_then_iff_or, compareOn, Std.LawfulEqCmp.compare_eq_iff_eq]

theorem not_isLE_of_isTombstone {a b : Cell} (ha : a.isTombstone = true)
    (hb : b.isTombstone = false) (htime : a.timestamp = b.timestamp) : ¬ (compare a b).isLE := by
  intro h
  rcases isLE_iff.mp h with hlt | ⟨_, hflag | ⟨hflag, _⟩⟩
  · simp [htime, Std.ReflCmp.compare_self] at hlt
  · rw [ha, hb] at hflag
    cases hflag
  · rw [ha, hb] at hflag
    cases hflag

/-- Leaving out values keeps the order, since the value is asked last. -/
theorem isLE_toVirtual {a b : Cell} (h : (compare a b).isLE) :
    (compare a.toVirtual b.toVirtual).isLE := by
  have hflag (c : Cell) : c.toVirtual.isTombstone = c.isTombstone := Option.isNone_map
  rw [isLE_iff] at h ⊢
  rw [hflag, hflag]
  refine h.imp_right fun ⟨htime, h⟩ => ⟨htime, h.imp_right fun ⟨htomb, h⟩ => ⟨htomb, ?_⟩⟩
  refine h.imp_right fun ⟨hnone, h⟩ => ⟨hnone, h.imp_right fun ⟨hdeath, h⟩ => ⟨hdeath, ?_⟩⟩
  refine h.imp_right fun ⟨httl, _⟩ => ⟨httl, ?_⟩
  have hvalue : a.toVirtual.value = b.toVirtual.value := by
    have hnone : a.value.isNone = b.value.isNone := htomb
    cases ha : a.value <;> cases hb : b.value <;> simp_all [toVirtual]
  rw [hvalue]
  exact Std.ReflCmp.isLE_rfl

end Cell

namespace View

/-- What a cell of a tracked column is in the view. -/
def seen (v : View) (column : String) (cell : Cell) : Cell :=
  if cell.isTombstone then .tombstone cell.timestamp
  else if v.isVirtual column then cell.toVirtual
  else cell

theorem cellImage?_eq (v : View) (column : String) (cell : Cell) :
    v.cellImage? column cell = if v.tracks column then some (v.seen column cell) else none := by
  unfold cellImage? seen
  cases v.tracks column <;> cases cell.isTombstone <;> cases v.isVirtual column <;> rfl

@[simp]
theorem timestamp_seen (v : View) (column : String) (cell : Cell) :
    (v.seen column cell).timestamp = cell.timestamp := by
  unfold seen
  split
  · rfl
  · split <;> rfl

@[simp]
theorem isTombstone_seen (v : View) (column : String) (cell : Cell) :
    (v.seen column cell).isTombstone = cell.isTombstone := by
  unfold seen
  split
  next h => rw [h]; rfl
  next h =>
    split
    · simp [Cell.isTombstone, Cell.toVirtual]
    · rfl

theorem isLive_seen (v : View) (column : String) (cell : Cell) (now : Timestamp) :
    (v.seen column cell).isLive now = cell.isLive now := by
  unfold seen
  split
  next h =>
    rw [Cell.isLive, Cell.isLive, h]
    rfl
  next h =>
    split
    · simp [Cell.isLive, Cell.toVirtual, Cell.isTombstone]
    · rfl

theorem isLE_seen (v : View) (column : String) {a b : Cell} (h : (compare a b).isLE) :
    (compare (v.seen column a) (v.seen column b)).isLE := by
  have htime : a.timestamp ≤ b.timestamp := time_le_of_isLE (α := Cell) h
  cases hb : b.isTombstone with
  | true =>
    have hseen : v.seen column b = .tombstone b.timestamp := by simp [seen, hb]
    have ha : (v.seen column a).timestamp ≤ b.timestamp := by simpa using htime
    rw [hseen]
    exact isLE_removal (α := Cell) ha
  | false =>
    cases ha : a.isTombstone with
    | true =>
      -- A tombstone loses only to a value that is later.
      refine isLE_compareLex_timestamp (by simpa using htime) fun heq => ?_
      rw [timestamp_seen, timestamp_seen] at heq
      exact absurd h (Cell.not_isLE_of_isTombstone ha hb heq)
    | false =>
      simp only [seen, ha, hb, Bool.false_eq_true, if_false]
      split
      · exact Cell.isLE_toVirtual h
      · exact h

theorem seen_latest (v : View) (column : String) (a b : Cell) :
    v.seen column (latest a b) = latest (v.seen column a) (v.seen column b) :=
  latest_map_of_isLE (v.isLE_seen column) (v.isLE_seen column)

/-- A cell of a column that reads return shows its value in the view too. -/
theorem liveValue?_seen {v : View} {column : String} (hselected : v.isSelected column = true)
    (cell : Cell) (now : Timestamp) :
    (v.seen column cell).liveValue? now = cell.liveValue? now := by
  have hvirtual : v.isVirtual column = false := by simp [isVirtual, hselected]
  unfold Cell.liveValue?
  rw [isLive_seen]
  cases htomb : cell.isTombstone with
  | true => simp [Cell.isLive, htomb]
  | false => simp [seen, htomb, hvirtual]

section Image

variable (v : View)

@[simp]
theorem key_image (r : Row) : (v.image r).key = r.key := rfl

@[simp]
theorem deletion_image (r : Row) : (v.image r).deletion = r.deletion := rfl

theorem marker_image (r : Row) :
    (v.image r).marker = if v.isStrict then none else r.marker := rfl

theorem cell?_image (r : Row) (c : String) :
    (v.image r).cell? c = if v.tracks c then (r.cell? c).map (v.seen c) else none := by
  have hget : (v.image r).cell? c = (r.cell? c).bind (v.cellImage? c) :=
    SortedMap.get?_filterMap _ _ _
  rw [hget]
  cases htracks : v.tracks c <;> cases r.cell? c <;> simp [cellImage?_eq, htracks]

theorem image_overlay (a b : Row) : v.image (a.overlay b) = (v.image a).overlay (v.image b) := by
  refine Row.ext_cell? rfl ?_ rfl fun c => ?_
  · change (if v.isStrict then none else latest? a.marker b.marker) =
      latest? (if v.isStrict then none else a.marker) (if v.isStrict then none else b.marker)
    cases v.isStrict <;> rfl
  · rw [Row.cell?_overlay, cell?_image, cell?_image, cell?_image, Row.cell?_overlay]
    cases v.tracks c with
    | true => exact (latest?_map (v.seen_latest c) _ _).symm
    | false => rfl

theorem image_purge (r : Row) : v.image r.purge = (v.image r).purge := by
  refine Row.ext_cell? rfl ?_ rfl fun c => ?_
  · rw [marker_image, Row.marker_purge_eq, Row.marker_purge_eq, marker_image]
    cases v.isStrict <;> rfl
  · rw [cell?_image, Row.cell?_purge_eq, Row.cell?_purge_eq, cell?_image]
    cases v.tracks c with
    | true => exact (surviving_map (v.timestamp_seen c) _ _).symm
    | false => rfl

/-- The image of merged rows is the merge of their images. -/
theorem image_join (a b : Row) : v.image (a.join b) = (v.image a).join (v.image b) := by
  rw [Row.join_eq_purge, image_purge, image_overlay, ← Row.join_eq_purge]

theorem image_shadow (r : Row) (d : Option Deletion) :
    v.image (r.shadow d) = (v.image r).shadow d := image_purge v _

theorem canonical_image {r : Row} (h : r.Canonical) : (v.image r).Canonical := by
  rw [Row.Canonical, ← image_purge, h]

end Image

end View

end ViewMaintenance
