import ViewMaintenance.Proofs.Delta
import ViewMaintenance.Proofs.Row.Agreement
import ViewMaintenance.Proofs.Store.ViewTable
import ViewMaintenance.Proofs.View.Image
import ViewMaintenance.View.Changes

namespace ViewMaintenance

open Write

namespace Changes

/-- The changes as one fragment. -/
def fragment (c : Changes) (key : RowKey) : Row := ⟨key, c.marker, c.deletion, c.cells⟩

@[simp]
theorem cell?_fragment (c : Changes) (key : RowKey) (column : String) :
    (c.fragment key).cell? column = c.cells.get? column := rfl

/-- Every cell that deletes its column is a plain tombstone. -/
def Plain (c : Changes) : Prop :=
  ∀ column cell, c.cells.get? column = some cell → cell.isTombstone = true →
    cell = .tombstone cell.timestamp

/-- The cells that are values. -/
def values (c : Changes) : SortedMap String Cell := c.cells.filter fun _ cell => !cell.isTombstone

/-- The times of the cells that are tombstones. -/
def deletedColumns (c : Changes) : SortedMap String Timestamp :=
  c.cells.filterMap fun _ cell => if cell.isTombstone then some cell.timestamp else none

theorem intents_eq (c : Changes) (id : ViewKey) :
    c.intents id =
      (if c.marker.isSome || c.deletion.isSome || !c.values.isEmpty then
        [Intent.upsert id c.marker c.deletion c.values] else []) ++
      if c.deletedColumns.isEmpty then [] else [.deleteColumns id c.deletedColumns] := rfl

theorem get?_values (c : Changes) (column : String) :
    c.values.get? column = (c.cells.get? column).filter fun cell => !cell.isTombstone :=
  SortedMap.get?_filter _ _ _

theorem get?_deletedColumns (c : Changes) (column : String) :
    c.deletedColumns.get? column = (c.cells.get? column).bind fun cell =>
      if cell.isTombstone then some cell.timestamp else none := SortedMap.get?_filterMap _ _ _

/-- Values and tombstones together are all cells. -/
theorem overlay_eq_fragment {c : Changes} (hplain : c.Plain) (id : ViewKey) :
    (Intent.upsert id c.marker c.deletion c.values).fragment.overlay
      (Intent.deleteColumns id c.deletedColumns).fragment = c.fragment id.base := by
  refine Row.ext_cell? rfl (latest?_none_right _) (latest?_none_right _) fun column => ?_
  have hvalues : (Intent.upsert id c.marker c.deletion c.values).fragment.cell? column =
      (c.cells.get? column).filter fun cell => !cell.isTombstone := c.get?_values column
  have hdeleted : (Intent.deleteColumns id c.deletedColumns).fragment.cell? column =
      (c.deletedColumns.get? column).map Cell.tombstone := SortedMap.get?_map _ _ _
  rw [Row.cell?_overlay, hvalues, hdeleted, get?_deletedColumns, cell?_fragment]
  cases hcell : c.cells.get? column with
  | none => rfl
  | some cell =>
    cases htomb : cell.isTombstone with
    | true =>
      have hcell' : Cell.tombstone cell.timestamp = cell := (hplain column cell hcell htomb).symm
      simp [Option.filter, htomb, hcell']
    | false => simp [Option.filter, htomb]

/-- The intents for changes write them to the view row, as one fragment. -/
theorem written_intents {c : Changes} (hplain : c.Plain) {id : ViewKey} {stored : Row}
    (hstored : stored.Canonical) :
    Intent.written (c.intents id) id stored = stored.join (c.fragment id.base) := by
  have hupsert : Intent.written
      (if c.marker.isSome || c.deletion.isSome || !c.values.isEmpty then
        [Intent.upsert id c.marker c.deletion c.values] else []) id stored =
          stored.join (Intent.upsert id c.marker c.deletion c.values).fragment := by
    split
    · exact Intent.written_singleton rfl _
    next hnone =>
      obtain ⟨⟨hmarker, hdeletion⟩, hvalues⟩ :
          (c.marker = none ∧ c.deletion = none) ∧ c.values.isEmpty = true := by
        simpa using hnone
      rw [Intent.fragment, hmarker, hdeletion, SortedMap.isEmpty_iff.mp hvalues,
        Intent.written_nil]
      exact (hstored.join_empty id.base).symm
  have hdelete (row : Row) (hrow : row.Canonical) : Intent.written
      (if c.deletedColumns.isEmpty then [] else [.deleteColumns id c.deletedColumns]) id row =
          row.join (Intent.deleteColumns id c.deletedColumns).fragment := by
    split
    next hnone =>
      have hempty : (Intent.deleteColumns id c.deletedColumns).fragment = .empty id.base := by
        rw [Intent.fragment, SortedMap.isEmpty_iff.mp hnone]
        rfl
      rw [hempty, hrow.join_empty, Intent.written_nil]
    · exact Intent.written_singleton rfl _
  rw [intents_eq, Intent.written_append, hupsert, hdelete _ (Row.canonical_join _ _), Row.join_join,
    overlay_eq_fragment hplain]

theorem mem_intents_iff {c : Changes} {id : ViewKey} {i : Intent} : i ∈ c.intents id ↔
    i = .upsert id c.marker c.deletion c.values ∧
        (c.marker.isSome ∨ c.deletion.isSome ∨ c.values ≠ ∅) ∨
      i = .deleteColumns id c.deletedColumns ∧ c.deletedColumns ≠ ∅ := by
  have hupsert : (c.marker.isSome || c.deletion.isSome || !c.values.isEmpty) = true ↔
      c.marker.isSome ∨ c.deletion.isSome ∨ c.values ≠ ∅ := by
    rw [Bool.or_eq_true, Bool.or_eq_true, Bool.not_eq_true', ← Bool.not_eq_true,
      SortedMap.isEmpty_iff, or_assoc]
  rw [intents_eq, List.mem_append, ← hupsert, ne_eq, ← SortedMap.isEmpty_iff]
  refine or_congr ?_ ?_ <;> split <;> simp [*]

theorem row_of_mem_intents {c : Changes} {id : ViewKey} {i : Intent} (h : i ∈ c.intents id) :
    i.row = id := by
  rcases mem_intents_iff.mp h with ⟨rfl, _⟩ | ⟨rfl, _⟩ <;> rfl

end Changes

namespace View

variable (v : View)

/-- What of a stored view row has to agree with the image of the base row. The marker of a strict
    view row has a life of its own. -/
def unmarked (stored : Row) : Row :=
  { stored with marker := if v.isStrict then none else stored.marker }

@[simp]
theorem key_unmarked (stored : Row) : (v.unmarked stored).key = stored.key := rfl

@[simp]
theorem cell?_unmarked (stored : Row) (c : String) :
    (v.unmarked stored).cell? c = stored.cell? c := rfl

theorem unmarked_join (a b : Row) : v.unmarked (a.join b) = (v.unmarked a).join (v.unmarked b) := by
  refine Row.ext_cell? rfl ?_ rfl fun c => ?_
  · unfold unmarked
    cases v.isStrict <;> rfl
  · rw [cell?_unmarked, Row.cell?_join_eq, Row.cell?_join_eq]
    rfl

/-- What a strict view tracks of a marker never changes. -/
theorem emission_marker_of_isStrict (hstrict : v.isStrict = true) {now : Timestamp}
    {deletion along : Option Deletion} (before after f : Row) :
    Emission now deletion along (v.image before).marker (v.image after).marker
      (v.unmarked f).marker := by
  have hmarker : (v.unmarked f).marker = none := by simp [unmarked, hstrict]
  have himage (r : Row) : (v.image r).marker = none := by simp [marker_image, hstrict]
  rw [hmarker, himage, himage]
  exact .kept rfl

theorem marker_eq_of_not_isStrict (hstrict : v.isStrict = false) (r : Row) :
    (v.image r).marker = r.marker ∧ (v.unmarked r).marker = r.marker ∧ v.marker? r = r.marker := by
  have hpromoted : v.promoted = none := by simpa [isStrict] using hstrict
  simp [marker_image, unmarked, marker?, hstrict, hpromoted]

theorem plain_of_image {v : View} {c : Changes}
    (hcells : ∀ column cell, c.cells.get? column = some cell →
      (∃ x, cell = v.seen column x) ∨ ∃ time, cell = .tombstone time) : c.Plain := by
  intro column cell hcell htomb
  rcases hcells column cell hcell with ⟨x, rfl⟩ | ⟨time, rfl⟩
  · rw [isTombstone_seen] at htomb
    have hseen : v.seen column x = .tombstone x.timestamp := if_pos htomb
    rw [hseen]
    rfl
  · rfl

theorem get?_fullImage (r : Row) (column : String) :
    (v.fullImage r).cells.get? column = (v.image r).cell? column := rfl

theorem plain_fullImage (r : Row) : (v.fullImage r).Plain := by
  refine plain_of_image (v := v) fun column cell hcell => .inl ?_
  rw [get?_fullImage, cell?_image] at hcell
  split at hcell
  · obtain ⟨x, _, rfl⟩ := Option.map_eq_some_iff.mp hcell
    exact ⟨x, rfl⟩
  · cases hcell

/-- A full image writes a place of the base row, or its deletion covers what the place held. -/
theorem emission_of_eq {α : Type} [Ord α] [Write α] (now : Timestamp) (deletion : Option Deletion)
    (before after : Option α) : Emission now deletion deletion before after after := by
  cases after with
  | none => exact .covered rfl rfl
  | some x => exact .written rfl

theorem marker_unmarked_fullImage (r : Row) (key : RowKey) :
    (v.unmarked ((v.fullImage r).fragment key)).marker = (v.image r).marker := by
  cases hstrict : v.isStrict with
  | true => simp [unmarked, marker_image, hstrict]
  | false =>
    have hsame := v.marker_eq_of_not_isStrict hstrict
    rw [(hsame r).1, (hsame _).2.1]
    exact (hsame r).2.2

/-- The full image writes the image, up to the marker of a strict view row. -/
theorem unmarked_fullImage (r : Row) : v.unmarked ((v.fullImage r).fragment r.key) = v.image r :=
  Row.ext_cell? rfl (v.marker_unmarked_fullImage r r.key) rfl fun _ => rfl

/-- The full image carries any row over to a base row. -/
theorem carries_fullImage (now : Timestamp) (before after : Row) (key : RowKey) :
    Row.Carries now before (v.image after) (v.unmarked ((v.fullImage after).fragment key)) where
  deletion := latest?_self _
  marker := by
    rw [marker_unmarked_fullImage]
    exact emission_of_eq now after.deletion _ _
  cell c := emission_of_eq now after.deletion _ _

section Scoped

variable {v : View} {d : Delta} {covered : Option Deletion}

theorem get?_scopedChanges (column : String) :
    (v.scopedChanges d covered).cells.get? column =
      (d.column? column).bind (v.scopedCell? d covered column) := by
  rw [← Delta.get?_columns]
  exact SortedMap.get?_filterMap _ _ _

theorem get?_scopedChanges_of_not_tracks {column : String} (htracks : v.tracks column = false) :
    (v.scopedChanges d covered).cells.get? column = none := by
  rw [get?_scopedChanges]
  cases d.column? column with
  | none => rfl
  | some change =>
    have hcell (x : Cell) : v.cellImage? column x = none := by simp [cellImage?_eq, htracks]
    cases change <;> cases hafter : d.after.cell? column <;>
      simp [scopedCell?, hafter, hcell, htracks]

theorem plain_scopedChanges : (v.scopedChanges d covered).Plain := by
  refine plain_of_image (v := v) fun column cell hcell => ?_
  rw [get?_scopedChanges] at hcell
  obtain ⟨change, _, hcell⟩ := Option.bind_eq_some_iff.mp hcell
  have himage {x : Cell} (hx : v.cellImage? column x = some cell) : ∃ x, cell = v.seen column x := by
    rw [cellImage?_eq] at hx
    split at hx
    · exact ⟨x, (Option.some.inj hx).symm⟩
    · cases hx
  unfold scopedCell? at hcell
  split at hcell
  · split at hcell
    · cases hcell
    · exact .inr ⟨_, (Option.some.inj hcell).symm⟩
  · split at hcell
    · cases hcell
    · exact .inl (himage hcell)
  · obtain ⟨x, _, hx⟩ := Option.bind_eq_some_iff.mp hcell
    exact .inl (himage hx)

/-- A row that stays as it is has no intents. -/
theorem intents_of_eq (h : d.before = d.after) :
    v.intents (v.rowKey? d.before d.now) (v.rowKey? d.after d.now) d = [] := by
  have hcolumn (column : String) : d.column? column = none := Delta.column?_of_eq (by rw [h])
  have hmarker : v.scopedMarker? d none = none := by
    unfold scopedMarker?
    split
    · rw [hcolumn]
    · rw [Delta.marker?_of_eq (by rw [h])]
  have hcells : (v.scopedChanges d none).cells = ∅ := by
    refine SortedMap.eq_empty_iff.mpr fun column => ?_
    rw [get?_scopedChanges, hcolumn]
    rfl
  have hchanges : v.scopedChanges d none = ⟨none, none, ∅⟩ := by
    rw [← hmarker, ← hcells]
    rfl
  rw [h]
  cases v.rowKey? d.after d.now with
  | none => rfl
  | some id =>
    rw [intents, if_pos rfl, hchanges]
    rfl

/-- What was live and is now empty was reached by the row deletion, so the change has its time. -/
theorem becameDead_time {α : Type} [Ord α] [Write α] {deletion : Option Deletion}
    {before : Option α} {b : α} {now : Timestamp}
    (habsorbs : surviving deletion (latest? none before) = none) (hb : live now before = some b) :
    ∃ x, deletion = some x ∧ (deletion.map Deletion.markedAt).getD (time b) = x.markedAt := by
  obtain ⟨rfl, _⟩ := live_eq_some.mp hb
  obtain ⟨x, rfl, _⟩ := exists_deletion_of_dropped habsorbs
  exact ⟨x, rfl, rfl⟩

/-- An emptied place gets a removal, unless the deletion that goes along reaches it. -/
theorem emission_of_empty {α : Type} [Ord α] [Write α] {now : Timestamp} {deletion : Option Deletion}
    (hcovered : covered = none ∨ covered = deletion) {x : Deletion} (hx : deletion = some x)
    (before : Option α) : Emission now deletion covered before none
      (if Deletion.covers covered x.markedAt then none else some (removal x.markedAt)) := by
  split
  next hcovers =>
    refine .covered (hcovered.resolve_left ?_) rfl
    rintro rfl
    cases hcovers
  · exact .removed hx rfl

theorem emission_scopedCell (hcanonical : d.after.Canonical) (habsorbs : d.after.Absorbs d.before)
    (hcovered : covered = none ∨ covered = d.after.deletion) {column : String}
    (htracks : v.tracks column = true) :
    Emission d.now d.after.deletion covered ((d.before.cell? column).map (v.seen column))
      ((d.after.cell? column).map (v.seen column))
      ((d.column? column).bind (v.scopedCell? d covered column)) := by
  have hcell (x : Cell) : v.cellImage? column x = some (v.seen column x) := by
    rw [cellImage?_eq, if_pos htracks]
  have hslot := habsorbs.cell? column
  rcases d.column?_cases column with ⟨hnone, hlive⟩ | ⟨a, ha, hchange⟩ | ⟨b, hb, _, hchange⟩
  · rw [hnone]
    refine .kept ?_
    rw [live_map (fun x => v.isLive_seen column x d.now), hlive,
      live_map (fun x => v.isLive_seen column x d.now)]
  · obtain ⟨hafter, _⟩ := live_eq_some.mp ha
    have hscoped : (d.column? column).bind (v.scopedCell? d covered column) =
        some (v.seen column a) := by
      rcases hchange with ⟨h, _⟩ | ⟨b, h, _⟩ <;>
      · rw [h]
        simp [scopedCell?, hafter, hcell]
    rw [hscoped, hafter]
    exact .written rfl
  · rw [hchange]
    cases hafter : d.after.cell? column with
    | none =>
      rw [hafter] at hslot
      obtain ⟨x, hx, htime⟩ := becameDead_time hslot hb
      have hscoped : v.scopedCell? d covered column (.becameDead x.markedAt) =
          if Deletion.covers covered x.markedAt then none else some (removal x.markedAt) := by
        simp only [scopedCell?, hafter, htracks, Bool.not_true, Bool.false_or]
        rfl
      have hsince : ((((none : Option Cell).map Cell.timestamp).or
          (d.after.deletion.map Deletion.markedAt)).getD b.timestamp) = x.markedAt := htime
      rw [hsince, Option.bind_some, hscoped]
      exact emission_of_empty hcovered hx _
    | some cell =>
      have hkept : Deletion.covers covered cell.timestamp = false := by
        rcases hcovered with rfl | rfl
        · rfl
        · exact hcanonical.not_covers_cell hafter
      have hscoped (since : Timestamp) : v.scopedCell? d covered column (.becameDead since) =
          some (v.seen column cell) := by
        simp [scopedCell?, hafter, hkept, hcell]
      rw [Option.bind_some, hscoped]
      exact .written rfl

theorem emission_scopedMarker (hpromoted : v.promoted = none) (hcanonical : d.after.Canonical)
    (habsorbs : d.after.Absorbs d.before) (hcovered : covered = none ∨ covered = d.after.deletion) :
    Emission d.now d.after.deletion covered d.before.marker d.after.marker
      (v.scopedMarker? d covered) := by
  have hslot := habsorbs.marker
  rcases d.marker?_cases with ⟨hnone, hlive⟩ | ⟨a, ha, hchange⟩ | ⟨b, hb, _, hchange⟩
  · simp only [scopedMarker?, hpromoted, hnone]
    exact .kept hlive
  · obtain ⟨hafter, _⟩ := live_eq_some.mp ha
    have hscoped : v.scopedMarker? d covered = some a := by
      rcases hchange with ⟨h, _⟩ | ⟨b, h, _⟩ <;> simp only [scopedMarker?, hpromoted, h, hafter]
    rw [hscoped, hafter]
    exact .written rfl
  · simp only [scopedMarker?, hpromoted, hchange]
    cases hafter : d.after.marker with
    | none =>
      rw [hafter] at hslot
      obtain ⟨x, hx, htime⟩ := becameDead_time hslot hb
      have hsince : ((((none : Option Marker).map Marker.timestamp).or
          (d.after.deletion.map Deletion.markedAt)).getD b.timestamp) = x.markedAt := htime
      rw [hsince]
      exact emission_of_empty hcovered hx _
    | some m =>
      have hkept : Deletion.covers covered m.timestamp = false := by
        rcases hcovered with rfl | rfl
        · rfl
        · exact hcanonical.not_covers_marker hafter
      simp only [Option.getD_some, hkept, Bool.false_eq_true, if_false]
      exact .written rfl

/-- The scoped changes, with the deletion that goes along, carry a base row over to its new state. -/
theorem carries_scopedChanges (hcanonical : d.after.Canonical) (habsorbs : d.after.Absorbs d.before)
    (hcovered : covered = none ∨ covered = d.after.deletion) (key : RowKey) :
    Row.Carries d.now (v.image d.before) (v.image d.after)
      (v.unmarked ({ v.scopedChanges d covered with deletion := covered }.fragment key)) where
  deletion := by
    rcases hcovered with rfl | rfl
    · exact latest?_none_left _
    · exact latest?_self _
  marker := by
    cases hstrict : v.isStrict with
    | true => exact v.emission_marker_of_isStrict hstrict _ _ _
    | false =>
      have hmarker := v.marker_eq_of_not_isStrict hstrict
      have hpromoted : v.promoted = none := by simpa [isStrict] using hstrict
      rw [(hmarker d.before).1, (hmarker d.after).1, (hmarker _).2.1]
      exact emission_scopedMarker hpromoted hcanonical habsorbs hcovered
  cell c := by
    rw [cell?_unmarked, Changes.cell?_fragment, cell?_image, cell?_image]
    change Emission _ _ _ _ _ ((v.scopedChanges d covered).cells.get? c)
    rw [get?_scopedChanges]
    cases htracks : v.tracks c with
    | true => exact emission_scopedCell hcanonical habsorbs hcovered htracks
    | false =>
      rw [← get?_scopedChanges, get?_scopedChanges_of_not_tracks htracks]
      exact .kept rfl

end Scoped

end View

end ViewMaintenance
