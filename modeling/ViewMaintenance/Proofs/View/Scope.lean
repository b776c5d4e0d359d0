import ViewMaintenance.Proofs.Engine.Run

namespace ViewMaintenance

open Write

/-- The changes for a view row hold what the base row has come to hold, or where it has nothing a
    removal at the time of the row deletion. -/
structure Changes.Scoped (c : Changes) (v : View) (after : Row) : Prop where
  marker : ∀ {m}, c.marker = some m → v.marker? after = some m ∨
    v.promoted = none ∧ after.marker = none ∧
      ∃ x, after.deletion = some x ∧ m = .withdrawn x.markedAt
  deletion : ∀ {x}, c.deletion = some x → after.deletion = some x
  cell : ∀ {column cell}, c.cells.get? column = some cell → v.tracks column = true ∧
    ((∃ x, after.cell? column = some x ∧ cell = v.seen column x) ∨
      after.cell? column = none ∧ ∃ x, after.deletion = some x ∧ cell = .tombstone x.markedAt)

namespace Changes.Scoped

variable {c : Changes} {v : View} {after : Row} {column : String}

/-- A deleted column is deleted at the time of its tombstone or of the row deletion. -/
theorem of_deletedColumns (h : c.Scoped v after) {time : Timestamp}
    (hcolumn : c.deletedColumns.get? column = some time) : v.tracks column = true ∧
      ((∃ x, after.cell? column = some x ∧ x.isTombstone = true ∧ time = x.timestamp) ∨
        after.cell? column = none ∧ ∃ x, after.deletion = some x ∧ time = x.markedAt) := by
  rw [get?_deletedColumns] at hcolumn
  obtain ⟨cell, hcell, htime⟩ := Option.bind_eq_some_iff.mp hcolumn
  obtain ⟨htomb, rfl⟩ : cell.isTombstone = true ∧ cell.timestamp = time := by simpa using htime
  obtain ⟨htracks, ⟨x, hx, rfl⟩ | ⟨hnone, x, hx, rfl⟩⟩ := h.cell hcell
  · rw [View.isTombstone_seen] at htomb
    exact ⟨htracks, .inl ⟨x, hx, htomb, View.timestamp_seen v column x⟩⟩
  · exact ⟨htracks, .inr ⟨hnone, x, hx, rfl⟩⟩

/-- A value is the one that its column has. -/
theorem of_values (h : c.Scoped v after) {cell : Cell} (hcell : c.values.get? column = some cell) :
    v.tracks column = true ∧ ∃ x, after.cell? column = some x ∧ x.isTombstone = false ∧
      cell = if v.isVirtual column then x.toVirtual else x := by
  rw [get?_values, Option.filter_eq_some_iff] at hcell
  obtain ⟨hcell, hvalue⟩ := hcell
  rw [Bool.not_eq_true'] at hvalue
  obtain ⟨htracks, ⟨x, hx, rfl⟩ | ⟨_, _, _, rfl⟩⟩ := h.cell hcell
  · rw [View.isTombstone_seen] at hvalue
    refine ⟨htracks, x, hx, hvalue, ?_⟩
    rw [View.seen, hvalue, if_neg Bool.false_ne_true]
  · cases hvalue

end Changes.Scoped

namespace View

/-- The intents for a change are bound to what the base row holds before and after it, and the deletion
    of a whole view row to the fragment. -/
structure Scoped (v : View) (fragment : Row) (d : Delta) (intents : List Intent) : Prop where
  row : ∀ {i}, i ∈ intents →
    v.rowKey? d.before d.now = some i.row ∨ v.rowKey? d.after d.now = some i.row
  deleteRow : ∀ {id time kind}, .deleteRow id time kind ∈ intents →
    v.rowKey? d.before d.now = some id ∧ v.rowKey? d.after d.now ≠ some id
  regular : ∀ {id time}, .deleteRow id time .regular ∈ intents ↔
    (v.rowKey? d.before d.now = some id ∧ v.rowKey? d.after d.now ≠ some id) ∧
      ∃ x, (fragment.deletion = some x ∧ ∀ y, d.before.deletion = some y → y.markedAt < x.markedAt) ∧
        time = x.markedAt
  shadowable : ∀ {id time}, .deleteRow id time .shadowable ∈ intents →
    ∃ p cell, v.promoted = some p ∧ d.after.cell? p = some cell ∧ time = cell.timestamp
  deletedColumn : ∀ {id columns column time}, .deleteColumns id columns ∈ intents →
    columns.get? column = some time → v.tracks column = true ∧
      ((∃ x, d.after.cell? column = some x ∧ x.isTombstone = true ∧ time = x.timestamp) ∨
        d.after.cell? column = none ∧ ∃ x, d.after.deletion = some x ∧ time = x.markedAt)
  upsertedCell : ∀ {id marker deletion cells column cell},
    .upsert id marker deletion cells ∈ intents → cells.get? column = some cell →
      v.tracks column = true ∧ ∃ x, d.after.cell? column = some x ∧ x.isTombstone = false ∧
        cell = if v.isVirtual column then x.toVirtual else x
  deletion : ∀ {id marker x cells}, .upsert id marker (some x) cells ∈ intents →
    d.after.deletion = some x
  marker : ∀ {id m deletion cells}, .upsert id (some m) deletion cells ∈ intents →
    v.marker? d.after = some m ∨ v.promoted = none ∧ d.after.marker = none ∧
      ∃ x, d.after.deletion = some x ∧ m = .withdrawn x.markedAt

section Changes

variable {v : View} {d : Delta}

theorem scoped_fullImage (v : View) (r : Row) : (v.fullImage r).Scoped v r where
  marker h := .inl h
  deletion h := h
  cell {column cell} h := by
    rw [get?_fullImage, cell?_image] at h
    split at h
    next htracks =>
      obtain ⟨x, hx, rfl⟩ := Option.map_eq_some_iff.mp h
      exact ⟨htracks, .inl ⟨x, hx, rfl⟩⟩
    next => cases h

theorem scoped_scopedChanges {covered : Option Deletion}
    (habsorbs : d.after.Absorbs d.before) (hcovered : covered = none ∨ covered = d.after.deletion) :
    (v.scopedChanges d covered).Scoped v d.after where
  marker {m} h := by
    have hmarker : v.scopedMarker? d covered = some m := h
    cases hp : v.promoted with
    | some p =>
      simp only [scopedMarker?, hp] at hmarker
      split at hmarker
      · exact .inl hmarker
      · exact .inl hmarker
      · cases hmarker
      · cases hmarker
    | none =>
      have hemission := emission_scopedMarker hp habsorbs.canonical habsorbs hcovered
      rw [hmarker] at hemission
      have himage : v.marker? d.after = d.after.marker := by simp [marker?, hp]
      rw [himage]
      exact hemission.of_some.imp_right fun hremoved => ⟨rfl, hremoved⟩
  deletion h := by cases h
  cell {column cell} h := by
    cases htracks : v.tracks column with
    | false =>
      rw [get?_scopedChanges_of_not_tracks htracks] at h
      cases h
    | true =>
      have hemission := emission_scopedCell habsorbs.canonical habsorbs hcovered htracks
      rw [← get?_scopedChanges, h] at hemission
      refine ⟨rfl, ?_⟩
      rcases hemission.of_some with hafter | ⟨hnone, hx⟩
      · obtain ⟨x, hx, hcell⟩ := Option.map_eq_some_iff.mp hafter
        exact .inl ⟨x, hx, hcell.symm⟩
      · exact .inr ⟨Option.map_eq_none_iff.mp hnone, hx⟩

/-- An intent deletes a view row, or it is for changes that hold what the base row has come to hold. -/
theorem exists_scoped_of_mem_intents (habsorbs : d.after.Absorbs d.before)
    {before after : Option ViewKey} {i : Intent} (h : i ∈ v.intents before after d) :
    (∃ id time kind, i = .deleteRow id time kind) ∨
      ∃ id, ∃ c : Changes, c.Scoped v d.after ∧ i ∈ c.intents id := by
  rcases mem_intents_iff.mp h with ⟨id, _, _, h⟩ | ⟨id, _, _, h⟩ | ⟨id, _, _, h⟩
  · exact .inr ⟨id, _, v.scoped_fullImage d.after, h⟩
  · exact .inr ⟨id, _, scoped_scopedChanges habsorbs (.inl rfl), h⟩
  · rcases mem_retraction_iff.mp h with ⟨x, _, rfl⟩ | ⟨_, change, _, _, _, rfl⟩ | ⟨_, h⟩
    · exact .inl ⟨_, _, _, rfl⟩
    · exact .inl ⟨_, _, _, rfl⟩
    · exact .inr ⟨id, _, scoped_scopedChanges habsorbs d.newDeletion?_eq, h⟩

theorem exists_scoped_of_upsert (habsorbs : d.after.Absorbs d.before)
    {before after : Option ViewKey} {id : ViewKey} {marker : Option Marker}
    {deletion : Option Deletion} {cells : SortedMap String Cell}
    (h : .upsert id marker deletion cells ∈ v.intents before after d) :
    ∃ c : Changes, c.Scoped v d.after ∧ marker = c.marker ∧ deletion = c.deletion ∧
      cells = c.values := by
  obtain ⟨_, _, _, hdelete⟩ | ⟨_, c, hc, hmem⟩ := exists_scoped_of_mem_intents habsorbs h
  · cases hdelete
  · rcases Changes.mem_intents_iff.mp hmem with ⟨hupsert, _⟩ | ⟨hdelete, _⟩
    · cases hupsert
      exact ⟨c, hc, rfl, rfl, rfl⟩
    · cases hdelete

theorem exists_scoped_of_deleteColumns (habsorbs : d.after.Absorbs d.before)
    {before after : Option ViewKey} {id : ViewKey} {columns : SortedMap String Timestamp}
    (h : .deleteColumns id columns ∈ v.intents before after d) :
    ∃ c : Changes, c.Scoped v d.after ∧ columns = c.deletedColumns := by
  obtain ⟨_, _, _, hdelete⟩ | ⟨_, c, hc, hmem⟩ := exists_scoped_of_mem_intents habsorbs h
  · cases hdelete
  · rcases Changes.mem_intents_iff.mp hmem with ⟨hupsert, _⟩ | ⟨hdelete, _⟩
    · cases hupsert
    · cases hdelete
      exact ⟨c, hc, rfl⟩

/-- A view row is deleted if the base row leaves it: by the new row deletion, and at the time of a change
    of the promoted column that this does not reach. -/
theorem deleteRow_mem_intents_iff {before after : Option ViewKey} {id : ViewKey} {time : Timestamp}
    {kind : DeletionKind} : .deleteRow id time kind ∈ v.intents before after d ↔
      (before = some id ∧ after ≠ some id) ∧
        ((∃ x, d.newDeletion? = some x ∧ time = x.markedAt ∧ kind = .regular) ∨
          ∃ p change, v.promoted = some p ∧ d.column? p = some change ∧
            Deletion.covers d.newDeletion? change.time = false ∧ time = change.time ∧
              kind = .shadowable) := by
  -- Full images and scoped changes delete no row, so only the retraction is left.
  have hchanges (c : Changes) (id' : ViewKey) : .deleteRow id time kind ∉ c.intents id' := by
    intro h
    rcases Changes.mem_intents_iff.mp h with ⟨h, _⟩ | ⟨h, _⟩ <;> cases h
  have hretraction : .deleteRow id time kind ∈ v.retraction d id ↔ _ := mem_retraction_iff
  simp only [hchanges, and_false, or_false, Intent.deleteRow.injEq, true_and] at hretraction
  rw [mem_intents_iff, ← hretraction]
  constructor
  · rintro (⟨_, _, _, h⟩ | ⟨_, _, _, h⟩ | ⟨id', hbefore, hafter, h⟩)
    · exact absurd h (hchanges _ _)
    · exact absurd h (hchanges _ _)
    · obtain rfl : id = id' := row_of_mem_retraction h
      exact ⟨⟨hbefore, hafter⟩, h⟩
  · rintro ⟨⟨hbefore, hafter⟩, h⟩
    exact .inr (.inr ⟨id, hbefore, hafter, h⟩)

end Changes

section Scoped

variable {v : View} {d : Delta} {fragment : Row}

/-- The intents for a merge are bound to their causes. -/
theorem scoped_intents (hbefore : d.before.Canonical) (hkey : d.before.key = fragment.key)
    (hafter : d.before.join fragment = d.after) :
    v.Scoped fragment d (v.intents (v.rowKey? d.before d.now) (v.rowKey? d.after d.now) d) := by
  have habsorbs : d.after.Absorbs d.before := by
    rw [← hafter]
    exact hbefore.absorbs_self.join hkey rfl
  have hdeletion : d.after.deletion = latest? d.before.deletion fragment.deletion := by
    rw [← hafter]
    rfl
  refine {
    row := row_of_mem_intents
    deleteRow := fun h => (deleteRow_mem_intents_iff.mp h).1
    regular := ?_
    shadowable := ?_
    deletedColumn := ?_
    upsertedCell := ?_
    deletion := ?_
    marker := ?_ }
  · intro id time
    rw [deleteRow_mem_intents_iff]
    simp only [and_true, reduceCtorEq, and_false, exists_false, or_false,
      Delta.newDeletion?_eq_some_iff hdeletion]
  · intro id time h
    obtain ⟨_, ⟨_, _, _, hkind⟩ | ⟨p, change, hp, hchange, hnot, rfl, _⟩⟩ :=
      deleteRow_mem_intents_iff.mp h
    · cases hkind
    · obtain ⟨cell, hcell, htime⟩ := Delta.exists_cell_of_not_covers hbefore habsorbs hchange hnot
      exact ⟨p, cell, hp, hcell, htime.symm⟩
  · intro id columns column time h hcolumn
    obtain ⟨c, hc, rfl⟩ := exists_scoped_of_deleteColumns habsorbs h
    exact hc.of_deletedColumns hcolumn
  · intro id marker deletion cells column cell h hcell
    obtain ⟨c, hc, _, _, rfl⟩ := exists_scoped_of_upsert habsorbs h
    exact hc.of_values hcell
  · intro id marker x cells h
    obtain ⟨c, hc, _, hx, _⟩ := exists_scoped_of_upsert habsorbs h
    exact hc.deletion hx.symm
  · intro id m deletion cells h
    obtain ⟨c, hc, hm, _, _⟩ := exists_scoped_of_upsert habsorbs h
    exact hc.marker hm.symm

/-- If a fragment is merged into a row that keeps nothing its own deletion reaches, then all
    intents that a view makes for the change are bound to their causes. The merge is what makes
    it so: a place that it empties was reached by a new row deletion, and what it keeps is later
    than every row deletion. -/
theorem scoped_rowIntents (v : View) {before fragment : Row} (hbefore : before.Canonical)
    (hkey : before.key = fragment.key) (now : Timestamp) :
    ∃ after d, before.merge fragment = .ok after ∧ Delta.between before after now = .ok d ∧
      d.before = before ∧ d.after = after ∧ d.now = now ∧
        ∀ intents, v.rowIntents d = .ok intents → v.Scoped fragment d intents := by
  refine ⟨before.join fragment, ⟨before, before.join fragment, now, rfl⟩, Row.merge_eq_ok hkey,
    Delta.between_of_key_eq (Row.key_join before fragment).symm now, rfl, rfl, rfl, fun intents h => ?_⟩
  obtain ⟨_, rfl⟩ := rowIntents_eq_ok h
  exact scoped_intents hbefore hkey rfl

end Scoped

section Orders

open Engine (order allOrders ordersByStatus)

/-- An order with a status and a later note. -/
def noted : Row :=
  (((Row.empty order).withMarker (.live 2 none)).withCell "status" (.new 2 [1])).withCell
    "note" (.new 4 [7])

/-- A row deletion that leaves the note, with a later tombstone for the status. -/
def clearing : Row := ((Row.empty order).withDeletion ⟨3⟩).withCell "status" (.tombstone 5)

/-- The order leaves its status at the time of the tombstone, and among all orders it goes on to be
    there without its marker. -/
theorem scoped_rowIntents_of_clearing :
    ∃ d, Delta.between noted (noted.join clearing) 9 = .ok d ∧
      (∃ intents, ordersByStatus.rowIntents d = .ok intents ∧ intents =
        [.deleteRow ⟨order, some [1]⟩ 3 .regular, .deleteRow ⟨order, some [1]⟩ 5 .shadowable] ∧
          ordersByStatus.Scoped clearing d intents) ∧
      ∃ intents, allOrders.rowIntents d = .ok intents ∧ intents =
        [.upsert ⟨order, none⟩ (some (.withdrawn 3)) none ∅,
          .deleteColumns ⟨order, none⟩ (SortedMap.ofList [("status", 5)])] ∧
            allOrders.Scoped clearing d intents := by
  have hcanonical : noted.Canonical := by
    change noted.purge = noted
    decide
  have hscoped (v : View) {d : Delta} (hd : Delta.between noted (noted.join clearing) 9 = .ok d)
      {intents : List Intent} (h : v.rowIntents d = .ok intents) : v.Scoped clearing d intents := by
    obtain ⟨after, d', hmerge, hd', _, _, _, hall⟩ :=
      scoped_rowIntents v hcanonical (show noted.key = clearing.key from rfl) 9
    cases Except.ok.inj hmerge
    cases Except.ok.inj (hd.symm.trans hd')
    exact hall intents h
  refine ⟨_, rfl, ⟨_, rfl, by decide, hscoped _ rfl rfl⟩, ⟨_, rfl, by decide, hscoped _ rfl rfl⟩⟩

end Orders

end View

end ViewMaintenance
