import ViewMaintenance.Proofs.Engine.Run
import ViewMaintenance.Proofs.View.Withdrawal

namespace ViewMaintenance

open Write

theorem Row.absorbs_of_merge {a b : Row} (h : a.merge b = .ok a) : a.key = b.key ∧ a.Absorbs b :=
  merge_eq_ok_iff.mp h

namespace View

/-- A view row is not ahead of its base row: merged into the image of the base row it changes nothing,
    and if its marker goes by a promoted column, it is not later than the cell of this column or the
    row deletion. -/
structure NotAhead (v : View) (row stored : Row) : Prop where
  merge : (v.image row).merge (v.unmarked stored) = .ok (v.image row)
  marker : ∀ p m, v.promoted = some p → stored.marker = some m →
    (∃ c, row.cell? p = some c ∧ m.timestamp ≤ c.timestamp) ∨
      ∃ d, row.deletion = some d ∧ m.timestamp ≤ d.markedAt

/-- A view row shows a new state of its base row: if the full image of this state is merged into it,
    the view row holds this image, and with it the marker, unless the promoted cell is no later than
    it was before. -/
structure Reveals (v : View) (before after stored : Row) : Prop where
  image : v.unmarked (stored.join ((v.fullImage after).fragment stored.key)) = v.image after
  marker : ∀ m, v.marker? after = some m →
    (∀ p c, v.promoted = some p → before.cell? p = some c → c.timestamp < m.timestamp) →
    (stored.join ((v.fullImage after).fragment stored.key)).marker = some m

variable {v : View} {p : String} {passages : List Passage} {row stored : Row} {id : ViewKey}
  {m : Marker}

/-- A marker that goes by a cell that the base row absorbs is not later than what the base row has
    instead of this cell. -/
theorem MarkerSource.le (h : v.MarkerSource p passages row id m) :
    (∃ c, row.cell? p = some c ∧ m.timestamp ≤ c.timestamp) ∨
      ∃ d, row.deletion = some d ∧ m.timestamp ≤ d.markedAt := by
  obtain ⟨x, habsorbs, hx⟩ := h
  have htime : m.timestamp = x.timestamp := by
    rcases hx with ⟨_, rfl⟩ | ⟨rfl, _⟩
    · exact x.timestamp_marker
    · rfl
  rw [htime]
  cases hcell : row.cell? p with
  | some c =>
    exact .inl ⟨c, rfl, time_le_of_latest (α := Cell) (habsorbs.latest_of_ofCell hcell)⟩
  | none =>
    have hslot := habsorbs.cell? p
    rw [Row.cell?_ofCell, if_pos rfl, hcell, latest?_none_left] at hslot
    have hcovers : Deletion.covers row.deletion x.timestamp = true :=
      covers_of_surviving_eq_none (α := Cell) hslot
    cases hdeletion : row.deletion with
    | some d =>
      rw [hdeletion, Deletion.covers_some] at hcovers
      exact .inr ⟨d, rfl, hcovers⟩
    | none =>
      rw [hdeletion] at hcovers
      cases hcovers

/-- In every run the view rows are not ahead of their base row. -/
theorem Evolution.notAhead {key : RowKey} {stored : Option Bytes → Row}
    (h : v.Evolution key passages row stored) (promoted : Option Bytes) :
    v.NotAhead row (stored promoted) where
  merge := by
    have hkey : (v.image row).key = (v.unmarked (stored promoted)).key :=
      h.key_row.trans (h.key_stored promoted).symm
    rw [Row.merge_eq_ok hkey, show (v.image row).join _ = _ from h.absorbs promoted]
  marker p m hp hm := (h.markerSource hp hm).le

theorem not_covers_marker? (hp : v.promoted = some p) {r : Row} (hr : r.Canonical)
    (hm : v.marker? r = some m) : Deletion.covers r.deletion m.timestamp = false := by
  obtain ⟨c, hc, _, rfl⟩ := (marker?_eq_some_iff hp).mp hm
  rw [Cell.timestamp_marker]
  exact hr.not_covers_cell hc

/-- The marker of a view row that is not ahead is earlier than any that the base row gives later. -/
theorem NotAhead.timestamp_lt (h : v.NotAhead row stored) (hp : v.promoted = some p) {f : Row}
    {later : Marker} (hm : stored.marker = some m) (hlater : v.marker? (row.join f) = some later)
    (hcell : ∀ c, row.cell? p = some c → c.timestamp < later.timestamp) :
    m.timestamp < later.timestamp := by
  rcases h.marker p m hp hm with ⟨c, hc, hle⟩ | ⟨d, hd, hle⟩
  · exact Int64.lt_of_le_of_lt hle (hcell c hc)
  · refine Int64.not_le.mp fun hge => ?_
    have hcovers : Deletion.covers row.deletion later.timestamp = true := by
      rw [hd, Deletion.covers_some]
      exact Int64.le_trans hge hle
    have hkept := not_covers_marker? hp (Row.canonical_join row f) hlater
    rw [Row.covers_join hcovers] at hkept
    cases hkept

/-- A view row that is not ahead shows whatever the base row takes. -/
theorem NotAhead.reveals (h : v.NotAhead row stored) (hrow : row.Canonical) {f : Row}
    (hf : f.key = stored.key) : v.Reveals row (row.join f) stored := by
  obtain ⟨hkey, habsorbs⟩ := Row.absorbs_of_merge h.merge
  have hstored : (row.join f).key = stored.key := hkey
  have hkeys : (v.unmarked stored).key = (v.image (row.join f)).key := hkey.symm
  have hold : (row.join f).Absorbs row := hrow.absorbs_self.join (hkey.trans hf.symm) rfl
  have himage : v.unmarked (stored.join ((v.fullImage (row.join f)).fragment stored.key)) =
      v.image (row.join f) := by
    rw [unmarked_join, ← hstored, unmarked_fullImage, Row.join_comm hkeys]
    exact (absorbs_image hold).trans habsorbs rfl
  refine ⟨himage, fun m hm hlater => ?_⟩
  cases hp : v.promoted with
  | none =>
    have hstrict : v.isStrict = false := by simp [isStrict, hp]
    have hsame := v.marker_eq_of_not_isStrict hstrict
    rw [← (hsame _).2.1, himage, (hsame _).1, ← (hsame _).2.2]
    exact hm
  | some p =>
    have hdeletion : latest? stored.deletion (row.join f).deletion = (row.join f).deletion :=
      congrArg Row.deletion himage
    have hwins : latest? stored.marker (some m) = some m := by
      cases hmarker : stored.marker with
      | none => exact latest?_none_left _
      | some earlier =>
        have hlt := h.timestamp_lt hp hmarker hm (hlater p · hp)
        exact congrArg some (latest_eq_right_of_time_lt (α := Marker) hlt)
    have hmarker : ((v.fullImage (row.join f)).fragment stored.key).marker = some m := hm
    rw [Row.marker_join_eq, hmarker, hwins]
    change surviving (latest? stored.deletion (row.join f).deletion) (some m) = some m
    rw [hdeletion]
    exact surviving_eq_some.mpr ⟨rfl, not_covers_marker? hp (Row.canonical_join row f) hm⟩

end View

namespace Engine

variable {e : Engine} {s : Store} {v : View}

/-- No stored row of a view that owns its name is ahead of its base row after a run, so none of
    them hides a fragment that the base row takes. -/
theorem Blank.notAhead_of_stored (hs : e.Blank s) (hv : e.Maintains v) (events : List Event)
    {table : ViewTable} (htable : (e.run s events).views.get? v.name = some table) {id : ViewKey}
    {stored : Row} (hstored : table.stored? id = some stored) :
    ∃ row, (e.run s events).base.read id.base = .ok row ∧ v.NotAhead row stored ∧
      ∀ f : Row, f.key = id.base → v.Reveals row (row.join f) stored := by
  obtain ⟨h, hholds, htracked⟩ := hs.run events
  obtain ⟨passages, hevolution, _⟩ := (htracked v hv).evolved table htable id.base
  have hrow : table.row ⟨id.base, id.promoted⟩ = stored := by
    rw [ViewTable.row, hstored]
    rfl
  have hnot := hevolution.notAhead id.promoted
  have hkey := hevolution.key_stored id.promoted
  simp only [hrow] at hnot hkey
  exact ⟨h.row id.base, hholds.base.read id.base, hnot, fun f hf =>
    hnot.reveals (History.canonical_row h id.base) (hf.trans hkey.symm)⟩

/-- The row of a status that an order has left is withdrawn at the time of the change, and a later
    return to this status shows again. -/
theorem notAhead_of_changed_status : ∃ table stored row,
    (ordersEngine.run (.ofViews ordersEngine.views) [setStatus 2 5 1, setStatus 1 7 2]).views.get?
      "orders_by_status" = some table ∧
    table.stored? ⟨order, some [2]⟩ = some stored ∧ stored.marker = some (.withdrawn 7) ∧
    (ordersEngine.run (.ofViews ordersEngine.views) [setStatus 2 5 1, setStatus 1 7 2]).base.read order =
      .ok row ∧
    ordersByStatus.NotAhead row stored ∧
    ordersByStatus.Reveals row (row.join ((RowWrite.insert order 8).set "status" [2]).toRow) stored := by
  have hv : ordersEngine.Maintains ordersByStatus :=
    maintains_of_nodup fresh_orders.names (List.mem_cons_of_mem _ List.mem_cons_self)
  obtain ⟨table, htable⟩ : ∃ table, (ordersEngine.run (.ofViews ordersEngine.views)
      [setStatus 2 5 1, setStatus 1 7 2]).views.get? ordersByStatus.name = some table := ⟨_, rfl⟩
  have hwithdrawn : ((ordersEngine.run (.ofViews ordersEngine.views)
      [setStatus 2 5 1, setStatus 1 7 2]).views.get? ordersByStatus.name).bind (fun table =>
        (table.stored? ⟨order, some [2]⟩).bind Row.marker) = some (.withdrawn 7) := by decide +kernel
  rw [htable, Option.bind_some] at hwithdrawn
  obtain ⟨stored, hstored, hmarker⟩ := Option.bind_eq_some_iff.mp hwithdrawn
  obtain ⟨row, hread, hnot, hreveals⟩ := fresh_orders.blank.notAhead_of_stored hv _ htable hstored
  exact ⟨table, stored, row, htable, hstored, hmarker, hread, hnot, hreveals _ rfl⟩

end Engine

end ViewMaintenance
