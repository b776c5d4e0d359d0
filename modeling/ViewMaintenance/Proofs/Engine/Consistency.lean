import ViewMaintenance.Proofs.Engine.Run
import ViewMaintenance.Proofs.View.Withdrawal

namespace ViewMaintenance

open Write

/-- The columns shown of a base row: those that the view selects and whose cell is live, with the
    values of these cells. -/
def View.Shows (v : View) (row : Row) (t : Timestamp) (columns : SortedMap String Bytes) : Prop :=
  ∀ c value, columns.get? c = some value ↔ v.isSelected c = true ∧
    ∃ cell, row.cell? c = some cell ∧ cell.isLive t = true ∧ cell.value = some value

theorem View.shows_liveColumns (v : View) (row : Row) (t : Timestamp) :
    v.Shows row t (v.liveColumns row t) := by
  intro c value
  rw [get?_liveColumns]
  by_cases hselected : v.isSelected c = true
  · rw [if_pos hselected, Option.bind_eq_some_iff]
    simp only [live_eq_some, and_assoc, hselected, true_and]
    rfl
  · simp [hselected]

namespace Engine

variable {e : Engine} {s : Store} {events : List Event} {v : View} {t : Timestamp}

/-- A view row of a run, with what is known of it and of its base row. -/
theorem Fresh.exists_evolution (hs : e.Fresh s) (events : List Event) (hv : v ∈ e.views) :
    ∃ h table, (e.run s events).views.get? v.name = some table ∧ table.view = v ∧
      ∀ key, (e.run s events).base.read key = .ok (History.row h key) ∧
        e.Evolved s events h v table key := by
  obtain ⟨h, hholds, htracked⟩ := hs.blank.run events
  have hv' := htracked v (maintains_of_nodup hs.names hv)
  have hview := hv'.view
  rw [hs.table v hv, Option.map_some, Option.map_eq_some_iff] at hview
  obtain ⟨table, htable, hview⟩ := hview
  exact ⟨h, table, htable, hview, fun key => ⟨hholds.base.read key, hv'.evolved table htable key⟩⟩

theorem passage_le (ht : ∀ now ∈ events.filterMap Event.time?, now ≤ t) {passages : List Passage}
    (hsub : (passages.map Passage.now).Sublist (events.filterMap Event.time?)) :
    ∀ q ∈ passages, q.now ≤ t :=
  fun _ hq => ht _ (hsub.subset (List.mem_map_of_mem hq))

/-- A view without promoted column shows exactly the base rows that are present, at every time that is
    not before a reference time of the run. -/
theorem Fresh.read_of_not_promoted (hs : e.Fresh s) (hv : v ∈ e.views) (hp : v.promoted = none)
    (ht : ∀ now ∈ events.filterMap Event.time?, now ≤ t) :
    ∃ table, (e.run s events).views.get? v.name = some table ∧
      (∀ key, ∃ row, (e.run s events).base.read key = .ok row ∧
        (((table.read t).get? ⟨key, none⟩).isSome ↔ row.isPresent t = true) ∧
        ∀ columns, (table.read t).get? ⟨key, none⟩ = some columns → v.Shows row t columns) ∧
      ∀ key value, (table.read t).get? ⟨key, some value⟩ = none := by
  have hstrict : v.isStrict = false := by simp [View.isStrict, hp]
  obtain ⟨h, table, htable, rfl, hrows⟩ := hs.exists_evolution events hv
  have hshows (r : Row) : table.shows r t = r.isPresent t := by simp [ViewTable.shows, hstrict]
  refine ⟨table, htable, fun key => ?_, fun key value => ?_⟩
  · obtain ⟨hread, passages, hevolution, hsub, _⟩ := hrows key
    have hagrees := hevolution.agrees hstrict (passage_le ht hsub)
    have hpresent := View.isPresent_eq_of_agrees hstrict hevolution.unknownColumn? hagrees
    have hcolumns := View.liveColumns_eq_of_agrees hagrees
    have hget : (table.read t).get? ⟨key, none⟩ = if (h.row key).isPresent t then
        some (table.view.liveColumns (h.row key) t) else none := by
      rw [ViewTable.get?_read, hshows, hpresent, hcolumns]
    refine ⟨h.row key, hread, ?_, fun columns hget' => ?_⟩
    · rw [hget]
      cases (h.row key).isPresent t <;> simp
    · rw [hget, Option.ite_none_right_eq_some] at hget'
      obtain rfl := Option.some.inj hget'.2
      exact table.view.shows_liveColumns (h.row key) t
  · obtain ⟨_, passages, hevolution, _⟩ := hrows key
    rw [ViewTable.get?_read, hevolution.stored_some hstrict, ViewTable.shows_empty]
    rfl

/-- An order that was written is shown with its status. -/
theorem read_of_insert : ∃ table columns,
    (ordersEngine.run (.ofViews ordersEngine.views) [setStatus 2 5 3, .flush]).views.get?
      "all_orders" = some table ∧
    (table.read 3).get? ⟨order, none⟩ = some columns ∧ columns.get? "status" = some [2] ∧
    (table.read 3).get? ⟨order, some [2]⟩ = none := by
  have hall : ([setStatus 2 5 3, .flush].filterMap Event.time?).all (· ≤ 3) = true := by decide
  have htimes : ∀ now ∈ [setStatus 2 5 3, .flush].filterMap Event.time?, now ≤ 3 := fun now hnow =>
    of_decide_eq_true (List.all_eq_true.mp hall now hnow)
  obtain ⟨table, htable, hrows, hnone⟩ :=
    fresh_orders.read_of_not_promoted (v := allOrders) List.mem_cons_self rfl htimes
  obtain ⟨row, hread, hpresent, hcolumns⟩ := hrows order
  have hrow : (ordersEngine.run (.ofViews ordersEngine.views) [setStatus 2 5 3, .flush]).base.read order =
      .ok ((RowWrite.insert order 5).set "status" [2]).toRow := by decide +kernel
  obtain rfl := Except.ok.inj (hrow.symm.trans hread)
  obtain ⟨columns, hget⟩ := Option.isSome_iff_exists.mp (hpresent.mpr (by decide))
  refine ⟨table, columns, htable, hget, (hcolumns columns hget "status" [2]).mpr ?_, hnone order [2]⟩
  exact ⟨by decide, .new 5 [2], by decide, by decide, rfl⟩

/-- A view with a promoted column shows a row only while its base row maps to it, with the live
    selected columns of the base row, if the reference times never decrease. -/
theorem Fresh.read_of_promoted (hs : e.Fresh s) (hv : v ∈ e.views) {p : String}
    (hp : v.promoted = some p)
    (hsorted : (events.filterMap Event.time? ++ [t]).Pairwise (· ≤ ·)) :
    ∃ table, (e.run s events).views.get? v.name = some table ∧
      (∀ id, table.isVisible id t = true → ∃ row columns,
        (e.run s events).base.read id.base = .ok row ∧ v.rowKey? row t = some id ∧
        (table.read t).get? id = some columns ∧ v.Shows row t columns) ∧
      ∀ a b, table.isVisible a t = true → table.isVisible b t = true → a.base = b.base → a = b := by
  obtain ⟨hsorted, _, hlast⟩ := List.pairwise_append.mp hsorted
  obtain ⟨h, table, htable, rfl, hrows⟩ := hs.exists_evolution events hv
  have hmaps (id : ViewKey) (hvisible : table.isVisible id t = true) :
      table.view.rowKey? (h.row id.base) t = some id := by
    obtain ⟨_, passages, hevolution, hsub, _⟩ := hrows id.base
    have hle := passage_le (fun now hnow => hlast now hnow t List.mem_cons_self) hsub
    rw [ViewTable.isVisible_eq, ViewTable.shows, if_pos (View.isStrict_of_promoted hp)] at hvisible
    obtain ⟨m, hm⟩ := Option.isSome_iff_exists.mp hvisible
    obtain ⟨hmarker, hlive⟩ := Option.filter_eq_some_iff.mp hm
    exact (hevolution.marker_of_isLive hp hle hmarker hlive).1
  refine ⟨table, htable, fun id hvisible => ?_, fun a b ha hb hbase => ?_⟩
  · obtain ⟨hread, passages, hevolution, hsub, _⟩ := hrows id.base
    have hle := passage_le (fun now hnow => hlast now hnow t List.mem_cons_self) hsub
    have hid := hmaps id hvisible
    have hpairs : passages.Pairwise fun a b => a.now ≤ b.now :=
      List.pairwise_map.mp (hsorted.sublist hsub)
    have hcolumns := View.liveColumns_eq_of_agrees (hevolution.agrees_of_rowKey? hp hpairs hle hid)
    rw [ViewTable.isVisible_eq] at hvisible
    refine ⟨h.row id.base, table.view.liveColumns (h.row id.base) t, hread, hid, ?_,
      table.view.shows_liveColumns _ t⟩
    rw [ViewTable.get?_read, if_pos hvisible]
    exact congrArg some hcolumns
  · have hid := hmaps a ha
    rw [hbase, hmaps b hb] at hid
    exact (Option.some.inj hid).symm

/-- After a change of its status an order is shown under the new status only. -/
theorem read_of_changed_status : ∃ table,
    (ordersEngine.run (.ofViews ordersEngine.views) [setStatus 2 5 1, setStatus 1 7 2]).views.get?
      "orders_by_status" = some table ∧
    table.isVisible ⟨order, some [1]⟩ 2 = true ∧
    ∀ id, id.base = order → table.isVisible id 2 = true → id = ⟨order, some [1]⟩ := by
  have htimes : ([setStatus 2 5 1, setStatus 1 7 2].filterMap Event.time? ++ [2]).Pairwise (· ≤ ·) := by
    decide +kernel
  obtain ⟨table, htable, _, hunique⟩ := fresh_orders.read_of_promoted (v := ordersByStatus)
    (List.mem_cons_of_mem _ List.mem_cons_self) rfl htimes
  have hvisible : ((ordersEngine.run (.ofViews ordersEngine.views)
      [setStatus 2 5 1, setStatus 1 7 2]).views.get? "orders_by_status").map
        (·.isVisible ⟨order, some [1]⟩ 2) = some true := by decide +kernel
  have hget : table.isVisible ⟨order, some [1]⟩ 2 = true := by
    change Option.map _ ((ordersEngine.run _ _).views.get? ordersByStatus.name) = _ at hvisible
    rw [htable] at hvisible
    exact Option.some.inj hvisible
  exact ⟨table, htable, hget, fun id hbase hid => hunique id _ hid hget hbase⟩

/-- A view row that a base row maps to is visible, unless the base row has left it before because of a
    write to the promoted column at the time of the present promoted cell. -/
theorem Fresh.isVisible_iff (hs : e.Fresh s) (hv : v ∈ e.views) {p : String}
    (hp : v.promoted = some p) (ht : ∀ now ∈ events.filterMap Event.time?, now ≤ t) :
    ∃ table, (e.run s events).views.get? v.name = some table ∧
      ∀ key, ∃ row, (e.run s events).base.read key = .ok row ∧ ∀ id, v.rowKey? row t = some id →
        ∃ cell, row.cell? p = some cell ∧
          (table.isVisible id t = true ↔
            ¬ ∃ q, e.Passes s events key q ∧ q.Withdraws v p id cell.timestamp) := by
  obtain ⟨h, table, htable, rfl, hrows⟩ := hs.exists_evolution events hv
  refine ⟨table, htable, fun key => ?_⟩
  obtain ⟨hread, passages, hevolution, hsub, hpasses, hall⟩ := hrows key
  refine ⟨h.row key, hread, fun id hid => ?_⟩
  obtain ⟨cell, hcell, _⟩ := (View.rowKey?_eq_some_iff hp).mp hid
  obtain ⟨base, promoted⟩ := id
  obtain rfl : base = key := (View.base_of_rowKey? hid).trans (History.key_row h key)
  refine ⟨cell, hcell, ?_⟩
  rw [ViewTable.isVisible_eq, ViewTable.shows, if_pos (View.isStrict_of_promoted hp)]
  refine (hevolution.isSome_marker_iff hp (passage_le ht hsub) hid hcell).trans (not_congr ?_)
  constructor
  · rintro ⟨q, hq, hwithdraws⟩
    exact ⟨q, hpasses q hq, hwithdraws⟩
  · rintro ⟨q, hq, hwithdraws⟩
    refine ⟨q, (hall q hq).resolve_left fun hsame => ?_, hwithdraws⟩
    obtain ⟨hbefore, hafter, _⟩ := hwithdraws
    rw [hsame] at hbefore
    exact hafter hbefore

/-- An order that takes its first status again later is shown, and so it never left this status at the
    later time. -/
theorem not_withdraws_of_later : ∃ table,
    (ordersEngine.run (.ofViews ordersEngine.views)
      [setStatus 2 5 1, setStatus 1 7 2, setStatus 2 8 3]).views.get? "orders_by_status" = some table ∧
    table.isVisible ⟨order, some [2]⟩ 3 = true ∧
    ¬ ∃ q, ordersEngine.Passes (.ofViews ordersEngine.views)
      [setStatus 2 5 1, setStatus 1 7 2, setStatus 2 8 3] order q ∧
        q.Withdraws ordersByStatus "status" ⟨order, some [2]⟩ 8 := by
  have hall : ([setStatus 2 5 1, setStatus 1 7 2, setStatus 2 8 3].filterMap Event.time?).all (· ≤ 3) =
      true := by decide
  have htimes : ∀ now ∈ [setStatus 2 5 1, setStatus 1 7 2, setStatus 2 8 3].filterMap Event.time?,
      now ≤ 3 := fun now hnow => of_decide_eq_true (List.all_eq_true.mp hall now hnow)
  obtain ⟨table, htable, hrows⟩ := fresh_orders.isVisible_iff (v := ordersByStatus)
    (List.mem_cons_of_mem _ List.mem_cons_self) rfl htimes
  obtain ⟨row, hread, hids⟩ := hrows order
  have hrow : (ordersEngine.run (.ofViews ordersEngine.views)
      [setStatus 2 5 1, setStatus 1 7 2, setStatus 2 8 3]).base.read order =
        .ok ((RowWrite.insert order 8).set "status" [2]).toRow := by decide +kernel
  obtain rfl := Except.ok.inj (hrow.symm.trans hread)
  obtain ⟨cell, hcell, hvisible⟩ := hids ⟨order, some [2]⟩ (by decide)
  obtain rfl : Cell.new 8 [2] = cell := Option.some.inj hcell
  have hshown : ((ordersEngine.run (.ofViews ordersEngine.views)
      [setStatus 2 5 1, setStatus 1 7 2, setStatus 2 8 3]).views.get? "orders_by_status").map
        (·.isVisible ⟨order, some [2]⟩ 3) = some true := by decide +kernel
  have hget : table.isVisible ⟨order, some [2]⟩ 3 = true := by
    change Option.map _ ((ordersEngine.run _ _).views.get? ordersByStatus.name) = _ at hshown
    rw [htable] at hshown
    exact Option.some.inj hshown
  exact ⟨table, htable, hget, hvisible.mp hget⟩

/-- An order that takes its first status again at the time at which it left it is not shown. -/
theorem not_isVisible_of_same_time :
    ordersEngine.Fresh (.ofViews ordersEngine.views) ∧ ordersByStatus ∈ ordersEngine.views ∧
    ([setStatus 2 5 1, setStatus 1 7 2, setStatus 2 7 3].filterMap Event.time? ++ [3]).Pairwise (· ≤ ·) ∧
    ∃ table row,
      (ordersEngine.run (.ofViews ordersEngine.views)
        [setStatus 2 5 1, setStatus 1 7 2, setStatus 2 7 3]).views.get? "orders_by_status" = some table ∧
      (ordersEngine.run (.ofViews ordersEngine.views)
        [setStatus 2 5 1, setStatus 1 7 2, setStatus 2 7 3]).base.read order = .ok row ∧
      ordersByStatus.rowKey? row 3 = some ⟨order, some [2]⟩ ∧
      table.isVisible ⟨order, some [2]⟩ 3 = false :=
  ⟨fresh_orders, List.mem_cons_of_mem _ List.mem_cons_self, by decide, _, _, rfl, rfl, by decide,
    by decide +kernel⟩

end Engine

end ViewMaintenance
