import ViewMaintenance.Proofs.Engine.Consistency

namespace ViewMaintenance.Engine

variable {e : Engine} {s s' : Store} {v : View} {events : List Event} {t : Timestamp}

/-- After a run that was not refused anything, the base table holds all mutations of the run. -/
theorem represents_run {h : History} (hbase : s.base.Represents h)
    (hok : ∀ result ∈ e.results s events, result.isOk = true) :
    (e.run s events).base.Represents (h ++ events.filterMap Event.mutation?) := by
  induction events generalizing s h with
  | nil => exact (List.append_nil h).symm ▸ hbase
  | cons ev events ih =>
    cases ev with
    | flush => exact ih hbase.flush hok
    | apply m now =>
      have hfirst : (e.apply .none m now s).1.isOk = true := hok _ List.mem_cons_self
      have hrest : ∀ result ∈ e.results (e.apply .none m now s).2 events, result.isOk = true :=
        fun result hresult => hok result (List.mem_cons_of_mem _ hresult)
      obtain ⟨err, happly⟩ | ⟨updates, views, base, _, _, hrepresents, happly⟩ :=
        e.apply_outcome hbase m now
      · rw [happly] at hfirst
        cases hfirst
      · rw [happly] at hrest
        have hrun := ih hrepresents hrest
        rw [List.append_assoc] at hrun
        rw [run, List.foldl_cons, after, happly]
        exact hrun

/-- What the table of a view without promoted column shows is determined by the base rows. -/
theorem Blank.get?_read (hs : e.Blank s) (hv : e.Maintains v) (hp : v.promoted = none)
    (htable : s.views.get? v.name = some (.new v))
    (ht : ∀ now ∈ events.filterMap Event.time?, now ≤ t) :
    ∃ table, (e.run s events).views.get? v.name = some table ∧
      ∀ id row, (e.run s events).base.read id.base = .ok row → (table.read t).get? id =
        if id.promoted = none ∧ row.isPresent t = true then some (v.liveColumns row t) else none := by
  have hstrict : v.isStrict = false := by simp [View.isStrict, hp]
  obtain ⟨h, hholds, htracked⟩ := hs.run events
  have hview := (htracked v hv).view
  rw [htable, Option.map_some, Option.map_eq_some_iff] at hview
  obtain ⟨table, hget, hview⟩ := hview
  obtain rfl : table.view = v := hview
  refine ⟨table, hget, fun id row hread => ?_⟩
  obtain ⟨key, promoted⟩ := id
  obtain rfl : h.row key = row := Except.ok.inj ((hholds.base.read key).symm.trans hread)
  obtain ⟨passages, hevolution, hsub, _⟩ := (htracked _ hv).evolved table hget key
  have hagrees := hevolution.agrees hstrict (passage_le ht hsub)
  have hshows (r : Row) : table.shows r t = r.isPresent t := by simp [ViewTable.shows, hstrict]
  rw [ViewTable.get?_read]
  cases promoted with
  | none =>
    rw [hshows, View.isPresent_eq_of_agrees hstrict hevolution.unknownColumn? hagrees,
      View.liveColumns_eq_of_agrees hagrees]
    simp
  | some value =>
    rw [hevolution.stored_some hstrict, ViewTable.shows_empty]
    simp

/-- Runs from empty stores that carry the same data without a refusal leave the same base rows.
    The tables of views that own their names and have no promoted column show the same at every
    time that is not before a reference time of the runs. -/
theorem run_eq_of_sameData (hs : e.Blank s) (hs' : e.Blank s') {a b : List Event}
    (ha : ∀ result ∈ e.results s a, result.isOk = true)
    (hb : ∀ result ∈ e.results s' b, result.isOk = true)
    (hdata : History.SameData (a.filterMap Event.mutation?) (b.filterMap Event.mutation?)) :
    (∀ key, ∃ row, (e.run s a).base.read key = .ok row ∧ (e.run s' b).base.read key = .ok row) ∧
    ∀ v, e.Maintains v → v.promoted = none → s.views.get? v.name = some (.new v) →
      s'.views.get? v.name = some (.new v) → ∀ t,
        (∀ now ∈ (a ++ b).filterMap Event.time?, now ≤ t) →
        ∃ x y, (e.run s a).views.get? v.name = some x ∧ (e.run s' b).views.get? v.name = some y ∧
          x.read t = y.read t := by
  have hbase : s.base.Represents [] := hs.base ▸ BaseTable.represents_empty
  have hbase' : s'.base.Represents [] := hs'.base ▸ BaseTable.represents_empty
  have hread (key : RowKey) : (e.run s a).base.read key =
      .ok (History.row (a.filterMap Event.mutation?) key) := (represents_run hbase ha).read key
  have hread' (key : RowKey) : (e.run s' b).base.read key = .ok (History.row _ key) :=
    (hdata.row key) ▸ (represents_run hbase' hb).read key
  refine ⟨fun key => ⟨_, hread key, hread' key⟩, fun v hv hp htable htable' t ht => ?_⟩
  rw [List.filterMap_append] at ht
  obtain ⟨x, hx, hshown⟩ := hs.get?_read hv hp htable fun now hnow =>
    ht now (List.mem_append_left _ hnow)
  obtain ⟨y, hy, hshown'⟩ := hs'.get?_read hv hp htable' fun now hnow =>
    ht now (List.mem_append_right _ hnow)
  refine ⟨x, y, hx, hy, SortedMap.ext_get? fun id => ?_⟩
  rw [hshown id _ (hread id.base), hshown' id _ (hread' id.base)]

/-- An order is written at once and its partition deleted up to an earlier time. -/
def orderAtOnce : List Event :=
  [setStatus 2 5 1, .apply (.deletePartition order.partition ⟨4⟩) 2]

/-- The same in parts, in another order, with a flush and a repetition. -/
def orderInParts : List Event :=
  [.apply (.deletePartition order.partition ⟨4⟩) 3,
    .apply ((RowWrite.update order 5).set "status" [2]).toMutation 1, .flush,
    .apply (RowWrite.insert order 5).toMutation 7,
    .apply ((RowWrite.update order 5).set "status" [2]).toMutation 7]

theorem sameData_orderInParts : History.SameData (orderAtOnce.filterMap Event.mutation?)
    (orderInParts.filterMap Event.mutation?) where
  deleteRange partition range deletion := by
    simp [orderAtOnce, orderInParts, setStatus, Event.mutation?, RowWrite.toMutation]
  deletePartition partition deletion := by
    simp [orderAtOnce, orderInParts, setStatus, Event.mutation?, RowWrite.toMutation]
  fragment key := by
    by_cases hkey : order = key
    · subst hkey
      decide +kernel
    · simp [History.fragment, orderAtOnce, orderInParts, setStatus, Event.mutation?,
        List.filterMap_cons, RowWrite.toMutation, RowWrite.toRow, RowWrite.insert, RowWrite.update,
        RowWrite.set, Mutation.fragmentOf?, hkey]

/-- Both runs show the order to the view of all orders. -/
theorem run_eq_of_order_in_parts : ∃ x y,
    (ordersEngine.run (.ofViews ordersEngine.views) orderAtOnce).views.get? "all_orders" = some x ∧
    (ordersEngine.run (.ofViews ordersEngine.views) orderInParts).views.get? "all_orders" = some y ∧
    x.read 7 = y.read 7 ∧ ((x.read 7).get? ⟨order, none⟩).isSome = true := by
  have hok : (ordersEngine.results (.ofViews ordersEngine.views) orderAtOnce).all Except.isOk = true := by
    decide +kernel
  have hok' : (ordersEngine.results (.ofViews ordersEngine.views) orderInParts).all Except.isOk = true := by
    decide +kernel
  have htimes : ((orderAtOnce ++ orderInParts).filterMap Event.time?).all (· ≤ 7) = true := by decide
  have hshown : ((ordersEngine.run (.ofViews ordersEngine.views) orderAtOnce).views.get?
      "all_orders").any (fun x => ((x.read 7).get? ⟨order, none⟩).isSome) = true := by decide +kernel
  have hv := maintains_of_nodup fresh_orders.names (v := allOrders) List.mem_cons_self
  have htable := fresh_orders.table allOrders List.mem_cons_self
  obtain ⟨_, hviews⟩ := run_eq_of_sameData fresh_orders.blank fresh_orders.blank
    (List.all_eq_true.mp hok) (List.all_eq_true.mp hok') sameData_orderInParts
  obtain ⟨x, y, hx, hy, hsame⟩ := hviews allOrders hv rfl htable htable 7 fun now hnow =>
    of_decide_eq_true (List.all_eq_true.mp htimes now hnow)
  refine ⟨x, y, hx, hy, hsame, ?_⟩
  change ((ordersEngine.run _ _).views.get? allOrders.name).any _ = true at hshown
  rw [hx] at hshown
  exact hshown

end ViewMaintenance.Engine
