import ViewMaintenance.Engine.Run
import ViewMaintenance.Proofs.Engine.Partition
import ViewMaintenance.Proofs.Engine.Run

namespace ViewMaintenance

namespace Event

/-- The mutation and the reference time with which the engine is called. -/
def call? : Event → Option (Mutation × Timestamp)
  | apply m now => some (m, now)
  | flush => none

/-- The events of a run that is never flushed. -/
def ofCalls (calls : List (Mutation × Timestamp)) : List Event :=
  calls.map fun (m, now) => .apply m now

end Event

/-- Two base tables hold one history, on levels of their own, and the views are the same. -/
structure Store.SameRows (s s' : Store) : Prop where
  base : ∃ h, s.base.Represents h ∧ s'.base.Represents h
  views : s.views = s'.views

namespace Store.SameRows

variable {s s' : Store} {e : Engine}

theorem agreeOn (h : s.SameRows s') (partition : Bytes) : s.base.AgreeOn partition s'.base := by
  obtain ⟨⟨g, hbase, hbase'⟩, _⟩ := h
  exact hbase.agreeOn hbase' fun _ _ => ⟨rfl, Iff.rfl⟩

theorem flush (h : s.SameRows s') : s.flush.SameRows s' := by
  obtain ⟨⟨g, hbase, hbase'⟩, hviews⟩ := h
  exact ⟨⟨g, hbase.flush, hbase'⟩, hviews⟩

/-- A mutation has the same result on both stores, and leaves both with the same rows. -/
theorem apply (h : s.SameRows s') (m : Mutation) (now : Timestamp) :
    (e.apply .none m now s).1 = (e.apply .none m now s').1 ∧
      (e.apply .none m now s).2.SameRows (e.apply .none m now s').2 := by
  have hupdates : e.updates s.base.reader m now = e.updates s'.base.reader m now :=
    Engine.updates_eq_of_agreeOn (h.agreeOn m.partition)
  cases hresult : e.updates s.base.reader m now with
  | error err =>
    rw [Engine.apply_of_updates_error hresult,
      Engine.apply_of_updates_error (hupdates.symm.trans hresult)]
    exact ⟨rfl, h⟩
  | ok updates =>
    have hresult' := hupdates.symm.trans hresult
    cases hviews : s.views.apply updates with
    | error err =>
      have hviews' : s'.views.apply updates = .error err := h.views ▸ hviews
      rw [Engine.apply_of_views_error hresult hviews, Engine.apply_of_views_error hresult' hviews']
      exact ⟨rfl, h⟩
    | ok views =>
      have hviews' : s'.views.apply updates = .ok views := h.views ▸ hviews
      obtain ⟨g, hbase, hbase'⟩ := h.base
      obtain ⟨t, happly, ht⟩ := hbase.apply m
      obtain ⟨t', happly', ht'⟩ := hbase'.apply m
      rw [Engine.apply_of_ok hresult hviews happly, Engine.apply_of_ok hresult' hviews' happly']
      exact ⟨rfl, ⟨_, ht, ht'⟩, rfl⟩

/-- A run does on one store what its calls alone do on the other. -/
theorem run (h : s.SameRows s') (events : List Event) :
    e.results s events = e.results s' (Event.ofCalls (events.filterMap Event.call?)) ∧
      (e.run s events).SameRows (e.run s' (Event.ofCalls (events.filterMap Event.call?))) := by
  induction events generalizing s s' with
  | nil => exact ⟨rfl, h⟩
  | cons ev events ih =>
    cases ev with
    | flush => exact ih h.flush
    | apply m now =>
      obtain ⟨hresult, hnext⟩ := h.apply (e := e) m now
      obtain ⟨hresults, hrun⟩ := ih hnext
      exact ⟨congrArg₂ List.cons hresult hresults, hrun⟩

end Store.SameRows

namespace Engine

/-- Runs with the same calls have the same results and leave the same view tables and base rows,
    wherever they are flushed. -/
theorem run_eq_of_calls_eq (e : Engine) {s : Store} (hs : s.base.Reachable) {a b : List Event}
    (hcalls : a.filterMap Event.call? = b.filterMap Event.call?) :
    e.results s a = e.results s b ∧ (e.run s a).views = (e.run s b).views ∧
      (∀ key, (e.run s a).base.read key = (e.run s b).base.read key) ∧
      ∀ partition range,
        (e.run s a).base.scan partition range = (e.run s b).base.scan partition range := by
  obtain ⟨h, hbase⟩ := hs.exists_represents
  have hself : s.SameRows s := ⟨⟨h, hbase, hbase⟩, rfl⟩
  obtain ⟨hresults, hrun⟩ := hself.run (e := e) a
  obtain ⟨hresults', hrun'⟩ := hself.run (e := e) b
  rw [← hcalls] at hresults' hrun'
  refine ⟨hresults.trans hresults'.symm, hrun.views.trans hrun'.views.symm, fun key => ?_,
    fun partition range => ?_⟩
  · rw [(hrun.agreeOn key.partition).read key rfl, (hrun'.agreeOn key.partition).read key rfl]
  · rw [(hrun.agreeOn partition).scan range, (hrun'.agreeOn partition).scan range]

/-- Whether the table is flushed between the writes of an order and its deletion shows in the levels
    only. -/
theorem run_eq_of_flushed_order :
    let written := [setStatus 2 5 1, setStatus 1 7 2,
      .apply (.deletePartition order.partition ⟨6⟩) 3]
    let flushed := [setStatus 2 5 1, .flush, setStatus 1 7 2, .flush,
      .apply (.deletePartition order.partition ⟨6⟩) 3]
    let s := Store.ofViews ordersEngine.views
    ordersEngine.results s written = ordersEngine.results s flushed ∧
      (ordersEngine.run s written).views = (ordersEngine.run s flushed).views ∧
      (ordersEngine.run s written).base.read order = (ordersEngine.run s flushed).base.read order ∧
      (ordersEngine.run s written).base ≠ (ordersEngine.run s flushed).base := by
  intro written flushed s
  have hcalls : written.filterMap Event.call? = flushed.filterMap Event.call? := rfl
  obtain ⟨hresults, hviews, hread, _⟩ :=
    ordersEngine.run_eq_of_calls_eq (s := s) BaseTable.Reachable.empty hcalls
  exact ⟨hresults, hviews, hread order, by decide +kernel⟩

end Engine

end ViewMaintenance
