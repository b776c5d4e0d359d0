import Mathlib.Data.List.Induction
import ViewMaintenance.Engine.Run
import ViewMaintenance.Proofs.Engine.Step
import ViewMaintenance.Proofs.View.Evolution

namespace ViewMaintenance.Engine

/-- The stores before a run: an empty base table, and no rows in the tables under the names of the
    views, as far as there are such tables. -/
structure Blank (e : Engine) (s : Store) : Prop where
  base : s.base = ∅
  rows : ∀ v ∈ e.views, ∀ t, s.views.get? v.name = some t → t.rows = ∅

/-- The stores before a run: an empty base table, and an empty table for each view of the engine
    under a name of its own. -/
structure Fresh (e : Engine) (s : Store) : Prop where
  base : s.base = ∅
  names : (e.views.map View.name).Nodup
  table : ∀ v ∈ e.views, s.views.get? v.name = some (.new v)

theorem Fresh.blank {e : Engine} {s : Store} (hs : e.Fresh s) : e.Blank s := by
  refine ⟨hs.base, fun v hv t ht => ?_⟩
  rw [hs.table v hv] at ht
  obtain rfl := Option.some.inj ht
  rfl

/-- The empty stores of views with different names. -/
theorem fresh_ofViews {e : Engine} (hnames : (e.views.map View.name).Nodup) :
    e.Fresh (.ofViews e.views) := by
  refine ⟨rfl, hnames, fun v hv => ?_⟩
  have hfold {views : List View} (hnames : (views.map View.name).Nodup) (ts : ViewTables) {v : View}
      (hv : v ∈ views ∨ v.name ∉ views.map View.name ∧ ts.get? v.name = some (.new v)) :
      (views.foldl ViewTables.add ts).get? v.name = some (.new v) := by
    induction views generalizing ts with
    | nil => exact (hv.resolve_left List.not_mem_nil).2
    | cons w views ih =>
      obtain ⟨hfresh, hnames⟩ := List.nodup_cons.mp hnames
      refine ih hnames _ ?_
      have hadd : (ts.add w).get? v.name = if w.name = v.name then some (.new w) else ts.get? v.name :=
        ViewTables.get?_insert ts w.name (.new w) v.name
      rcases hv with hv | ⟨hother, htable⟩
      · rcases List.mem_cons.mp hv with rfl | hv
        · exact .inr ⟨hfresh, by rw [hadd, if_pos rfl]⟩
        · exact .inl hv
      · obtain ⟨hne, hother⟩ := not_or.mp (List.mem_cons.not.mp hother)
        exact .inr ⟨hother, by rw [hadd, if_neg (Ne.symm hne), htable]⟩
  exact hfold hnames ∅ (.inl hv)

theorem fresh_orders : ordersEngine.Fresh (.ofViews ordersEngine.views) :=
  fresh_ofViews (by decide)

/-- A mutation of the run took the base row of a key from one state to the next. -/
def Passes (e : Engine) (s : Store) (events : List Event) (key : RowKey) (q : Passage) : Prop :=
  ∃ earlier m later, events = earlier ++ .apply m q.now :: later ∧
    (e.run s earlier).base.read key = .ok q.before ∧
    (e.run s (earlier ++ [.apply m q.now])).base.read key = .ok q.after

variable {e : Engine} {s : Store} {events : List Event} {key : RowKey} {q : Passage}

theorem run_append_singleton (e : Engine) (s : Store) (events : List Event) (ev : Event) :
    e.run s (events ++ [ev]) = e.after (e.run s events) ev := by
  rw [run, run, List.foldl_append]
  rfl

theorem Passes.append (h : e.Passes s events key q) (ev : Event) :
    e.Passes s (events ++ [ev]) key q := by
  obtain ⟨earlier, m, later, rfl, hbefore, hafter⟩ := h
  exact ⟨earlier, m, later ++ [ev], by simp, hbefore, hafter⟩

theorem passes_append_iff {ev : Event} : e.Passes s (events ++ [ev]) key q ↔
    e.Passes s events key q ∨ ∃ m, ev = .apply m q.now ∧
      (e.run s events).base.read key = .ok q.before ∧
      (e.run s (events ++ [ev])).base.read key = .ok q.after := by
  constructor
  · rintro ⟨earlier, m, later, heq, hbefore, hafter⟩
    rcases List.eq_nil_or_concat later with rfl | ⟨later, last, rfl⟩
    · obtain ⟨rfl, hev⟩ := List.append_inj' heq rfl
      obtain rfl := (List.cons.inj hev).1
      exact .inr ⟨m, rfl, hbefore, hafter⟩
    · rw [List.concat_eq_append, ← List.cons_append, ← List.append_assoc] at heq
      obtain ⟨rfl, _⟩ := List.append_inj' heq rfl
      exact .inl ⟨earlier, m, later, rfl, hbefore, hafter⟩
  · rintro (h | ⟨m, rfl, hbefore, hafter⟩)
    · exact h.append ev
    · exact ⟨events, m, [], rfl, hbefore, hafter⟩

/-- The view rows of a base row have evolved with it in a run. -/
def Evolved (e : Engine) (s : Store) (events : List Event) (h : History) (v : View) (t : ViewTable)
    (key : RowKey) : Prop :=
  ∃ passages, v.Evolution key passages (h.row key) (fun promoted => t.row ⟨key, promoted⟩) ∧
    (passages.map Passage.now).Sublist (events.filterMap Event.time?) ∧
    (∀ q ∈ passages, e.Passes s events key q) ∧
    ∀ q, e.Passes s events key q → q.before = q.after ∨ q ∈ passages

theorem Evolved.of_reads {h : History} {v : View} {t : ViewTable}
    (hevolved : e.Evolved s events h v t key) {ev : Event}
    (hsame : (e.run s (events ++ [ev])).base.read key = (e.run s events).base.read key) :
    e.Evolved s (events ++ [ev]) h v t key := by
  obtain ⟨passages, hrun, hsub, hpasses, hall⟩ := hevolved
  refine ⟨passages, hrun, ?_, fun q hq => (hpasses q hq).append ev, fun q hq => ?_⟩
  · rw [List.filterMap_append]
    exact hsub.trans (List.sublist_append_left _ _)
  · rcases passes_append_iff.mp hq with hold | ⟨m, _, hbefore, hafter⟩
    · exact hall q hold
    · rw [hsame, hbefore] at hafter
      exact .inl (Except.ok.inj hafter)

theorem Evolved.step {h : History} {v : View} {t t' : ViewTable} {m : Mutation} {now : Timestamp}
    {intents : List Intent} (hevolved : e.Evolved s events h v t key)
    (hplans : v.Plans h now m intents) (hreceives : t.Receives intents t')
    (hbefore : (e.run s events).base.read key = .ok (h.row key))
    (hafter : (e.run s (events ++ [.apply m now])).base.read key =
      .ok (History.row (h ++ [m]) key)) :
    e.Evolved s (events ++ [.apply m now]) (h ++ [m]) v t' key := by
  obtain ⟨passages, hrun, hsub, hpasses, hall⟩ := hevolved
  obtain ⟨own, htransition, hown⟩ := hplans.transition key
  refine ⟨passages ++ [⟨now, h.row key, History.row (h ++ [m]) key⟩], ?_, ?_, fun q hq => ?_,
    fun q hq => ?_⟩
  · have hstored : (fun promoted => t'.row ⟨key, promoted⟩) = fun promoted =>
        Intent.written own ⟨key, promoted⟩ (t.row ⟨key, promoted⟩) := by
      funext promoted
      rw [hreceives.row, hown]
    rw [hstored]
    exact hrun.step htransition
  · rw [List.map_append, List.filterMap_append]
    exact hsub.append (.refl _)
  · rcases List.mem_append.mp hq with hq | hq
    · exact (hpasses q hq).append _
    · obtain rfl := List.mem_singleton.mp hq
      exact passes_append_iff.mpr (.inr ⟨m, rfl, hbefore, hafter⟩)
  · rcases passes_append_iff.mp hq with hold | ⟨m', heq, hb, ha⟩
    · exact (hall q hold).imp_right (List.mem_append_left _)
    · obtain ⟨rfl, rfl⟩ := Event.apply.inj heq
      rw [hbefore] at hb
      rw [hafter] at ha
      refine .inr (List.mem_append_right _ (List.mem_singleton.mpr ?_))
      rw [Except.ok.inj hb, Except.ok.inj ha]

/-- What a run makes of a view: its table stays, if it has one, and the view rows evolve with their
    base rows. -/
structure Tracked (e : Engine) (s : Store) (events : List Event) (h : History) (v : View) : Prop where
  view : ((e.run s events).views.get? v.name).map ViewTable.view =
    (s.views.get? v.name).map ViewTable.view
  evolved : ∀ t, (e.run s events).views.get? v.name = some t → ∀ key, e.Evolved s events h v t key

/-- An event that changes neither views nor reads is of no account. -/
theorem Tracked.of_reads {h : History} {v : View} (htracked : e.Tracked s events h v) {ev : Event}
    (hviews : (e.run s (events ++ [ev])).views = (e.run s events).views)
    (hreads : ∀ key, (e.run s (events ++ [ev])).base.read key = (e.run s events).base.read key) :
    e.Tracked s (events ++ [ev]) h v where
  view := by
    rw [hviews]
    exact htracked.view
  evolved t ht key := by
    rw [hviews] at ht
    exact (htracked.evolved t ht key).of_reads (hreads key)

/-- In every run the base table holds the accepted mutations, and the view rows of each base row
    evolve with it. -/
theorem Blank.run (hs : e.Blank s) (events : List Event) :
    ∃ h, e.Holds (e.run s events) h ∧ ∀ v, e.Maintains v → e.Tracked s events h v := by
  induction events using List.reverseRecOn with
  | nil =>
    have hempty {v : View} (hv : v ∈ e.views) {t : ViewTable} (ht : s.views.get? v.name = some t) :
        t = .new t.view := congrArg (ViewTable.mk t.view) (hs.rows v hv t ht)
    refine ⟨[], ⟨?_, fun v hv t ht => ?_⟩, fun v hv => ⟨rfl, fun t ht key => ?_⟩⟩
    · change s.base.Represents []
      rw [hs.base]
      exact BaseTable.represents_empty
    · rw [hempty hv ht]
      exact ViewTable.wellFormed_new _
    · rw [hempty hv.mem ht]
      refine ⟨[], ?_, .refl _, by simp, ?_⟩
      · rw [History.row_nil]
        exact .start
      · rintro q ⟨earlier, m, later, heq, _⟩
        simp at heq
  | append_singleton events ev ih =>
    obtain ⟨h, hholds, htracked⟩ := ih
    have hread := fun key => hholds.base.read key
    have hlast := e.run_append_singleton s events ev
    cases ev with
    | flush =>
      have hflush := hholds.base.flush
      refine ⟨h, ?_, fun v hv => (htracked v hv).of_reads ?_ fun key => ?_⟩
      · rw [hlast]
        exact ⟨hflush, hholds.table⟩
      · rw [hlast]
        rfl
      · rw [hlast, hread key]
        exact hflush.read key
    | apply m now =>
      rcases apply_cases hholds m now with
        ⟨err, happly⟩ | ⟨updates, s', happly, hholds', hreceives, hplans⟩
      · have hsame : e.run s (events ++ [.apply m now]) = e.run s events := by
          rw [hlast, after, happly]
        refine ⟨h, hsame ▸ hholds, fun v hv => (htracked v hv).of_reads ?_ fun key => ?_⟩ <;>
          rw [hsame]
      · have hafter : e.run s (events ++ [.apply m now]) = s' := by rw [hlast, after, happly]
        refine ⟨h ++ [m], hafter ▸ hholds', fun v hv => ⟨?_, fun t' ht' key => ?_⟩⟩
        · rw [hafter, hreceives.map_view (hholds.table v hv.mem)]
          exact (htracked v hv).view
        · rw [hafter] at ht'
          obtain ⟨t, ht, hrows⟩ := hreceives.exists_table (hholds.table v hv.mem) ht'
          obtain ⟨intents, hplans, hmem⟩ := hplans v hv
          have hown := hrows.of_mem_iff (hholds.table v hv.mem t ht) hmem
          refine ((htracked v hv).evolved t ht key).step hplans hown (hread key) ?_
          rw [hafter]
          exact hholds'.base.read key

end ViewMaintenance.Engine
