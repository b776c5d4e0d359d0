import ViewMaintenance.Engine.Run
import ViewMaintenance.Proofs.Engine.Step
import ViewMaintenance.Proofs.Store.Batches

namespace ViewMaintenance

/-- The stores that come of empty ones: of the base table by mutations and flushes, of the views by
    batches of updates and by views that are added. -/
structure Store.Reachable (s : Store) : Prop where
  base : s.base.Reachable
  views : s.views.Reachable

namespace Store.Reachable

variable {s : Store}

theorem exists_holds (hs : s.Reachable) (e : Engine) : ∃ h, e.Holds s h := by
  obtain ⟨h, hbase⟩ := hs.base.exists_represents
  exact ⟨h, hbase, fun v _ => hs.views.wellFormed v.name⟩

theorem ofViews (views : List View) : (Store.ofViews views).Reachable := by
  have hviews (ts : ViewTables) (hts : ts.Reachable) : (views.foldl ViewTables.add ts).Reachable := by
    induction views generalizing ts with
    | nil => exact hts
    | cons v views ih => exact ih _ (hts.add v)
  exact ⟨.empty, hviews ∅ .empty⟩

theorem apply (hs : s.Reachable) (e : Engine) (m : Mutation) (now : Timestamp) :
    (e.apply .none m now s).2.Reachable := by
  cases hupdates : e.updates s.base.reader m now with
  | error err =>
    rw [Engine.apply_of_updates_error hupdates]
    exact hs
  | ok updates =>
    cases hviews : s.views.apply updates with
    | error err =>
      rw [Engine.apply_of_views_error hupdates hviews]
      exact hs
    | ok views =>
      obtain ⟨h, hbase⟩ := hs.base.exists_represents
      obtain ⟨base, happly, _⟩ := hbase.apply m
      rw [Engine.apply_of_ok hupdates hviews happly]
      exact ⟨hs.base.apply happly, hs.views.apply hviews⟩

theorem flush (hs : s.Reachable) : s.flush.Reachable := ⟨hs.base.flush, hs.views⟩

theorem run (hs : s.Reachable) (e : Engine) (events : List Event) : (e.run s events).Reachable := by
  induction events generalizing s with
  | nil => exact hs
  | cons ev events ih =>
    cases ev with
    | apply m now => exact ih (hs.apply e m now)
    | flush => exact ih hs.flush

end Store.Reachable

/-- What is looked at before a mutation at a reference time. -/
inductive Inspection
  /-- The two states of the row that a fragment is merged into. -/
  | row (d : Delta)
  /-- The rows that a deletion reaches. -/
  | range (rows : List Row) (deletion : Deletion) (now : Timestamp)

namespace Inspection

/-- The rows that have to fit the schemas of the views. -/
def rows : Inspection → List Row
  | row d => [d.before, d.after]
  | range rows _ _ => rows

/-- What follows for a view whose schema the rows fit. -/
def intents (i : Inspection) (v : View) : List Intent :=
  match i with
  | row d => v.intents (v.rowKey? d.before d.now) (v.rowKey? d.after d.now) d
  | range rows x now => v.deletions rows x now

/-- What a view plans. -/
def plan (i : Inspection) (v : View) : Except UnknownColumn (List Intent) :=
  match i.rows.findSome? v.unknownColumn? with
  | some u => .error u
  | none => .ok (i.intents v)

theorem plan_row (d : Delta) (v : View) : (row d).plan v = v.rowIntents d := by
  have hfind : (row d).rows.findSome? v.unknownColumn? =
      (v.unknownColumn? d.before).or (v.unknownColumn? d.after) := by
    rw [rows, List.findSome?_cons, List.findSome?_singleton]
    cases v.unknownColumn? d.before <;> rfl
  rw [plan, hfind, View.rowIntents]
  rfl

/-- The first column that the schema of a view does not know, by the order of the views, of the rows
    and of the columns. -/
def unknownColumn? (i : Inspection) (views : List View) : Option UnknownColumn :=
  views.findSome? fun v => i.rows.findSome? v.unknownColumn?

/-- The updates of all views that have something to change. -/
def updates (i : Inspection) (views : List View) : List ViewUpdate :=
  (views.map fun v => ⟨v.name, i.intents v⟩).filter fun u => !u.isEmpty

theorem mapM_plan (i : Inspection) (views : List View) :
    (views.mapM fun v => ((i.plan v).mapError EngineError.unknownColumn).map
      fun intents => ViewUpdate.mk v.name intents) =
        match i.unknownColumn? views with
        | some u => .error (.unknownColumn u)
        | none => .ok (views.map fun v => ⟨v.name, i.intents v⟩) := by
  induction views with
  | nil => rfl
  | cons v views ih =>
    have hcons : i.unknownColumn? (v :: views) =
        (i.rows.findSome? v.unknownColumn?).or (i.unknownColumn? views) := by
      rw [unknownColumn?, List.findSome?_cons]
      cases i.rows.findSome? v.unknownColumn? <;> rfl
    rw [List.mapM_cons, ih, hcons, plan]
    cases i.rows.findSome? v.unknownColumn? with
    | some u => rfl
    | none =>
      cases i.unknownColumn? views <;> rfl

theorem intentsFor_updates (i : Inspection) (views : List View) (name : String) :
    ViewTables.intentsFor (i.updates views) name =
      (views.filter (·.name = name)).flatMap i.intents := by
  rw [updates, ViewTables.intentsFor_filter]
  induction views with
  | nil => rfl
  | cons v views ih =>
    rw [List.map_cons, ViewTables.intentsFor_cons, ih]
    by_cases hname : v.name = name <;> simp [hname]

theorem mem_intentsFor_updates_iff {i : Inspection} {views : List View} {name : String}
    {intent : Intent} : intent ∈ ViewTables.intentsFor (i.updates views) name ↔
      ∃ v ∈ views, v.name = name ∧ intent ∈ i.intents v := by
  simp only [intentsFor_updates, List.mem_flatMap, List.mem_filter, decide_eq_true_eq, and_assoc]

theorem exists_update_iff {i : Inspection} {views : List View} {name : String} :
    (∃ u ∈ i.updates views, u.view = name) ↔ ∃ v ∈ views, v.name = name ∧ i.intents v ≠ [] := by
  simp only [updates, List.mem_filter, List.mem_map]
  constructor
  · rintro ⟨_, ⟨⟨v, hv, rfl⟩, hnonempty⟩, rfl⟩
    exact ⟨v, hv, rfl, by simpa [ViewUpdate.isEmpty] using hnonempty⟩
  · rintro ⟨v, hv, rfl, hintents⟩
    exact ⟨_, ⟨⟨v, hv, rfl⟩, by simpa [ViewUpdate.isEmpty] using hintents⟩, rfl⟩

end Inspection

namespace BaseTable

/-- What a base table gives to look at before a mutation. -/
inductive Inspects (t : BaseTable) (now : Timestamp) : Mutation → Inspection → Prop
  | row {f : Row} {d : Delta} (hbefore : t.read f.key = .ok d.before)
      (hafter : d.before.merge f = .ok d.after) (hnow : d.now = now) :
      Inspects t now (.row f) (.row d)
  | range {m : Mutation} {partition : Bytes} {range : ClusteringRange} {x : Deletion}
      {rows : List Row} (hm : m.scan? = some (partition, range, x))
      (hscan : t.scan partition range = .ok (rows.map .ok)) : Inspects t now m (.range rows x now)

variable {t : BaseTable} {h : History} {now : Timestamp}

/-- What a scan gives are the rows of the history for the keys of the range that were written, in key
    order. -/
theorem Represents.rows_of_scan (ht : t.Represents h) {partition : Bytes} {range : ClusteringRange}
    {rows : List Row} (hscan : t.scan partition range = .ok (rows.map .ok)) :
    rows.Pairwise (fun a b => compare a.key b.key = .lt) ∧
      (∀ key, (∃ row ∈ rows, row.key = key) ↔
        key.partition = partition ∧ range.contains key.clustering ∧ h.Writes key) ∧
      ∀ row ∈ rows, row = h.row row.key := by
  obtain ⟨found, hfound, hrows⟩ := ht.scan partition range
  have hinjective : Function.Injective (Except.ok : Row → RowResult) := fun _ _ => Except.ok.inj
  have hsame : rows = found :=
    List.map_injective_iff.mpr hinjective (Except.ok.inj (hscan.symm.trans hfound))
  exact hsame ▸ hrows

/-- A fragment is looked at together with the row of its key before and after it. -/
theorem Represents.delta_of_inspects (ht : t.Represents h) {f : Row} {i : Inspection}
    (hi : t.Inspects now (.row f) i) : ∃ d : Delta, i = .row d ∧ d.now = now ∧
      d.before = h.row f.key ∧ d.after = History.row (h ++ [.row f]) f.key := by
  cases hi with
  | @row _ d hbefore hafter hnow =>
    have hrow : d.before = h.row f.key := Except.ok.inj (hbefore.symm.trans (ht.read f.key))
    have hself : (Mutation.row f).fragmentOf? f.key = some f := by simp [Mutation.fragmentOf?]
    rw [hrow, Row.merge_eq_ok (History.key_row h f.key)] at hafter
    exact ⟨d, rfl, hnow, hrow, by rw [History.row_append_of_fragment hself, Except.ok.inj hafter]⟩
  | range hm => cases hm

/-- A base table with a history gives something to look at before every mutation. -/
theorem Represents.exists_inspects (ht : t.Represents h) (m : Mutation) (now : Timestamp) :
    ∃ i, t.Inspects now m i := by
  have hdeletion {m : Mutation} {partition : Bytes} {range : ClusteringRange} {x : Deletion}
      (hm : m.scan? = some (partition, range, x)) : ∃ i, t.Inspects now m i := by
    obtain ⟨rows, hscan, _⟩ := ht.scan partition range
    exact ⟨_, .range hm hscan⟩
  cases m with
  | row f =>
    have hmerge : (h.row f.key).merge f = .ok ((h.row f.key).join f) :=
      Row.merge_eq_ok (History.key_row h f.key)
    exact ⟨.row ⟨h.row f.key, (h.row f.key).join f, now, rfl⟩, .row (ht.read f.key) hmerge rfl⟩
  | deleteRange | deletePartition => exact hdeletion rfl

end BaseTable

namespace Engine

variable {e : Engine} {t : BaseTable} {now : Timestamp} {m : Mutation} {i : Inspection}

/-- The updates of an engine follow from what it looks at. -/
theorem updates_eq (hi : t.Inspects now m i) : e.updates t.reader m now =
    match i.unknownColumn? e.views with
    | some u => .error (.unknownColumn u)
    | none => .ok (i.updates e.views) := by
  have hfinish {all : Except EngineError (List ViewUpdate)}
      (hall : all = e.views.mapM fun v => ((i.plan v).mapError EngineError.unknownColumn).map
        fun intents => ViewUpdate.mk v.name intents) :
      (all.map fun us => us.filter fun u => !u.isEmpty) =
        match i.unknownColumn? e.views with
        | some u => .error (.unknownColumn u)
        | none => .ok (i.updates e.views) := by
    rw [hall, Inspection.mapM_plan]
    cases i.unknownColumn? e.views <;> rfl
  cases hi with
  | @row f d hbefore hafter hnow =>
    subst hnow
    refine hfinish ((rowUpdates_eq_mapM hbefore hafter).trans ?_)
    simp only [Inspection.plan_row]
  | @range _ _ _ x rows hm hscan =>
    cases m with
    | row f => cases hm
    | deleteRange | deletePartition =>
      cases hm
      exact hfinish (deletionUpdates_eq_mapM hscan x now)

variable {s : Store} {h : History}

/-- What an engine looks at decides: the mutation is refused for an unknown column, or else for a view
    without a table, or else it is taken. -/
theorem apply_of_inspects (hs : e.Holds s h) (hi : s.base.Inspects now m i) :
    (∃ u, i.unknownColumn? e.views = some u ∧
      e.apply .none m now s = (.error (.unknownColumn u), s)) ∨
    i.unknownColumn? e.views = none ∧
      ((∃ u, (i.updates e.views).find? (fun u => (s.views.get? u.view).isNone) = some u ∧
        e.apply .none m now s = (.error (.store (.unknownView u.view)), s)) ∨
      (∀ u ∈ i.updates e.views, (s.views.get? u.view).isSome) ∧
        ∃ s', e.apply .none m now s = (.ok (i.updates e.views), s') ∧ e.Holds s' (h ++ [m]) ∧
          s.views.Receives (i.updates e.views) s'.views) := by
  have hupdates := e.updates_eq hi
  cases hunknown : i.unknownColumn? e.views with
  | some u =>
    rw [hunknown] at hupdates
    exact .inl ⟨u, rfl, apply_of_updates_error hupdates⟩
  | none =>
    rw [hunknown] at hupdates
    refine .inr ⟨rfl, ?_⟩
    cases hfind : (i.updates e.views).find? fun u => (s.views.get? u.view).isNone with
    | some u =>
      have hviews : s.views.apply (i.updates e.views) = .error (.unknownView u.view) := by
        rw [ViewTables.apply, hfind]
      exact .inl ⟨u, rfl, apply_of_views_error hupdates hviews⟩
    | none =>
      have hsome : ∀ u ∈ i.updates e.views, (s.views.get? u.view).isSome := fun u hu => by
        simpa [Option.isSome_iff_ne_none] using List.find?_eq_none.mp hfind u hu
      have hknown : ∀ u ∈ i.updates e.views, s.views.Knows u.view := by
        intro u hu
        obtain ⟨t, ht⟩ := Option.isSome_iff_exists.mp (hsome u hu)
        obtain ⟨v, hv, hname, _⟩ := Inspection.exists_update_iff.mp ⟨u, hu, rfl⟩
        exact ⟨t, ht, hs.table v hv t (hname ▸ ht)⟩
      obtain ⟨views, hviews, hreceives⟩ := ViewTables.apply_of_knows hknown
      obtain ⟨base, hbase, hrepresents⟩ := hs.base.apply m
      refine .inr ⟨hsome, ⟨base, views⟩, apply_of_ok hupdates hviews hbase, ⟨hrepresents, ?_⟩, hreceives⟩
      intro v hv t' ht'
      obtain ⟨_, _, hrows⟩ := hreceives.exists_table (hs.table v hv) ht'
      exact hrows.wellFormed

/-- A mutation that was taken had known columns only, and a table for each view with intents. -/
theorem inspected_of_apply (hs : e.Holds s h) (hi : s.base.Inspects now m i)
    {updates : List ViewUpdate} {s' : Store} (happly : e.apply .none m now s = (.ok updates, s')) :
    (∀ v ∈ e.views, ∀ r ∈ i.rows, v.unknownColumn? r = none) ∧
      (∀ v ∈ e.views, i.intents v ≠ [] → (s.views.get? v.name).isSome) ∧
      updates = i.updates e.views ∧ e.Holds s' (h ++ [m]) ∧
      s.views.Receives (i.updates e.views) s'.views := by
  rcases apply_of_inspects hs hi with
    ⟨_, _, hresult⟩ | ⟨hunknown, ⟨_, _, hresult⟩ | ⟨hsome, _, hresult, hholds, hreceives⟩⟩ <;>
    rw [happly] at hresult
  · cases hresult
  · cases hresult
  obtain ⟨hupdates, rfl⟩ := Prod.mk.inj hresult
  refine ⟨fun v hv => List.findSome?_eq_none_iff.mp (List.findSome?_eq_none_iff.mp hunknown v hv),
    fun v hv hintents => ?_, Except.ok.inj hupdates, hholds, hreceives⟩
  obtain ⟨u, hu, hview⟩ := Inspection.exists_update_iff.mpr ⟨v, hv, rfl, hintents⟩
  exact hview ▸ hsome u hu

/-- A mutation with known columns only, and a table for each view with intents, is taken. -/
theorem apply_of_known (hs : e.Holds s h) (hi : s.base.Inspects now m i)
    (hknown : ∀ v ∈ e.views, ∀ r ∈ i.rows, v.unknownColumn? r = none)
    (htable : ∀ v ∈ e.views, i.intents v ≠ [] → (s.views.get? v.name).isSome) :
    ∃ s', e.apply .none m now s = (.ok (i.updates e.views), s') := by
  rcases apply_of_inspects hs hi with
    ⟨u, hunknown, _⟩ | ⟨_, ⟨u, hfind, _⟩ | ⟨_, s', hresult, _⟩⟩
  · have hnone : i.unknownColumn? e.views = none :=
      List.findSome?_eq_none_iff.mpr fun v hv => List.findSome?_eq_none_iff.mpr (hknown v hv)
    rw [hnone] at hunknown
    cases hunknown
  · obtain ⟨v, hv, hname, hintents⟩ :=
      Inspection.exists_update_iff.mp ⟨u, List.mem_of_find?_eq_some hfind, rfl⟩
    have hsome := htable v hv hintents
    rw [hname, Option.isSome_iff_ne_none] at hsome
    exact absurd (by simpa using List.find?_some hfind) hsome
  · exact ⟨s', hresult⟩

end Engine

end ViewMaintenance
