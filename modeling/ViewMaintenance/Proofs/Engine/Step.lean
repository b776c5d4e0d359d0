import Mathlib.Data.List.Forall2
import Mathlib.Data.List.Nodup
import ViewMaintenance.Engine.Run
import ViewMaintenance.Proofs.View.Plan

namespace ViewMaintenance

theorem forall₂_of_mapM {α β ε : Type} {f : α → Except ε β} {xs : List α} {ys : List β}
    (h : xs.mapM f = .ok ys) : List.Forall₂ (fun x y => f x = .ok y) xs ys := by
  induction xs generalizing ys with
  | nil =>
    obtain rfl : [] = ys := Except.ok.inj h
    exact .nil
  | cons x xs ih =>
    rw [List.mapM_cons] at h
    cases hx : f x with
    | error e =>
      rw [hx] at h
      cases h
    | ok y =>
      cases hxs : xs.mapM f with
      | error e =>
        rw [hx, hxs] at h
        cases h
      | ok rest =>
        rw [hx, hxs] at h
        obtain rfl : y :: rest = ys := Except.ok.inj h
        exact .cons hx (ih hxs)

theorem mapM_id_map_ok (rows : List Row) :
    (rows.map (Except.ok : Row → RowResult)).mapM id = .ok rows := by
  induction rows with
  | nil => rfl
  | cons row rows ih =>
    rw [List.map_cons, List.mapM_cons, ih]
    rfl

namespace ViewTables

theorem intentsFor_cons (u : ViewUpdate) (updates : List ViewUpdate) (name : String) :
    intentsFor (u :: updates) name =
      (if u.view = name then u.intents else []) ++ intentsFor updates name := by
  by_cases hname : u.view = name <;> simp [intentsFor, hname]

/-- Updates without intents can be left out. -/
theorem intentsFor_filter (updates : List ViewUpdate) (name : String) :
    intentsFor (updates.filter fun u => !u.isEmpty) name = intentsFor updates name := by
  induction updates with
  | nil => rfl
  | cons u updates ih =>
    cases hempty : u.isEmpty with
    | true =>
      have hnil : u.intents = [] := List.isEmpty_iff.mp hempty
      rw [List.filter_cons_of_neg (by simp [hempty]), ih, intentsFor_cons, hnil]
      simp
    | false =>
      rw [List.filter_cons_of_pos (by simp [hempty]), intentsFor_cons, intentsFor_cons, ih]

/-- Among the updates of all views those for the name of a view hold what this view plans, if no other
    view has this name. -/
theorem mem_intentsFor_iff {plan : View → Except UnknownColumn (List Intent)} {views : List View}
    {updates : List ViewUpdate}
    (hplanned : List.Forall₂ (fun v u => u.view = v.name ∧ plan v = .ok u.intents) views updates)
    {v : View} (hv : v ∈ views) (hname : ∀ w ∈ views, w.name = v.name → w = v) :
    ∃ intents, plan v = .ok intents ∧ ∀ i, i ∈ intentsFor updates v.name ↔ i ∈ intents := by
  obtain ⟨n, hn, rfl⟩ := List.mem_iff_getElem.mp hv
  have hn' : n < updates.length := hplanned.length_eq ▸ hn
  obtain ⟨hview, hplan⟩ := hplanned.get hn hn'
  refine ⟨_, hplan, fun i => ?_⟩
  simp only [intentsFor, List.mem_flatMap, List.mem_filter, decide_eq_true_eq]
  constructor
  · rintro ⟨u, ⟨hu, huview⟩, hi⟩
    obtain ⟨k, hk, rfl⟩ := List.mem_iff_getElem.mp hu
    have hk' : k < views.length := hplanned.length_eq ▸ hk
    obtain ⟨hview', hplan'⟩ := hplanned.get hk' hk
    have hsame : views[k] = views[n] :=
      hname _ (List.getElem_mem hk') (hview'.symm.trans huview)
    have hintents : updates[k].intents = updates[n].intents :=
      Except.ok.inj (hplan'.symm.trans ((congrArg plan hsame).trans hplan))
    exact hintents ▸ hi
  · intro hi
    exact ⟨updates[n], ⟨List.getElem_mem hn', hview⟩, hi⟩

end ViewTables

namespace Engine

variable {e : Engine} {h : History} {m : Mutation} {now : Timestamp}

theorem planned_of_mapM {plan : View → Except UnknownColumn (List Intent)} {views : List View}
    {updates : List ViewUpdate}
    (hupdates : (views.mapM fun v =>
      ((plan v).mapError EngineError.unknownColumn).map fun intents => ViewUpdate.mk v.name intents) =
        .ok updates) :
    List.Forall₂ (fun v u => u.view = v.name ∧ plan v = .ok u.intents) views updates := by
  refine (forall₂_of_mapM hupdates).imp fun v u hu => ?_
  cases hplan : plan v with
  | error err =>
    rw [hplan] at hu
    cases hu
  | ok intents =>
    rw [hplan] at hu
    obtain rfl := Except.ok.inj hu
    exact ⟨rfl, rfl⟩

theorem rowUpdates_eq_mapM {t : BaseTable} {f : Row} {d : Delta} (hbefore : t.read f.key = .ok d.before)
    (hafter : d.before.merge f = .ok d.after) :
    e.rowUpdates t.reader f d.now = e.views.mapM fun v =>
      ((v.rowIntents d).mapError EngineError.unknownColumn).map fun intents =>
        ViewUpdate.mk v.name intents := by
  have hread : t.reader.read f.key = .ok d.before := hbefore
  have hdelta : Delta.between d.before d.after d.now = .ok d := dif_pos d.key_eq
  simp only [rowUpdates, hread]
  change (d.before.merge f).mapError EngineError.keyMismatch >>= _ = _
  rw [hafter]
  change (Delta.between d.before d.after d.now).mapError EngineError.keyMismatch >>= _ = _
  rw [hdelta]
  rfl

theorem deletionUpdates_eq_mapM {t : BaseTable} {partition : Bytes} {range : ClusteringRange}
    {rows : List Row} (hscan : t.scan partition range = .ok (rows.map .ok)) (x : Deletion)
    (now : Timestamp) :
    e.deletionUpdates t.reader partition range x now = e.views.mapM fun v =>
      ((v.deletionIntents rows x now).mapError EngineError.unknownColumn).map fun intents =>
        ViewUpdate.mk v.name intents := by
  have hread : t.reader.scan partition range = .ok (rows.map .ok) := hscan
  simp only [deletionUpdates, hread]
  change ((rows.map (Except.ok : Row → RowResult)).mapM id).mapError EngineError.store >>= _ = _
  rw [mapM_id_map_ok]
  rfl

theorem rowUpdates_eq (e : Engine) {base : BaseTable} (hbase : base.Represents h) (f : Row)
    (now : Timestamp) :
    ∃ d : Delta, d.before = h.row f.key ∧ d.after = (h.row f.key).join f ∧ d.now = now ∧
      e.rowUpdates base.reader f now = e.views.mapM fun v =>
        ((v.rowIntents d).mapError EngineError.unknownColumn).map fun intents =>
          ViewUpdate.mk v.name intents := by
  have hmerge : (h.row f.key).merge f = .ok ((h.row f.key).join f) :=
    Row.merge_eq_ok (History.key_row h f.key)
  let d : Delta := ⟨h.row f.key, (h.row f.key).join f, now, rfl⟩
  exact ⟨d, rfl, rfl, rfl, rowUpdates_eq_mapM (d := d) (hbase.read f.key) hmerge⟩

theorem deletionUpdates_eq (e : Engine) {base : BaseTable} (hbase : base.Represents h)
    (partition : Bytes) (range : ClusteringRange) (x : Deletion) (now : Timestamp) :
    ∃ rows : List Row, rows.Pairwise (fun a b => compare a.key b.key = .lt) ∧
      (∀ key, (∃ row ∈ rows, row.key = key) ↔
        key.partition = partition ∧ range.contains key.clustering ∧ h.Writes key) ∧
      (∀ row ∈ rows, row = h.row row.key) ∧
      e.deletionUpdates base.reader partition range x now = e.views.mapM fun v =>
        ((v.deletionIntents rows x now).mapError EngineError.unknownColumn).map fun intents =>
          ViewUpdate.mk v.name intents := by
  obtain ⟨rows, hscan, hsorted, hkeys, hrows⟩ := hbase.scan partition range
  exact ⟨rows, hsorted, hkeys, hrows, deletionUpdates_eq_mapM hscan x now⟩

/-- The updates of an engine are what its views plan. -/
theorem planned_of_updates {base : BaseTable} (hbase : base.Represents h)
    {updates : List ViewUpdate} (hupdates : e.updates base.reader m now = .ok updates) :
    ∃ (all : List ViewUpdate) (plan : View → Except UnknownColumn (List Intent)),
      updates = all.filter (fun u => !u.isEmpty) ∧
      List.Forall₂ (fun v u => u.view = v.name ∧ plan v = .ok u.intents) e.views all ∧
      ∀ v intents, plan v = .ok intents → v.Plans h now m intents := by
  have hdeletion {partition : Bytes} {range : ClusteringRange} {x : Deletion}
      (hm : m.scan? = some (partition, range, x))
      (hupdates : (e.deletionUpdates base.reader partition range x now).map
        (fun us => us.filter fun u => !u.isEmpty) = .ok updates) :
      ∃ (all : List ViewUpdate) (plan : View → Except UnknownColumn (List Intent)),
        updates = all.filter (fun u => !u.isEmpty) ∧
        List.Forall₂ (fun v u => u.view = v.name ∧ plan v = .ok u.intents) e.views all ∧
        ∀ v intents, plan v = .ok intents → v.Plans h now m intents := by
    obtain ⟨rows, hsorted, hkeys, hrows, heq⟩ :=
      deletionUpdates_eq e hbase partition range x now
    cases hall : e.deletionUpdates base.reader partition range x now with
    | error err =>
      rw [hall] at hupdates
      cases hupdates
    | ok all =>
      rw [hall] at hupdates
      rw [heq] at hall
      exact ⟨all, _, (Except.ok.inj hupdates).symm, planned_of_mapM hall,
        fun v intents hplan => .deletion hm hsorted hkeys hrows hplan⟩
  cases m with
  | row f =>
    obtain ⟨d, hbefore, hafter, hnow, heq⟩ := rowUpdates_eq e hbase f now
    change (e.rowUpdates base.reader f now).map (fun us => us.filter fun u => !u.isEmpty) =
      .ok updates at hupdates
    cases hall : e.rowUpdates base.reader f now with
    | error err =>
      rw [hall] at hupdates
      cases hupdates
    | ok all =>
      rw [hall] at hupdates
      rw [heq] at hall
      exact ⟨all, _, (Except.ok.inj hupdates).symm, planned_of_mapM hall,
        fun v intents hplan => .row hbefore hafter hnow hplan⟩
  | deleteRange => exact hdeletion rfl hupdates
  | deletePartition => exact hdeletion rfl hupdates

theorem reader_none (base : BaseReader) : Faults.none.reader base = base := by
  have hscan (partition : Bytes) (range : ClusteringRange) :
      (base.scan partition range).map Faults.none.cut = base.scan partition range := by
    cases base.scan partition range <;> rfl
  cases base
  simp only [Faults.reader, BaseReader.mk.injEq]
  exact ⟨rfl, funext fun partition => funext fun range => hscan partition range⟩

/-- The views are written in the same way whether there are updates or not. -/
theorem writeViews_none (s : Store) (updates : List ViewUpdate) :
    s.writeViews .none updates = (s.views.apply updates).map fun views => { s with views } := by
  unfold Store.writeViews
  split
  next hempty =>
    rw [List.isEmpty_iff.mp hempty]
    rfl
  next => rfl

section Apply

variable {s : Store} {updates : List ViewUpdate}

theorem apply_none (e : Engine) (m : Mutation) (now : Timestamp) (s : Store) :
    e.apply .none m now s = commit .none m s (e.updates s.base.reader m now) := by
  rw [apply, reader_none]

/-- A mutation without updates is refused. -/
theorem apply_of_updates_error {err : EngineError}
    (hupdates : e.updates s.base.reader m now = .error err) :
    e.apply .none m now s = (.error err, s) := by
  rw [apply_none, hupdates]
  rfl

/-- A mutation with updates that the views refuse is refused. -/
theorem apply_of_views_error {err : StoreError}
    (hupdates : e.updates s.base.reader m now = .ok updates)
    (hviews : s.views.apply updates = .error err) :
    e.apply .none m now s = (.error (.store err), s) := by
  rw [apply_none, hupdates]
  simp only [commit, writeViews_none, hviews]
  rfl

/-- Any other mutation is taken by the views and by the base table. -/
theorem apply_of_ok {base : BaseTable} {views : ViewTables}
    (hupdates : e.updates s.base.reader m now = .ok updates)
    (hviews : s.views.apply updates = .ok views) (hbase : s.base.apply m = .ok base) :
    e.apply .none m now s = (.ok updates, ⟨base, views⟩) := by
  have hwritten : s.writeViews .none updates = .ok ⟨s.base, views⟩ := by
    rw [writeViews_none, hviews]
    rfl
  have hdone : Store.writeBase ⟨s.base, views⟩ .none m = .ok ⟨base, views⟩ := by
    rw [Store.writeBase, hbase]
    rfl
  rw [apply_none, hupdates]
  simp only [commit, hwritten, hdone]

/-- A mutation is refused and changes nothing, or the views and the base table take it. -/
theorem apply_outcome (e : Engine) (hbase : s.base.Represents h) (m : Mutation) (now : Timestamp) :
    (∃ err, e.apply .none m now s = (.error err, s)) ∨
      ∃ updates views base, e.updates s.base.reader m now = .ok updates ∧
        s.views.apply updates = .ok views ∧ base.Represents (h ++ [m]) ∧
        e.apply .none m now s = (.ok updates, ⟨base, views⟩) := by
  cases hupdates : e.updates s.base.reader m now with
  | error err => exact .inl ⟨err, apply_of_updates_error hupdates⟩
  | ok updates =>
    cases hviews : s.views.apply updates with
    | error err => exact .inl ⟨.store err, apply_of_views_error hupdates hviews⟩
    | ok views =>
      obtain ⟨base, happly, hrepresents⟩ := hbase.apply m
      exact .inr ⟨updates, views, base, rfl, hviews, hrepresents, apply_of_ok hupdates hviews happly⟩

/-- A mutation leaves a base table with a history. -/
theorem exists_represents_apply (e : Engine) (hbase : s.base.Represents h) (m : Mutation)
    (now : Timestamp) : ∃ g, (e.apply .none m now s).2.base.Represents g := by
  rcases e.apply_outcome hbase m now with ⟨err, happly⟩ | ⟨_, views, base, _, _, hbase', happly⟩
  · rw [happly]
    exact ⟨h, hbase⟩
  · rw [happly]
    exact ⟨h ++ [m], hbase'⟩

end Apply

/-- The engine maintains a view, and the view owns its name: no other view of the engine has it. Two
    views under one name write to one table, and its rows are then of neither (`read_of_one_name`). -/
structure Maintains (e : Engine) (v : View) : Prop where
  mem : v ∈ e.views
  eq_of_name : ∀ w ∈ e.views, w.name = v.name → w = v

theorem maintains_of_nodup (hnames : (e.views.map View.name).Nodup) {v : View} (hv : v ∈ e.views) :
    e.Maintains v :=
  ⟨hv, fun _ hw hname => List.inj_on_of_nodup_map hnames hw hv hname⟩

section Orders

/-- The columns of a table of orders. -/
def orders : Schema := ⟨"orders", "id", none, SortedSet.ofList ["note", "status"]⟩

/-- All orders with all their columns. -/
def allOrders : View where
  name := "all_orders"
  schema := orders
  selected := orders.regular
  promoted := none
  isRegular_of_selected _ hc := hc
  isRegular_of_promoted _ hc := by cases hc
  not_selected_of_promoted _ hc := by cases hc

/-- The orders under their status, with their notes. -/
def ordersByStatus : View where
  name := "orders_by_status"
  schema := orders
  selected := SortedSet.ofList ["note"]
  promoted := some "status"
  isRegular_of_selected c hc := by
    have hmem : c ∈ ["note"] := SortedMap.mem_keys_iff.mpr hc
    obtain rfl := List.mem_singleton.mp hmem
    decide
  isRegular_of_promoted c hc := by
    obtain rfl := Option.some.inj hc
    decide
  not_selected_of_promoted c hc := by
    obtain rfl := Option.some.inj hc
    decide

/-- The engine of both views of the orders. -/
def ordersEngine : Engine := ⟨[allOrders, ordersByStatus], {}⟩

/-- The key of an order. -/
def order : RowKey := .ofPartition [0]

/-- The order is written with a status. -/
def setStatus (status : UInt8) (timestamp now : Timestamp) : Event :=
  .apply ((RowWrite.insert order timestamp).set "status" [status]).toMutation now

/-- The key of one of several orders of a customer. -/
def orderAt (number : UInt8) : RowKey := ⟨[0], [number]⟩

/-- One of several orders is written with a status. -/
def placeOrder (number status : UInt8) (timestamp now : Timestamp) : Event :=
  .apply ((RowWrite.insert (orderAt number) timestamp).set "status" [status]).toMutation now

/-- The engine of both views of the orders under one name. -/
def oneNameEngine : Engine := ⟨[allOrders, { ordersByStatus with name := allOrders.name }], {}⟩

/-- Two views under one name show an order twice in their one table, as the row of either of them. -/
theorem read_of_one_name : ¬oneNameEngine.Maintains allOrders ∧
    (((oneNameEngine.run (.ofViews oneNameEngine.views) [setStatus 2 5 1]).views.get?
      allOrders.name).map fun table => (table.read 1).keys) =
        some [⟨order, none⟩, ⟨order, some [2]⟩] := by
  refine ⟨fun hmaintains => ?_, by decide +kernel⟩
  have hsame := hmaintains.eq_of_name { ordersByStatus with name := allOrders.name }
    (by simp [oneNameEngine]) rfl
  exact nomatch congrArg View.promoted hsame

end Orders

/-- The state of the stores in a run: the base table holds a history, and the tables under the names
    of the views are well-formed. -/
structure Holds (e : Engine) (s : Store) (h : History) : Prop where
  base : s.base.Represents h
  table : ∀ v ∈ e.views, ∀ t, s.views.get? v.name = some t → t.WellFormed

/-- An engine refuses a mutation and changes nothing, or the base table takes it and the view tables
    what the views plan for it. -/
theorem apply_cases {s : Store} (hs : e.Holds s h) (m : Mutation) (now : Timestamp) :
    (∃ err, e.apply .none m now s = (.error err, s)) ∨
    ∃ updates s', e.apply .none m now s = (.ok updates, s') ∧ e.Holds s' (h ++ [m]) ∧
      s.views.Receives updates s'.views ∧
      ∀ v, e.Maintains v → ∃ intents, v.Plans h now m intents ∧
        ∀ i, i ∈ ViewTables.intentsFor updates v.name ↔ i ∈ intents := by
  rcases e.apply_outcome hs.base m now with
    hrefused | ⟨_, views, base, hupdates, hviews, hbase, happly⟩
  · exact .inl hrefused
  · obtain ⟨all, plan, rfl, hplanned, hplans⟩ := planned_of_updates hs.base hupdates
    have hknown : ∀ u ∈ all.filter (fun u => !u.isEmpty), s.views.Knows u.view := by
      intro u hu
      obtain ⟨t, ht⟩ := ViewTables.exists_get?_of_apply hviews hu
      obtain ⟨i, hi, rfl⟩ := List.mem_iff_getElem.mp (List.mem_of_mem_filter hu)
      have hi' : i < e.views.length := hplanned.length_eq ▸ hi
      have hname : all[i].view = e.views[i].name := (hplanned.get hi' hi).1
      exact ⟨t, ht, hs.table _ (List.getElem_mem hi') t (hname ▸ ht)⟩
    obtain ⟨views', hviews', hreceives⟩ := ViewTables.apply_of_knows hknown
    obtain rfl := Except.ok.inj (hviews.symm.trans hviews')
    refine .inr ⟨_, ⟨base, views⟩, happly, ⟨hbase, fun v hv t' ht' => ?_⟩, hreceives,
      fun v hv => ?_⟩
    · obtain ⟨_, _, hrows⟩ := hreceives.exists_table (hs.table v hv) ht'
      exact hrows.wellFormed
    · obtain ⟨intents, hplan, hmem⟩ := ViewTables.mem_intentsFor_iff hplanned hv.mem hv.eq_of_name
      rw [ViewTables.intentsFor_filter]
      exact ⟨intents, hplans v intents hplan, hmem⟩

end Engine

end ViewMaintenance
