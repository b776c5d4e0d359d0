import ViewMaintenance.Engine.InPlace
import ViewMaintenance.Engine.Run
import ViewMaintenance.Proofs.Engine.Inspection
import ViewMaintenance.Proofs.Engine.Run

namespace ViewMaintenance

namespace View

/-- The schema of the view knows all columns of a row. -/
def KnowsColumns (v : View) (r : Row) : Prop :=
  ∀ c, (r.cell? c).isSome → v.schema.isRegular c = true

/-- The first column of a row that the schema of the view does not know. -/
structure FirstUnknown (v : View) (r : Row) (column : String) : Prop where
  isSome : (r.cell? column).isSome
  unknown : v.schema.isRegular column = false
  first : ∀ c, (r.cell? c).isSome → v.schema.isRegular c = false → (compare column c).isLE

variable {v : View} {r : Row}

theorem FirstUnknown.not_knowsColumns {column : String} (h : v.FirstUnknown r column) :
    ¬ v.KnowsColumns r := by
  intro hknows
  have hregular := hknows column h.isSome
  rw [h.unknown] at hregular
  cases hregular

/-- There is one first unknown column at most. -/
theorem FirstUnknown.unique {a b : String} (ha : v.FirstUnknown r a) (hb : v.FirstUnknown r b) :
    a = b :=
  Std.LawfulEqCmp.eq_of_compare
    (Std.OrientedCmp.isLE_antisymm (ha.first b hb.isSome hb.unknown) (hb.first a ha.isSome ha.unknown))

theorem unknownColumn?_eq_some_iff {u : UnknownColumn} :
    v.unknownColumn? r = some u ↔ u.view = v.name ∧ v.FirstUnknown r u.column := by
  have hsorted := r.cells.pairwise_keys
  have hfound {column : String}
      (hfind : (r.cells.keys.find? fun c => !v.schema.isRegular c) = some column) :
      v.FirstUnknown r column := by
    obtain ⟨hunknown, earlier, later, hkeys, hearlier⟩ := List.find?_eq_some_iff_append.mp hfind
    have hmem : column ∈ r.cells.keys := List.mem_of_find?_eq_some hfind
    refine ⟨SortedMap.mem_keys_iff.mp hmem, by simpa using hunknown, fun c hc hcunknown => ?_⟩
    have hc : c ∈ earlier ++ column :: later := hkeys ▸ SortedMap.mem_keys_iff.mpr hc
    rw [hkeys] at hsorted
    rcases List.mem_append.mp hc with hc | hc
    · have hknown := hearlier c hc
      simp [hcunknown] at hknown
    · rcases List.mem_cons.mp hc with rfl | hc
      · exact Std.ReflCmp.isLE_rfl
      · have hlt := (List.pairwise_cons.mp (List.pairwise_append.mp hsorted).2.1).1 c hc
        rw [hlt]
        rfl
  constructor
  · intro hsome
    obtain ⟨column, hfind, rfl⟩ := Option.map_eq_some_iff.mp hsome
    exact ⟨rfl, hfound hfind⟩
  · rintro ⟨hview, hfirst⟩
    cases hfind : r.cells.keys.find? fun c => !v.schema.isRegular c with
    | none =>
      have hknown := List.find?_eq_none.mp hfind u.column (SortedMap.mem_keys_iff.mpr hfirst.isSome)
      simp [hfirst.unknown] at hknown
    | some column =>
      have hcolumn := (hfound hfind).unique hfirst
      rw [unknownColumn?, hfind, Option.map_some, ← hview, hcolumn]

end View

/-- Why an engine refuses a mutation for which it looks at the given rows. -/
inductive Engine.Refuses (e : Engine) (s : Store) (i : Inspection) : EngineError → Prop
  /-- The first view that does not know all columns of all rows, in the order of the engine, does not
      know a column of this row; it knows all columns of earlier rows. -/
  | unknownColumn {earlier later : List View} {v : View} {before after : List Row} {r : Row}
      {column : String} (hviews : e.views = earlier ++ v :: later)
      (hrows : i.rows = before ++ r :: after)
      (hearlier : ∀ w ∈ earlier, ∀ r ∈ i.rows, w.KnowsColumns r)
      (hbefore : ∀ r ∈ before, v.KnowsColumns r) (hfirst : v.FirstUnknown r column) :
      Refuses e s i (.unknownColumn ⟨v.name, column⟩)
  /-- All columns are known, and this is the first view that has intents and no table. -/
  | unknownView {earlier later : List View} {v : View}
      (hknown : ∀ w ∈ e.views, ∀ r ∈ i.rows, w.KnowsColumns r)
      (hviews : e.views = earlier ++ v :: later) (hintents : i.intents v ≠ [])
      (hnone : s.views.get? v.name = none)
      (hearlier : ∀ w ∈ earlier, i.intents w = [] ∨ (s.views.get? w.name).isSome) :
      Refuses e s i (.store (.unknownView v.name))

namespace Inspection

variable {i : Inspection} {views : List View}

theorem findSome?_eq_none_iff {v : View} {rows : List Row} :
    rows.findSome? v.unknownColumn? = none ↔ ∀ r ∈ rows, v.KnowsColumns r := by
  simp only [List.findSome?_eq_none_iff, View.unknownColumn?_eq_none_iff, View.KnowsColumns]

theorem unknownColumn?_eq_none_iff :
    i.unknownColumn? views = none ↔ ∀ v ∈ views, ∀ r ∈ i.rows, v.KnowsColumns r := by
  simp only [unknownColumn?, List.findSome?_eq_none_iff, View.unknownColumn?_eq_none_iff,
    View.KnowsColumns]

/-- The first update for an unknown view is that of the first view that has intents and no table. -/
theorem find?_updates (i : Inspection) (views : List View) (unknown : String → Bool) :
    (i.updates views).find? (fun u => unknown u.view) =
      (views.find? fun v => !(i.intents v).isEmpty && unknown v.name).map
        fun v => ⟨v.name, i.intents v⟩ := by
  have htest (u : ViewUpdate) : decide ((!u.isEmpty) = true ∧ unknown u.view = true) =
      (!u.intents.isEmpty && unknown u.view) := by
    change _ = (!u.isEmpty && unknown u.view)
    simp
  rw [updates, List.find?_filter, List.find?_map]
  simp only [htest]
  rfl

end Inspection

namespace Engine

variable {e : Engine} {s : Store} {i : Inspection} {m : Mutation} {now : Timestamp}

/-- A refusal for a column is for the first unknown one. -/
theorem refuses_unknownColumn_iff {u : UnknownColumn} :
    e.Refuses s i (.unknownColumn u) ↔ i.unknownColumn? e.views = some u := by
  constructor
  · intro h
    cases h with
    | @unknownColumn earlier later v before after r column hviews hrows hearlier hbefore hfirst =>
      have hrow : v.unknownColumn? r = some ⟨v.name, column⟩ :=
        View.unknownColumn?_eq_some_iff.mpr ⟨rfl, hfirst⟩
      refine List.findSome?_eq_some_iff.mpr ⟨earlier, v, later, hviews, ?_, fun w hw => ?_⟩
      · refine List.findSome?_eq_some_iff.mpr ⟨before, r, after, hrows, hrow, fun r hr => ?_⟩
        exact View.unknownColumn?_eq_none_iff.mpr (hbefore r hr)
      · exact Inspection.findSome?_eq_none_iff.mpr (hearlier w hw)
  · intro h
    obtain ⟨earlier, v, later, hviews, hview, hearlier⟩ := List.findSome?_eq_some_iff.mp h
    obtain ⟨before, r, after, hrows, hrow, hbefore⟩ := List.findSome?_eq_some_iff.mp hview
    obtain ⟨view, column⟩ := u
    obtain ⟨rfl, hfirst⟩ := View.unknownColumn?_eq_some_iff.mp hrow
    exact .unknownColumn hviews hrows (fun w hw => Inspection.findSome?_eq_none_iff.mp (hearlier w hw))
      (fun r hr => View.unknownColumn?_eq_none_iff.mp (hbefore r hr)) hfirst

/-- A refusal by the views is for the first update that finds no table. -/
theorem refuses_store_iff {err : StoreError} : e.Refuses s i (.store err) ↔
    i.unknownColumn? e.views = none ∧
      ∃ u, (i.updates e.views).find? (fun u => (s.views.get? u.view).isNone) = some u ∧
        err = .unknownView u.view := by
  rw [Inspection.unknownColumn?_eq_none_iff,
    Inspection.find?_updates i e.views fun name => (s.views.get? name).isNone]
  constructor
  · intro h
    cases h with
    | @unknownView earlier later v hknown hviews hintents hnone hearlier =>
      have hfind : e.views.find? (fun v => !(i.intents v).isEmpty && (s.views.get? v.name).isNone) =
          some v := by
        refine List.find?_eq_some_iff_append.mpr ⟨?_, earlier, later, hviews, fun w hw => ?_⟩
        · simpa [hnone] using hintents
        · simpa [or_iff_not_imp_left, Option.isSome_iff_ne_none] using hearlier w hw
      exact ⟨hknown, ⟨v.name, i.intents v⟩, by rw [hfind, Option.map_some], rfl⟩
  · rintro ⟨hknown, u, hfind, rfl⟩
    obtain ⟨v, hfirst, rfl⟩ := Option.map_eq_some_iff.mp hfind
    obtain ⟨hv, earlier, later, hviews, hearlier⟩ := List.find?_eq_some_iff_append.mp hfirst
    rw [Bool.and_eq_true] at hv
    refine .unknownView hknown hviews (by simpa using hv.1) (by simpa using hv.2) fun w hw => ?_
    simpa [or_iff_not_imp_left, Option.isSome_iff_ne_none] using hearlier w hw

/-- There is a reason to refuse a mutation if a row holds an unknown column or a view with intents has
    no table. -/
theorem exists_refuses_iff : (∃ err, e.Refuses s i err) ↔
    (∃ v ∈ e.views, ∃ r ∈ i.rows, ¬ v.KnowsColumns r) ∨
      ∃ v ∈ e.views, i.intents v ≠ [] ∧ s.views.get? v.name = none := by
  constructor
  · rintro ⟨err, h⟩
    cases h with
    | @unknownColumn earlier later v before after r column hviews hrows _ _ hfirst =>
      exact .inl ⟨v, by simp [hviews], r, by simp [hrows], hfirst.not_knowsColumns⟩
    | @unknownView earlier later v _ hviews hintents hnone =>
      exact .inr ⟨v, by simp [hviews], hintents, hnone⟩
  · intro hreason
    cases hunknown : i.unknownColumn? e.views with
    | some u => exact ⟨.unknownColumn u, refuses_unknownColumn_iff.mpr hunknown⟩
    | none =>
      have hknown := Inspection.unknownColumn?_eq_none_iff.mp hunknown
      rcases hreason with ⟨v, hv, r, hr, hnot⟩ | ⟨v, hv, hintents, hnone⟩
      · exact absurd (hknown v hv r hr) hnot
      · obtain ⟨u, hu, hview⟩ := Inspection.exists_update_iff.mpr ⟨v, hv, rfl, hintents⟩
        have hfound : ((i.updates e.views).find? fun u => (s.views.get? u.view).isNone).isSome :=
          List.find?_isSome.mpr ⟨u, hu, by simp [hview, hnone]⟩
        obtain ⟨w, hw⟩ := Option.isSome_iff_exists.mp hfound
        exact ⟨.store (.unknownView w.view), refuses_store_iff.mpr ⟨hunknown, w, hw, rfl⟩⟩

/-- The result of a mutation is an error exactly when there is this reason to refuse it. -/
theorem apply_eq_error_iff {h : History} (hs : e.Holds s h) (hi : s.base.Inspects now m i)
    {err : EngineError} : (e.apply .none m now s).1 = .error err ↔ e.Refuses s i err := by
  cases err with
  | keyMismatch cause =>
    refine ⟨fun herr => ?_, fun h => by cases h⟩
    rcases apply_of_inspects hs hi with
      ⟨_, _, happly⟩ | ⟨_, ⟨_, _, happly⟩ | ⟨_, _, happly, _⟩⟩ <;>
    · rw [happly] at herr
      cases herr
  | unknownColumn u =>
    rw [refuses_unknownColumn_iff]
    rcases apply_of_inspects hs hi with
      ⟨w, hunknown, happly⟩ | ⟨hunknown, ⟨_, _, happly⟩ | ⟨_, _, happly, _⟩⟩ <;>
      simp [happly, hunknown, eq_comm]
  | store cause =>
    rw [refuses_store_iff]
    rcases apply_of_inspects hs hi with
      ⟨_, hunknown, happly⟩ | ⟨hunknown, ⟨u, hfind, happly⟩ | ⟨hsome, _, happly, _⟩⟩
    · simp [happly, hunknown]
    · simp [happly, hunknown, hfind, eq_comm]
    · have hfind : ((i.updates e.views).find? fun u => (s.views.get? u.view).isNone) = none :=
        List.find?_eq_none.mpr fun u hu => by
          simpa [Option.isSome_iff_ne_none] using hsome u hu
      simp [happly, hfind]

theorem state_of_apply_eq_error {h : History} (hs : e.Holds s h) (hi : s.base.Inspects now m i)
    {err : EngineError} (herr : (e.apply .none m now s).1 = .error err) :
    (e.apply .none m now s).2 = s := by
  rcases apply_of_inspects hs hi with ⟨_, _, happly⟩ | ⟨_, ⟨_, _, happly⟩ | ⟨_, _, happly, _⟩⟩
  · rw [happly]
  · rw [happly]
  · rw [happly] at herr
    cases herr

end Engine

theorem ViewTable.applyInPlace_of_foldlM {t t' : ViewTable} {intents : List Intent}
    (h : intents.foldlM ViewTable.apply t = .ok t') : t.applyInPlace intents = (.ok (), t') := by
  induction intents generalizing t with
  | nil =>
    obtain rfl := Except.ok.inj h
    rfl
  | cons i intents ih =>
    rw [List.foldlM_cons] at h
    rw [applyInPlace]
    cases hi : t.apply i with
    | error err =>
      rw [hi] at h
      cases h
    | ok next =>
      rw [hi] at h
      exact ih h

namespace ViewTables

variable {ts ts' : ViewTables} {updates : List ViewUpdate}

theorem updateInPlace_of_foldlM (h : updates.foldlM applyUpdate ts = .ok ts') :
    ts.updateInPlace updates = (.ok (), ts') := by
  induction updates generalizing ts with
  | nil =>
    obtain rfl := Except.ok.inj h
    rfl
  | cons u updates ih =>
    rw [List.foldlM_cons, applyUpdate] at h
    rw [updateInPlace]
    cases htable : ts.get? u.view with
    | none =>
      rw [htable] at h
      cases h
    | some t =>
      rw [htable] at h
      cases hfold : u.intents.foldlM ViewTable.apply t with
      | error err =>
        simp only [hfold] at h
        cases h
      | ok t' =>
        simp only [hfold] at h
        simp only [ViewTable.applyInPlace_of_foldlM hfold]
        exact ih h

/-- Tables with well-formed rows take a batch as a whole or not at all, also if they are written in
    place: no intent is refused once the views are known. -/
theorem WellFormed.applyInPlace_eq (hts : ts.WellFormed) (updates : List ViewUpdate) :
    ts.applyInPlace updates =
      match ts.apply updates with
      | .error err => (.error err, ts)
      | .ok ts' => (.ok (), ts') := by
  rw [applyInPlace]
  cases hfind : updates.find? fun u => (ts.get? u.view).isNone with
  | some u =>
    rw [ViewTables.apply, hfind]
  | none =>
    obtain ⟨ts', hfold, _⟩ := foldlM_of_knows fun u hu => hts.knows (by
      simpa [Option.isSome_iff_ne_none] using List.find?_eq_none.mp hfind u hu)
    rw [ViewTables.apply, hfind]
    simp only [hfold, updateInPlace_of_foldlM hfold]

end ViewTables

namespace Engine

variable {e : Engine} {s : Store} {m : Mutation} {now : Timestamp}

theorem applyInPlace_eq (hs : s.Reachable) : e.applyInPlace m now s = e.apply .none m now s := by
  rw [applyInPlace]
  cases hupdates : e.updates s.base.reader m now with
  | error err => exact (apply_of_updates_error hupdates).symm
  | ok updates =>
    simp only [hs.views.wellFormed.applyInPlace_eq]
    cases hviews : s.views.apply updates with
    | error err => exact (apply_of_views_error hupdates hviews).symm
    | ok views =>
      obtain ⟨h, hbase⟩ := hs.base.exists_represents
      obtain ⟨base, happly, _⟩ := hbase.apply m
      simp only [happly]
      exact (apply_of_ok hupdates hviews happly).symm

/-- A mutation fails exactly when a row that the engine has to look at holds a column unknown to a
    view, or else a view with intents has no table. The error names the first such column or view, and
    no store has changed, even if the stores are written in place. -/
theorem refused_iff (hs : s.Reachable) (e : Engine) (m : Mutation) (now : Timestamp) :
    ∃ i, s.base.Inspects now m i ∧
      (∀ err, (e.apply .none m now s).1 = .error err ↔ e.Refuses s i err) ∧
      ((∃ err, (e.apply .none m now s).1 = .error err) ↔
        (∃ v ∈ e.views, ∃ r ∈ i.rows, ¬ v.KnowsColumns r) ∨
          ∃ v ∈ e.views, i.intents v ≠ [] ∧ s.views.get? v.name = none) ∧
      (∀ err, (e.apply .none m now s).1 = .error err → (e.apply .none m now s).2 = s) ∧
      e.applyInPlace m now s = e.apply .none m now s := by
  obtain ⟨h, hholds⟩ := hs.exists_holds e
  obtain ⟨i, hi⟩ := hholds.base.exists_inspects m now
  have herror (err : EngineError) : (e.apply .none m now s).1 = .error err ↔ e.Refuses s i err :=
    apply_eq_error_iff hholds hi
  refine ⟨i, hi, herror, ?_, fun err => state_of_apply_eq_error hholds hi, applyInPlace_eq hs⟩
  rw [← exists_refuses_iff]
  exact exists_congr herror

/-- The table of the orders by their status is missing. The batch comes with intents for all orders
    first, but nothing of it is written. -/
theorem refused_of_missing_table :
    let s := Store.ofViews [allOrders]
    let m := ((RowWrite.insert order 5).set "status" [2]).toMutation
    (ordersEngine.apply .none m 1 s).1 = .error (.store (.unknownView "orders_by_status")) ∧
      (ordersEngine.applyInPlace m 1 s).2 = s := by
  intro s m
  have hs : s.Reachable := ⟨.empty, .add .empty allOrders⟩
  have herror : (ordersEngine.apply .none m 1 s).1 =
      .error (.store (.unknownView "orders_by_status")) := by decide +kernel
  obtain ⟨i, _, _, _, hstate, hplace⟩ := refused_iff hs ordersEngine m 1
  exact ⟨herror, by rw [hplace, hstate _ herror]⟩

end Engine

end ViewMaintenance
