import ViewMaintenance.Proofs.Row.Join
import ViewMaintenance.Store.ViewTable

namespace ViewMaintenance

namespace Intent

@[simp]
theorem key_fragment (i : Intent) : i.fragment.key = i.row.base := by
  cases i with
  | upsert | deleteColumns => rfl
  | deleteRow row timestamp kind => cases kind <;> rfl

/-- What intents make of a view row. -/
def written (intents : List Intent) (id : ViewKey) (stored : Row) : Row :=
  (intents.filter (·.row = id)).foldl (fun row i => row.join i.fragment) stored

@[simp]
theorem written_nil (id : ViewKey) (stored : Row) : written [] id stored = stored := rfl

theorem written_cons (i : Intent) (intents : List Intent) (id : ViewKey) (stored : Row) :
    written (i :: intents) id stored =
      written intents id (if i.row = id then stored.join i.fragment else stored) := by
  by_cases h : i.row = id <;> simp [written, h]

theorem written_singleton {i : Intent} {id : ViewKey} (h : i.row = id) (stored : Row) :
    written [i] id stored = stored.join i.fragment := by
  rw [written_cons, if_pos h, written_nil]

theorem written_append (intents others : List Intent) (id : ViewKey) (stored : Row) :
    written (intents ++ others) id stored = written others id (written intents id stored) := by
  simp [written]

theorem written_eq_foldl (intents : List Intent) (id : ViewKey) (stored : Row) :
    written intents id stored =
      ((intents.filter (·.row = id)).map fragment).foldl Row.join stored := List.foldl_map.symm

/-- Which intents there are for a view row counts, and not how often or in which order they come. -/
theorem written_of_mem_iff {intents others : List Intent} (hsame : ∀ i, i ∈ intents ↔ i ∈ others)
    {id : ViewKey} {stored : Row} (hkey : stored.key = id.base) :
    written intents id stored = written others id stored := by
  rw [written_eq_foldl, written_eq_foldl]
  refine Row.foldl_join_of_mem_iff (fun f hf => ?_) fun f => ?_
  · obtain ⟨i, hi, rfl⟩ := List.mem_map.mp hf
    have hid : i.row = id := by simpa using (List.mem_filter.mp hi).2
    rw [key_fragment, hid, hkey]
  · simp only [List.mem_map, List.mem_filter, hsame]

theorem written_of_forall_ne {intents : List Intent} {id : ViewKey}
    (h : ∀ i ∈ intents, i.row ≠ id) (stored : Row) : written intents id stored = stored := by
  have hnone : intents.filter (·.row = id) = [] :=
    List.filter_eq_nil_iff.mpr fun i hi => by simpa using h i hi
  rw [written, hnone]
  rfl

end Intent

namespace ViewTable

/-- What is stored of a view row, the empty row if nothing is. -/
def row (t : ViewTable) (id : ViewKey) : Row := (t.stored? id).getD (.empty id.base)

/-- Every stored row has the base key of its identity and keeps nothing that its own deletion
    reaches. -/
def WellFormed (t : ViewTable) : Prop :=
  ∀ id row, t.stored? id = some row → row.key = id.base ∧ row.Canonical

theorem WellFormed.key_row {t : ViewTable} (ht : t.WellFormed) (id : ViewKey) :
    (t.row id).key = id.base := by
  unfold row
  cases h : t.stored? id with
  | none => rfl
  | some r => exact (ht id r h).1

theorem wellFormed_new (v : View) : (new v).WellFormed := by
  intro id row h
  cases h

@[simp]
theorem row_new (v : View) (id : ViewKey) : (new v).row id = .empty id.base := rfl

theorem shows_empty (t : ViewTable) (key : RowKey) (now : Timestamp) :
    t.shows (.empty key) now = false := by
  unfold shows
  split <;> rfl

theorem isVisible_eq (t : ViewTable) (id : ViewKey) (now : Timestamp) :
    t.isVisible id now = t.shows (t.row id) now := by
  unfold isVisible row
  cases t.stored? id with
  | none => exact (shows_empty t id.base now).symm
  | some r => rfl

theorem get?_read (t : ViewTable) (id : ViewKey) (now : Timestamp) :
    (t.read now).get? id =
      if t.shows (t.row id) now then some (t.view.liveColumns (t.row id) now) else none := by
  rw [read, SortedMap.get?_filterMap]
  change (t.stored? id).bind _ = _
  unfold row
  cases t.stored? id with
  | none => simp [shows_empty]
  | some r => rfl

theorem stored?_insert (t : ViewTable) (id other : ViewKey) (row : Row) :
    stored? { t with rows := t.rows.insert id row } other =
      if id = other then some row else t.stored? other :=
  SortedMap.get?_insert_eq_ite _ _ _ _

theorem apply_eq (t : ViewTable) (i : Intent) : t.apply i =
    ((((t.stored? i.row).getD (.empty i.row.base)).merge i.fragment).mapError .keyMismatch).map
      fun row => { t with rows := t.rows.insert i.row row } := rfl

/-- A table has taken intents: each row is joined with the fragments for it, and is stored if it was
    before or an intent is for it. -/
structure Receives (t : ViewTable) (intents : List Intent) (t' : ViewTable) : Prop where
  view : t'.view = t.view
  wellFormed : t'.WellFormed
  row : ∀ id, t'.row id = Intent.written intents id (t.row id)
  isSome : ∀ id, (t'.stored? id).isSome ↔ (t.stored? id).isSome ∨ ∃ i ∈ intents, i.row = id

theorem WellFormed.receives_nil {t : ViewTable} (ht : t.WellFormed) : t.Receives [] t where
  view := rfl
  wellFormed := ht
  row _ := rfl
  isSome id := by simp

theorem Receives.append {t next t' : ViewTable} {intents others : List Intent}
    (hfirst : t.Receives intents next) (hrest : next.Receives others t') :
    t.Receives (intents ++ others) t' where
  view := hrest.view.trans hfirst.view
  wellFormed := hrest.wellFormed
  row id := by rw [hrest.row, hfirst.row, Intent.written_append]
  isSome id := by
    rw [hrest.isSome, hfirst.isSome, or_assoc]
    simp only [List.mem_append, or_and_right, exists_or]

theorem Receives.of_mem_iff {t t' : ViewTable} {intents others : List Intent}
    (h : t.Receives intents t') (ht : t.WellFormed) (hsame : ∀ i, i ∈ intents ↔ i ∈ others) :
    t.Receives others t' where
  view := h.view
  wellFormed := h.wellFormed
  row id := by rw [h.row, Intent.written_of_mem_iff hsame (ht.key_row id)]
  isSome id := by simp only [h.isSome, hsame]

/-- What is stored of a row is the row, if anything is stored. -/
theorem stored?_eq_ite (t : ViewTable) (id : ViewKey) :
    t.stored? id = if (t.stored? id).isSome then some (t.row id) else none := by
  unfold row
  cases t.stored? id with
  | none => rfl
  | some r => rfl

/-- A row that no intent is for stays as it was. -/
theorem Receives.stored?_of_forall_ne {t t' : ViewTable} {intents : List Intent}
    (h : t.Receives intents t') {id : ViewKey} (hne : ∀ i ∈ intents, i.row ≠ id) :
    t'.stored? id = t.stored? id := by
  have hnone : ¬ ∃ i ∈ intents, i.row = id := fun ⟨i, hi, hid⟩ => hne i hi hid
  have hsome : (t'.stored? id).isSome = (t.stored? id).isSome :=
    Bool.eq_iff_iff.mpr ((h.isSome id).trans (or_iff_left hnone))
  rw [stored?_eq_ite t', stored?_eq_ite t, hsome, h.row, Intent.written_of_forall_ne hne]

/-- The intents that a table has taken determine what it holds. -/
theorem Receives.eq {t a b : ViewTable} {intents : List Intent} (ha : t.Receives intents a)
    (hb : t.Receives intents b) : a = b := by
  have hrows : a.rows = b.rows := by
    refine SortedMap.ext_get? fun id => ?_
    change a.stored? id = b.stored? id
    have hsome : (a.stored? id).isSome = (b.stored? id).isSome :=
      Bool.eq_iff_iff.mpr ((ha.isSome id).trans (hb.isSome id).symm)
    rw [stored?_eq_ite a, stored?_eq_ite b, hsome, ha.row, hb.row]
  cases a
  cases b
  simp only [mk.injEq]
  exact ⟨ha.view.trans hb.view.symm, hrows⟩

theorem WellFormed.apply {t : ViewTable} (ht : t.WellFormed) (i : Intent) :
    ∃ t', t.apply i = .ok t' ∧ t.Receives [i] t' := by
  have hkey : (t.row i.row).key = i.fragment.key := by rw [ht.key_row, Intent.key_fragment]
  have happly : t.apply i =
      .ok { t with rows := t.rows.insert i.row ((t.row i.row).join i.fragment) } := by
    rw [apply_eq, ← row, Row.merge_eq_ok hkey]
    rfl
  refine ⟨_, happly, rfl, fun id row hrow => ?_, fun id => ?_, fun id => ?_⟩
  · rw [stored?_insert] at hrow
    by_cases hid : i.row = id
    · obtain rfl : (t.row i.row).join i.fragment = row := by simpa [hid] using hrow
      exact ⟨by rw [Row.key_join, ht.key_row, hid], Row.canonical_join _ _⟩
    · exact ht id row (by simpa [hid] using hrow)
  · rw [ViewTable.row, stored?_insert, Intent.written_cons, Intent.written_nil]
    by_cases hid : i.row = id
    · subst hid
      simp
    · simp [hid, ViewTable.row]
  · rw [stored?_insert]
    by_cases hid : i.row = id <;> simp [hid]

/-- A table with well-formed rows takes all intents. -/
theorem receives_of_wellFormed {t : ViewTable} (ht : t.WellFormed) (intents : List Intent) :
    ∃ t', intents.foldlM apply t = .ok t' ∧ t.Receives intents t' := by
  induction intents generalizing t with
  | nil => exact ⟨t, rfl, ht.receives_nil⟩
  | cons i intents ih =>
    obtain ⟨next, hnext, hfirst⟩ := ht.apply i
    obtain ⟨t', hfold, hrest⟩ := ih hfirst.wellFormed
    refine ⟨t', ?_, hfirst.append hrest⟩
    rw [List.foldlM_cons, hnext]
    exact hfold

end ViewTable

namespace ViewTables

theorem get?_insert (ts : ViewTables) (name : String) (t : ViewTable) (other : String) :
    get? ⟨ts.tables.insert name t⟩ other = if name = other then some t else ts.get? other :=
  SortedMap.get?_insert_eq_ite _ _ _ _

/-- All intents of a batch for the view of a name. -/
def intentsFor (updates : List ViewUpdate) (name : String) : List Intent :=
  (updates.filter (·.view = name)).flatMap ViewUpdate.intents

/-- The tables have taken a batch of updates, each table its own. -/
structure Receives (ts : ViewTables) (updates : List ViewUpdate) (ts' : ViewTables) : Prop where
  table : ∀ name t, ts.get? name = some t → t.WellFormed →
    ∃ t', ts'.get? name = some t' ∧ t.Receives (intentsFor updates name) t'
  isNone : ∀ name, ts.get? name = none → ts'.get? name = none

/-- There is a table with well-formed rows for the view of a name. -/
def Knows (ts : ViewTables) (name : String) : Prop := ∃ t, ts.get? name = some t ∧ t.WellFormed

theorem Receives.knows {ts ts' : ViewTables} {updates : List ViewUpdate}
    (h : ts.Receives updates ts') {name : String} (hname : ts.Knows name) : ts'.Knows name := by
  obtain ⟨t, ht, hwf⟩ := hname
  obtain ⟨t', ht', hreceives⟩ := h.table name t ht hwf
  exact ⟨t', ht', hreceives.wellFormed⟩

/-- A table after a batch was there before, and has taken its part of the batch. -/
theorem Receives.exists_table {ts ts' : ViewTables} {updates : List ViewUpdate}
    (h : ts.Receives updates ts') {name : String}
    (hwf : ∀ t, ts.get? name = some t → t.WellFormed) {t' : ViewTable}
    (ht' : ts'.get? name = some t') :
    ∃ t, ts.get? name = some t ∧ t.Receives (intentsFor updates name) t' := by
  cases ht : ts.get? name with
  | none =>
    rw [h.isNone name ht] at ht'
    cases ht'
  | some t =>
    obtain ⟨u, hu, hreceives⟩ := h.table name t ht (hwf t ht)
    obtain rfl : u = t' := Option.some.inj (hu.symm.trans ht')
    exact ⟨t, rfl, hreceives⟩

/-- A batch neither adds nor removes tables. -/
theorem Receives.map_view {ts ts' : ViewTables} {updates : List ViewUpdate}
    (h : ts.Receives updates ts') {name : String}
    (hwf : ∀ t, ts.get? name = some t → t.WellFormed) :
    (ts'.get? name).map ViewTable.view = (ts.get? name).map ViewTable.view := by
  cases ht : ts.get? name with
  | none => rw [h.isNone name ht]
  | some t =>
    obtain ⟨t', ht', hreceives⟩ := h.table name t ht (hwf t ht)
    rw [ht', Option.map_some, Option.map_some, hreceives.view]

theorem Receives.map_stored?_of_forall_ne {ts ts' : ViewTables} {updates : List ViewUpdate}
    (h : ts.Receives updates ts') {name : String}
    (hwf : ∀ t, ts.get? name = some t → t.WellFormed) {id : ViewKey}
    (hne : ∀ u ∈ updates, ∀ i ∈ u.intents, i.row ≠ id) :
    (ts'.get? name).map (·.stored? id) = (ts.get? name).map (·.stored? id) := by
  cases ht : ts.get? name with
  | none => rw [h.isNone name ht]
  | some t =>
    obtain ⟨t', ht', hreceives⟩ := h.table name t ht (hwf t ht)
    have hstored : t'.stored? id = t.stored? id := by
      refine hreceives.stored?_of_forall_ne fun i hi => ?_
      obtain ⟨u, hu, hi⟩ := List.mem_flatMap.mp hi
      exact hne u (List.mem_filter.mp hu).1 i hi
    rw [ht', Option.map_some, Option.map_some, hstored]

theorem receives_nil (ts : ViewTables) : ts.Receives [] ts where
  table _ t ht hwf := ⟨t, ht, hwf.receives_nil⟩
  isNone _ h := h

theorem applyUpdate_of_knows {ts : ViewTables} {u : ViewUpdate} (hu : ts.Knows u.view) :
    ∃ ts', ts.applyUpdate u = .ok ts' ∧ ts.Receives [u] ts' := by
  obtain ⟨table, htable, hwf⟩ := hu
  obtain ⟨table', hfold, hreceives⟩ := ViewTable.receives_of_wellFormed hwf u.intents
  refine ⟨⟨ts.tables.insert u.view table'⟩, ?_, fun name t ht ht' => ?_, fun name hnone => ?_⟩
  · rw [ViewTables.applyUpdate, htable]
    simp only [hfold]
    rfl
  · by_cases hname : u.view = name
    · subst hname
      obtain rfl : table = t := Option.some.inj (htable.symm.trans ht)
      refine ⟨table', by rw [get?_insert, if_pos rfl], ?_⟩
      simpa [intentsFor] using hreceives
    · refine ⟨t, by rw [get?_insert, if_neg hname, ht], ?_⟩
      have hintents : intentsFor [u] name = [] := by simp [intentsFor, hname]
      rw [hintents]
      exact ht'.receives_nil
  · have hname : u.view ≠ name := by
      rintro rfl
      rw [hnone] at htable
      cases htable
    rw [get?_insert, if_neg hname, hnone]

theorem intentsFor_append (updates others : List ViewUpdate) (name : String) :
    intentsFor (updates ++ others) name = intentsFor updates name ++ intentsFor others name := by
  simp [intentsFor]

theorem Receives.append {ts next ts' : ViewTables} {updates others : List ViewUpdate}
    (hfirst : ts.Receives updates next) (hrest : next.Receives others ts') :
    ts.Receives (updates ++ others) ts' where
  table name t ht hwf := by
    obtain ⟨t₁, ht₁, h₁⟩ := hfirst.table name t ht hwf
    obtain ⟨t₂, ht₂, h₂⟩ := hrest.table name t₁ ht₁ h₁.wellFormed
    refine ⟨t₂, ht₂, ?_⟩
    rw [intentsFor_append]
    exact h₁.append h₂
  isNone name hnone := hrest.isNone name (hfirst.isNone name hnone)

theorem foldlM_of_knows {ts : ViewTables} {updates : List ViewUpdate}
    (hknown : ∀ u ∈ updates, ts.Knows u.view) :
    ∃ ts', updates.foldlM applyUpdate ts = .ok ts' ∧ ts.Receives updates ts' := by
  induction updates generalizing ts with
  | nil => exact ⟨ts, rfl, receives_nil ts⟩
  | cons u updates ih =>
    obtain ⟨next, hnext, hfirst⟩ := applyUpdate_of_knows (hknown u List.mem_cons_self)
    obtain ⟨ts', hfold, hrest⟩ := ih fun w hw =>
      hfirst.knows (hknown w (List.mem_cons_of_mem u hw))
    refine ⟨ts', ?_, hfirst.append hrest⟩
    rw [List.foldlM_cons, hnext]
    exact hfold

/-- A batch that is taken is for views that have a table. -/
theorem exists_get?_of_apply {ts ts' : ViewTables} {updates : List ViewUpdate}
    (h : ts.apply updates = .ok ts') {u : ViewUpdate} (hu : u ∈ updates) :
    ∃ t, ts.get? u.view = some t := by
  cases hunknown : updates.find? fun u => (ts.get? u.view).isNone with
  | some w =>
    rw [apply, hunknown] at h
    cases h
  | none =>
    refine Option.ne_none_iff_exists'.mp fun hnone => ?_
    exact List.find?_eq_none.mp hunknown u hu (by rw [hnone]; rfl)

/-- The tables take every batch of updates for views that they know. -/
theorem apply_of_knows {ts : ViewTables} {updates : List ViewUpdate}
    (hknown : ∀ u ∈ updates, ts.Knows u.view) :
    ∃ ts', ts.apply updates = .ok ts' ∧ ts.Receives updates ts' := by
  have hnone : updates.find? (fun u => (ts.get? u.view).isNone) = none := by
    refine List.find?_eq_none.mpr fun u hu => ?_
    obtain ⟨t, ht, _⟩ := hknown u hu
    simp [ht]
  obtain ⟨ts', hfold, hreceives⟩ := foldlM_of_knows hknown
  refine ⟨ts', ?_, hreceives⟩
  rw [apply, hnone]
  exact hfold

end ViewTables

end ViewMaintenance
