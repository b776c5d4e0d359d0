import ViewMaintenance.Proofs.Store.Scan
import ViewMaintenance.Store.Covering

namespace ViewMaintenance

namespace Row

/-- The merge of rows, if there are any. -/
def joinAll? : List Row → Option Row
  | [] => none
  | r :: rows => Option.merge join (some r) (joinAll? rows)

theorem joinAll?_cons_join {a b : Row} (hkey : a.key = b.key) (rows : List Row) :
    joinAll? (a.join b :: rows) = joinAll? (a :: b :: rows) := by
  unfold joinAll?
  rw [joinAll?]
  cases joinAll? rows with
  | none => rfl
  | some r => exact congrArg some (join_assoc hkey)

theorem key_of_joinAll? {rows : List Row} {key : RowKey} {r : Row} (hkey : ∀ f ∈ rows, f.key = key)
    (h : joinAll? rows = some r) : r.key = key := by
  cases rows with
  | nil => cases h
  | cons f rows =>
    have hf : f.key = key := hkey f List.mem_cons_self
    unfold joinAll? at h
    cases hrest : joinAll? rows with
    | none =>
      rw [hrest] at h
      obtain rfl := Option.some.inj h
      exact hf
    | some s =>
      rw [hrest] at h
      obtain rfl := Option.some.inj h
      exact hf

theorem shadow_join_shadow {a b : Row} (hkey : a.key = b.key) (d : Option Deletion) :
    (a.shadow d).join (b.shadow d) = (a.join b).shadow d := by
  have hkey' : a.key = (b.shadow d).key := hkey
  calc (a.shadow d).join (b.shadow d)
      = (a.join (b.shadow d)).shadow d := shadow_join d
    _ = ((b.shadow d).join a).shadow d := by rw [join_comm hkey']
    _ = ((b.join a).shadow d).shadow d := by rw [shadow_join]
    _ = (a.join b).shadow d := by rw [shadow_shadow, latest?_self, join_comm hkey.symm]

/-- A deletion can be applied to all parts or to the whole. -/
theorem joinAll?_map_shadow {rows : List Row} {key : RowKey} (hkey : ∀ f ∈ rows, f.key = key)
    (d : Option Deletion) :
    joinAll? (rows.map (·.shadow d)) = (joinAll? rows).map (·.shadow d) := by
  induction rows with
  | nil => rfl
  | cons f rows ih =>
    have hrest : ∀ g ∈ rows, g.key = key := fun g hg => hkey g (List.mem_cons_of_mem _ hg)
    rw [List.map_cons, joinAll?, joinAll?, ih hrest]
    cases h : joinAll? rows with
    | none => rfl
    | some r =>
      have hf : f.key = r.key := (hkey f List.mem_cons_self).trans (key_of_joinAll? hrest h).symm
      exact congrArg some (shadow_join_shadow hf d)

/-- The order of rows of one key does not matter. -/
theorem joinAll?_perm {rows others : List Row} {key : RowKey} (h : rows.Perm others)
    (hkey : ∀ f ∈ rows, f.key = key) : joinAll? rows = joinAll? others := by
  induction h with
  | nil => rfl
  | cons f _ ih =>
    rw [joinAll?, joinAll?, ih fun g hg => hkey g (List.mem_cons_of_mem _ hg)]
  | swap f g rows =>
    have hfg : f.key = g.key :=
      (hkey f (List.mem_cons_of_mem _ List.mem_cons_self)).trans (hkey g List.mem_cons_self).symm
    rw [← joinAll?_cons_join hfg, ← joinAll?_cons_join hfg.symm, join_comm hfg]
  | trans hfirst _ ih₁ ih₂ =>
    exact (ih₁ hkey).trans (ih₂ fun f hf => hkey f (hfirst.mem_iff.mpr hf))

end Row

namespace RowResult

/-- The error that an item is. -/
def error? : RowResult → Option StoreError
  | .error err => some err
  | .ok _ => none

/-- The row that an item is, if it is one of a key. -/
def rowOf? (key : RowKey) : RowResult → Option Row
  | .ok row => if row.key = key then some row else none
  | .error _ => none

theorem join?_eq_some_iff {x y joined : RowResult} : join? x y = some joined ↔
    ∃ a b, x = .ok a ∧ y = .ok b ∧ a.key = b.key ∧ joined = .ok (a.join b) := by
  constructor
  · intro h
    unfold join? at h
    split at h
    next a b =>
      split at h
      next hkey =>
        rw [Row.merge_eq_ok hkey] at h
        exact ⟨a, b, rfl, rfl, hkey, (Option.some.inj h).symm⟩
      next => cases h
    next => cases h
  · rintro ⟨a, b, rfl, rfl, hkey, rfl⟩
    exact join?_of_key_eq hkey

end RowResult

namespace Scan

/-- The errors of a stream, in its order. -/
def errors (items : List RowResult) : List StoreError := items.filterMap RowResult.error?

/-- The rows of a key in a stream. -/
def rowsOf (key : RowKey) (items : List RowResult) : List Row :=
  items.filterMap (RowResult.rowOf? key)

theorem key_of_mem_rowsOf {key : RowKey} {items : List RowResult} :
    ∀ row ∈ rowsOf key items, row.key = key := by
  intro row hrow
  obtain ⟨item, _, hitem⟩ := List.mem_filterMap.mp hrow
  cases item with
  | error err => cases hitem
  | ok r =>
    obtain ⟨hkey, hr⟩ := Option.ite_none_right_eq_some.mp hitem
    rw [← Option.some.inj hr]
    exact hkey

theorem mem_errors_iff {items : List RowResult} {err : StoreError} :
    err ∈ errors items ↔ .error err ∈ items := by
  rw [errors, List.mem_filterMap]
  constructor
  · rintro ⟨item, hitem, herr⟩
    cases item with
    | ok row => cases herr
    | error err' =>
      obtain rfl := Option.some.inj herr
      exact hitem
  · exact fun h => ⟨_, h, rfl⟩

theorem errors_cons (item : RowResult) (items : List RowResult) :
    errors (item :: items) = (RowResult.error? item).toList ++ errors items := by
  unfold errors
  rw [List.filterMap_cons]
  cases RowResult.error? item <;> rfl

theorem errors_append (items others : List RowResult) :
    errors (items ++ others) = errors items ++ errors others := List.filterMap_append

theorem errors_map_ok (rows : List Row) : errors (rows.map .ok) = [] := by
  rw [errors, List.filterMap_map]
  exact List.filterMap_eq_nil_iff.mpr fun _ _ => rfl

/-- A row of the key goes into the merge, and any other item is passed by. -/
theorem joinAll?_rowsOf_cons (key : RowKey) (item : RowResult) (items : List RowResult) :
    Row.joinAll? (rowsOf key (item :: items)) =
      Option.merge Row.join (RowResult.rowOf? key item) (Row.joinAll? (rowsOf key items)) := by
  unfold rowsOf
  rw [List.filterMap_cons]
  cases RowResult.rowOf? key item with
  | none => cases Row.joinAll? (items.filterMap (RowResult.rowOf? key)) <;> rfl
  | some row => rfl

section Coalesce

/-- Joining passes by every error. -/
theorem errors_coalesceFrom (current : RowResult) (items : List RowResult) :
    errors (coalesceFrom RowResult.join? current items) = errors (current :: items) := by
  induction items generalizing current with
  | nil => rfl
  | cons x items ih =>
    unfold coalesceFrom
    cases h : RowResult.join? current x with
    | some joined =>
      obtain ⟨a, b, rfl, rfl, _, rfl⟩ := RowResult.join?_eq_some_iff.mp h
      exact ih (.ok (a.join b))
    | none =>
      change errors (current :: coalesceFrom RowResult.join? x items) = _
      rw [errors_cons, ih, ← errors_cons]

/-- Joining loses no row of a key, also if the rows of the key come in several runs. -/
theorem joinAll?_rowsOf_coalesceFrom (key : RowKey) (current : RowResult) (items : List RowResult) :
    Row.joinAll? (rowsOf key (coalesceFrom RowResult.join? current items)) =
      Row.joinAll? (rowsOf key (current :: items)) := by
  induction items generalizing current with
  | nil => rfl
  | cons x items ih =>
    unfold coalesceFrom
    cases h : RowResult.join? current x with
    | some joined =>
      obtain ⟨a, b, rfl, rfl, hkey, rfl⟩ := RowResult.join?_eq_some_iff.mp h
      change Row.joinAll? (rowsOf key (coalesceFrom RowResult.join? (.ok (a.join b)) items)) = _
      rw [ih]
      by_cases hb : b.key = key
      · have ha : a.key = key := hkey.trans hb
        simpa [rowsOf, RowResult.rowOf?, ha, hb] using Row.joinAll?_cons_join hkey _
      · have ha : a.key ≠ key := fun ha => hb (hkey.symm.trans ha)
        simp [rowsOf, RowResult.rowOf?, ha, hb]
    | none =>
      change Row.joinAll? (rowsOf key (current :: coalesceFrom RowResult.join? x items)) = _
      rw [joinAll?_rowsOf_cons, ih, ← joinAll?_rowsOf_cons]

variable (items : List RowResult)

theorem errors_coalesce : errors (coalesce RowResult.join? items) = errors items := by
  cases items with
  | nil => rfl
  | cons x items => exact errors_coalesceFrom x items

theorem joinAll?_rowsOf_coalesce (key : RowKey) :
    Row.joinAll? (rowsOf key (coalesce RowResult.join? items)) =
      Row.joinAll? (rowsOf key items) := by
  cases items with
  | nil => rfl
  | cons x items => exact joinAll?_rowsOf_coalesceFrom key x items

end Coalesce

/-- A stream is not read past its first error. -/
theorem mapM_id_eq_error_iff {items : List RowResult} {err : StoreError} :
    items.mapM id = .error err ↔ (errors items).head? = some err := by
  induction items with
  | nil => simp [errors, pure, Except.pure]
  | cons item items ih =>
    rw [List.mapM_cons, errors_cons]
    cases item with
    | error first =>
      exact ⟨fun h => congrArg some (Except.error.inj h), fun h => congrArg _ (Option.some.inj h)⟩
    | ok row =>
      change (do return row :: (← items.mapM id)) = Except.error err ↔ _
      rw [show (RowResult.error? (.ok row)).toList ++ errors items = errors items from rfl, ← ih]
      cases items.mapM id with
      | error first => exact Iff.rfl
      | ok rows => exact ⟨nofun, nofun⟩

/-- A stream with an error is not read to its end. -/
theorem mapM_id_fails_iff {items : List RowResult} :
    (∃ err, items.mapM id = .error err) ↔ ∃ err, .error err ∈ items := by
  simp only [mapM_id_eq_error_iff, ← mem_errors_iff]
  cases errors items with
  | nil => simp
  | cons err errs => exact ⟨fun _ => ⟨err, List.mem_cons_self⟩, fun _ => ⟨err, rfl⟩⟩

/-- What a scan makes of several streams, with errors or without. Around an error the merged
    stream need not be in key order, so the fragments of one key need not be neighbours and a key
    can come out more than once. -/
structure Keeps (streams : List (List RowResult)) (merged : List RowResult) (covering : Covering)
    (out : List RowResult) : Prop where
  /-- The errors come out as they were merged. -/
  errors_eq : errors out = errors merged
  /-- Every error of a stream comes out once, and no other error does. -/
  errors_perm : (errors out).Perm (errors streams.flatten)
  /-- What comes out for a key is together what all streams hold of it, less what is deleted. -/
  rows_eq : ∀ key, Row.joinAll? (rowsOf key out) =
    (Row.joinAll? (rowsOf key streams.flatten)).map (·.shadow (covering.deletion? key.clustering))
  /-- All rows are read unless a stream holds an error. -/
  fails_iff : (∃ err, out.mapM id = .error err) ↔ ∃ items ∈ streams, ∃ err, .error err ∈ items
  /-- The first error that was merged is reported. -/
  fails_with : ∀ err, out.mapM id = .error err ↔ (errors merged).head? = some err

/-- The rows of a stream without what a deletion reaches. -/
def shadowed (covering : Covering) (items : List RowResult) : List RowResult :=
  items.map fun item => item.map fun row => row.shadow (covering.deletion? row.key.clustering)

theorem errors_shadowed (covering : Covering) (items : List RowResult) :
    errors (shadowed covering items) = errors items := by
  unfold errors shadowed
  rw [List.filterMap_map]
  congr 1
  funext item
  cases item <;> rfl

theorem rowsOf_shadowed (covering : Covering) (key : RowKey) (items : List RowResult) :
    rowsOf key (shadowed covering items) =
      (rowsOf key items).map (·.shadow (covering.deletion? key.clustering)) := by
  unfold rowsOf shadowed
  rw [List.filterMap_map, List.map_filterMap]
  congr 1
  funext item
  cases item with
  | error err => rfl
  | ok row =>
    change (if row.key = key then some (row.shadow (covering.deletion? row.key.clustering))
      else none) = (if row.key = key then some row else none).map _
    split
    next h =>
      rw [h]
      rfl
    next => rfl

theorem keeps_of_interleaves {streams : List (List RowResult)} {merged : List RowResult}
    (h : Interleaves streams merged) (covering : Covering) :
    Keeps streams merged covering (shadowed covering (coalesce RowResult.join? merged)) := by
  have herrors : errors (shadowed covering (coalesce RowResult.join? merged)) = errors merged := by
    rw [errors_shadowed, errors_coalesce]
  have hperm : (errors merged).Perm (errors streams.flatten) := h.perm.filterMap _
  refine ⟨herrors, herrors ▸ hperm, fun key => ?_, ?_, fun err => ?_⟩
  · have hrows : (rowsOf key merged).Perm (rowsOf key streams.flatten) := h.perm.filterMap _
    rw [rowsOf_shadowed, Row.joinAll?_map_shadow key_of_mem_rowsOf, joinAll?_rowsOf_coalesce,
      Row.joinAll?_perm hrows key_of_mem_rowsOf]
  · simp only [mapM_id_fails_iff, ← mem_errors_iff, herrors, hperm.mem_iff]
    simp only [mem_errors_iff, List.mem_flatten]
    exact ⟨fun ⟨err, items, hitems, herr⟩ => ⟨items, hitems, err, herr⟩,
      fun ⟨items, hitems, err, herr⟩ => ⟨err, items, hitems, herr⟩⟩
  · rw [mapM_id_eq_error_iff, herrors]

end Scan

end ViewMaintenance
