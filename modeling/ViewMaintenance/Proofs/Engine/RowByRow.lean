import ViewMaintenance.Proofs.Engine.Consistency
import ViewMaintenance.Proofs.Engine.Inspection
import ViewMaintenance.Proofs.Engine.Partition
import ViewMaintenance.Proofs.Engine.Run
import ViewMaintenance.Proofs.Store.Reads
import ViewMaintenance.Proofs.View.Deletion

namespace ViewMaintenance

open Write

namespace BaseTable

/-- A level of the table holds a fragment of a row. -/
def HoldsFragment (t : BaseTable) (key : RowKey) : Prop := ∃ l ∈ t.levels, (l.fragment? key).isSome

theorem Represents.holdsFragment_iff {t : BaseTable} {h : History} (ht : t.Represents h)
    (key : RowKey) : t.HoldsFragment key ↔ h.Writes key := by
  obtain ⟨parts, hparts, hperm⟩ := ht
  rw [HoldsFragment, ← Compaction.writes_flatten_iff hparts]
  simp only [History.Writes, hperm.mem_iff]

end BaseTable

namespace History

theorem row_append_deleteRow (h : History) (key : RowKey) (x : Deletion) (other : RowKey) :
    row (h ++ [.deleteRow key x.markedAt]) other =
      if other = key then (h.row other).shadow (some x) else h.row other := by
  split
  next hkey =>
    subst hkey
    have hfragment : (Mutation.deleteRow other x.markedAt).fragmentOf? other =
        some (.ofDeletion other (some x)) := if_pos rfl
    rw [row_append_of_fragment hfragment, Row.shadow_eq_join]
  next hkey =>
    refine row_append_of_not_touches ?_
    simp [Mutation.touches, Mutation.deleteRow, Mutation.fragmentOf?, Mutation.coveringOf?,
      Row.withDeletion, Row.empty, Ne.symm hkey]

theorem row_append_deleteRows (h : History) (keys : List RowKey) (x : Deletion) (other : RowKey) :
    row (h ++ keys.map (.deleteRow · x.markedAt)) other =
      if other ∈ keys then (h.row other).shadow (some x) else h.row other := by
  induction keys generalizing h with
  | nil => simp
  | cons key keys ih =>
    rw [List.map_cons, List.append_cons, ih, row_append_deleteRow]
    by_cases hkey : other = key <;> by_cases hmem : other ∈ keys <;>
      simp [hkey, hmem, Row.shadow_shadow]

/-- A fragment is merged into the row of a key, or else the row is shadowed at most. -/
theorem row_append_cases (h : History) (m : Mutation) (key : RowKey) :
    (∃ f, m = .row f ∧ f.key = key) ∨ ∃ d, row (h ++ [m]) key = (h.row key).shadow d := by
  have hshadow (hnone : m.fragmentOf? key = none) :
      ∃ d, row (h ++ [m]) key = (h.row key).shadow d := ⟨_, row_append_of_no_fragment hnone⟩
  cases m with
  | row f =>
    by_cases hkey : f.key = key
    · exact .inl ⟨f, rfl, hkey⟩
    · exact .inr (hshadow (if_neg hkey))
  | deleteRange | deletePartition => exact .inr (hshadow rfl)

end History

/-- The full image of a row that maps to a view row is not empty. -/
theorem View.intents_fullImage_ne_nil {v : View} {r : Row} {now : Timestamp} {id : ViewKey}
    (hknown : v.unknownColumn? r = none) (hid : v.rowKey? r now = some id) :
    (v.fullImage r).intents id ≠ [] := by
  have hwritten : ((v.fullImage r).marker.isSome || (v.fullImage r).deletion.isSome ||
      !(v.fullImage r).values.isEmpty) = true := by
    cases hp : v.promoted with
    | some p =>
      obtain ⟨c, hc, hlive, _⟩ := (rowKey?_eq_some_iff hp).mp hid
      have hmarker : v.marker? r = some c.marker :=
        (marker?_eq_some_iff hp).mpr ⟨c, hc, Cell.isTombstone_of_isLive hlive, rfl⟩
      simp [fullImage, hmarker]
    | none =>
      have hstrict : v.isStrict = false := by simp [isStrict, hp]
      have hmarker : v.marker? r = r.marker := (v.marker_eq_of_not_isStrict hstrict r).2.2
      rw [rowKey?_of_not_isStrict hstrict, Option.ite_none_right_eq_some, Row.isPresent_iff] at hid
      rcases hid.1 with hlive | ⟨c, hlive⟩
      · obtain ⟨m, hm⟩ := Option.isSome_iff_exists.mp hlive
        simp [fullImage, hmarker, (live_eq_some.mp hm).1]
      · obtain ⟨x, hx⟩ := Option.isSome_iff_exists.mp hlive
        obtain ⟨hcell, hxlive⟩ := live_eq_some.mp hx
        have htracks : v.tracks c = true := by
          simp only [tracks, hp]
          exact unknownColumn?_eq_none_iff.mp hknown c (by simp [hcell])
        have hvalue : (v.fullImage r).values.get? c = some (v.seen c x) := by
          have htomb : x.isTombstone = false := Cell.isTombstone_of_isLive hxlive
          rw [Changes.values, SortedMap.get?_filter, get?_fullImage, cell?_image, if_pos htracks, hcell]
          simp [Option.filter, htomb]
        cases hempty : (v.fullImage r).values.isEmpty with
        | false => simp
        | true =>
          rw [SortedMap.isEmpty_iff.mp hempty] at hvalue
          cases hvalue
  rw [Changes.intents_eq, if_pos hwritten]
  simp

namespace ViewTables

/-- The table of a name is as before but for its rows, each of which has become another one. -/
structure Turns (ts : ViewTables) (name : String) (f : ViewKey → Row → Row) (ts' : ViewTables) :
    Prop where
  isNone : ts.get? name = none → ts'.get? name = none
  table : ∀ t, ts.get? name = some t → ∃ t', ts'.get? name = some t' ∧ t'.view = t.view ∧
    ∀ id, t'.row id = f id (t.row id)

variable {ts next ts' : ViewTables} {name : String} {f g : ViewKey → Row → Row}

theorem Turns.refl (ts : ViewTables) (name : String) : ts.Turns name (fun _ row => row) ts :=
  ⟨id, fun t ht => ⟨t, ht, rfl, fun _ => rfl⟩⟩

theorem Turns.trans (hfirst : ts.Turns name f next) (hrest : next.Turns name g ts') :
    ts.Turns name (fun id row => g id (f id row)) ts' := by
  refine ⟨fun hnone => hrest.isNone (hfirst.isNone hnone), fun t ht => ?_⟩
  obtain ⟨t₁, ht₁, hview, hrow⟩ := hfirst.table t ht
  obtain ⟨t₂, ht₂, hview', hrow'⟩ := hrest.table t₁ ht₁
  exact ⟨t₂, ht₂, hview'.trans hview, fun id => by rw [hrow', hrow]⟩

theorem Turns.congr (h : ts.Turns name f ts') (hsame : ∀ id row, f id row = g id row) :
    ts.Turns name g ts' := by
  obtain rfl : f = g := funext fun id => funext fun row => hsame id row
  exact h

/-- Tables whose rows agree pairwise show the same. -/
theorem Turns.map_read_eq {t : Timestamp} (h : ts.Turns name f next) (h' : ts.Turns name g ts')
    (hagree : ∀ table, ts.get? name = some table →
      ∀ id, (f id (table.row id)).Agrees t (g id (table.row id))) :
    (next.get? name).map (·.read t) = (ts'.get? name).map (·.read t) := by
  cases htable : ts.get? name with
  | none => rw [h.isNone htable, h'.isNone htable]
  | some table =>
    obtain ⟨a, ha, hview, hrow⟩ := h.table table htable
    obtain ⟨b, hb, hview', hrow'⟩ := h'.table table htable
    rw [ha, hb, Option.map_some, Option.map_some]
    refine congrArg some (ViewTable.read_eq_of_agrees (hview.trans hview'.symm) fun id => ?_)
    rw [hrow, hrow']
    exact hagree table htable id

end ViewTables

namespace Engine

variable {e : Engine} {s : Store} {h : History} {m : Mutation} {now later : Timestamp}
  {i : Inspection} {v : View}

theorem Maintains.turns {ts' : ViewTables} (hv : e.Maintains v)
    (hwf : ∀ t, s.views.get? v.name = some t → t.WellFormed)
    (hreceives : s.views.Receives (i.updates e.views) ts') :
    s.views.Turns v.name (Intent.written (i.intents v)) ts' := by
  refine ⟨hreceives.isNone v.name, fun t ht => ?_⟩
  obtain ⟨t', ht', hrows⟩ := hreceives.table v.name t ht (hwf t ht)
  have hmem (intent : Intent) :
      intent ∈ ViewTables.intentsFor (i.updates e.views) v.name ↔ intent ∈ i.intents v := by
    rw [Inspection.mem_intentsFor_updates_iff]
    constructor
    · rintro ⟨w, hw, hname, hintent⟩
      rwa [← hv.eq_of_name w hw hname]
    · exact fun hintent => ⟨v, hv.mem, rfl, hintent⟩
  have hown := hrows.of_mem_iff (hwf t ht) hmem
  exact ⟨t', ht', hown.view, hown.row⟩

/-- No deletion is refused at a reference time: the views know all columns of the base rows, and no
    base row maps to a view row of a view without a table. -/
structure AdmitsDeletions (e : Engine) (s : Store) (now : Timestamp) : Prop where
  known : ∀ v ∈ e.views, ∀ key row, s.base.read key = .ok row → v.unknownColumn? row = none
  unmapped : ∀ v ∈ e.views, s.views.get? v.name = none → ∀ key row, s.base.read key = .ok row →
    v.rowKey? row now = none

theorem AdmitsDeletions.of_le (hadmits : e.AdmitsDeletions s now) (hle : now ≤ later) :
    e.AdmitsDeletions s later := by
  refine ⟨hadmits.known, fun v hv hnone key row hread => ?_⟩
  have hnow := hadmits.unmapped v hv hnone key row hread
  refine Option.eq_none_iff_forall_ne_some.mpr fun id hid => ?_
  rw [View.rowKey?_of_le hle hid] at hnow
  cases hnow

theorem AdmitsDeletions.apply (hs : e.Holds s h) (hadmits : e.AdmitsDeletions s now) (m : Mutation) :
    e.AdmitsDeletions (e.apply .none m now s).2 now := by
  obtain ⟨i, hi⟩ := hs.base.exists_inspects m now
  have hbefore {v : View} (hv : v ∈ e.views) (key : RowKey) : v.unknownColumn? (h.row key) = none :=
    hadmits.known v hv key _ (hs.base.read key)
  have hunmapped {v : View} (hv : v ∈ e.views) (hnone : s.views.get? v.name = none) (key : RowKey) :
      v.rowKey? (h.row key) now = none := hadmits.unmapped v hv hnone key _ (hs.base.read key)
  rcases e.apply_outcome hs.base m now with ⟨err, happly⟩ | ⟨_, _, _, _, _, _, happly⟩
  · rw [happly]
    exact hadmits
  obtain ⟨hknown, htable, _, hholds, hreceives⟩ := inspected_of_apply hs hi happly
  rw [happly]
  refine ⟨fun v hv key row hread => ?_, fun v hv hnone key row hread => ?_⟩
  · obtain rfl := Except.ok.inj ((hholds.base.read key).symm.trans hread)
    rcases h.row_append_cases m key with ⟨f, rfl, rfl⟩ | ⟨d, hrow⟩
    · obtain ⟨d, rfl, _, _, hafter⟩ := hs.base.delta_of_inspects hi
      rw [← hafter]
      exact hknown v hv d.after (by simp [Inspection.rows])
    · rw [hrow]
      exact View.unknownColumn?_shadow (hbefore hv key) d
  · obtain rfl := Except.ok.inj ((hholds.base.read key).symm.trans hread)
    have htableless : s.views.get? v.name = none := by
      have hview := hreceives.map_view (hs.table v hv)
      rw [hnone, Option.map_none] at hview
      exact Option.map_eq_none_iff.mp hview.symm
    refine Option.eq_none_iff_forall_ne_some.mpr fun id hid => ?_
    rcases h.row_append_cases m key with ⟨f, rfl, rfl⟩ | ⟨d, hrow⟩
    · obtain ⟨d, rfl, rfl, hrow, hafter⟩ := hs.base.delta_of_inspects hi
      -- The view row would have come into being now, and its full image would have been refused.
      rw [← hafter] at hid
      have hnew : (Inspection.row d).intents v = (v.fullImage d.after).intents id := by
        simp only [Inspection.intents, hrow, hunmapped hv htableless, hid, View.intents]
      have hintents : (v.fullImage d.after).intents id ≠ [] :=
        View.intents_fullImage_ne_nil (hknown v hv d.after (by simp [Inspection.rows])) hid
      have hsome := htable v hv (hnew ▸ hintents)
      rw [htableless] at hsome
      cases hsome
    · rw [hrow] at hid
      have hmapped := View.rowKey?_of_shadow hid
      rw [hunmapped hv htableless] at hmapped
      cases hmapped

/-- In a run whose reference times never decrease no deletion is refused. -/
theorem Blank.admitsDeletions (hs : e.Blank s) {events : List Event}
    (hsorted : (events.filterMap Event.time? ++ [now]).Pairwise (· ≤ ·)) :
    e.AdmitsDeletions (e.run s events) now := by
  induction events using List.reverseRecOn generalizing now with
  | nil =>
    have hread (key : RowKey) : s.base.read key = .ok (.empty key) := by
      rw [hs.base, BaseTable.represents_empty.read, History.row_nil]
    refine ⟨fun v _ key row hrow => ?_, fun v _ _ key row hrow => ?_⟩ <;>
      obtain rfl := Except.ok.inj ((hread key).symm.trans hrow)
    · rfl
    · exact v.rowKey?_ofDeletion key none now
  | append_singleton events ev ih =>
    obtain ⟨h, hholds, _⟩ := hs.run events
    rw [List.filterMap_append] at hsorted
    rw [run_append_singleton]
    cases ev with
    | flush =>
      have hnil : [Event.flush].filterMap Event.time? = [] := rfl
      rw [hnil, List.append_nil] at hsorted
      have hadmits := ih hsorted
      have hread {key : RowKey} {row : Row} (hrow : (e.run s events).flush.base.read key = .ok row) :
          (e.run s events).base.read key = .ok row := by
        rw [hholds.base.read, ← hrow, ← hholds.base.flush.read]
        rfl
      exact ⟨fun v hv key row hrow => hadmits.known v hv key row (hread hrow),
        fun v hv hnone key row hrow => hadmits.unmapped v hv hnone key row (hread hrow)⟩
    | apply m time =>
      have hsplit : (events.filterMap Event.time? ++ [time] ++ [now]).Pairwise (· ≤ ·) := hsorted
      obtain ⟨hearlier, _, hlast⟩ := List.pairwise_append.mp hsplit
      have hle : time ≤ now := hlast time (by simp) now List.mem_cons_self
      exact ((ih hearlier).apply hholds m).of_le hle

section Deletions

variable (hs : e.Holds s h) (hadmits : e.AdmitsDeletions s now)

include hs hadmits

/-- The deletion of a range is taken, and deletes the view rows that base rows of the range map to. -/
theorem AdmitsDeletions.apply_covering {partition : Bytes} {range : ClusteringRange} {x : Deletion}
    (hm : m.scan? = some (partition, range, x)) :
    ∃ updates s', e.apply .none m now s = (.ok updates, s') ∧ e.Holds s' (h ++ [m]) ∧
      ∀ v, e.Maintains v → s.views.Turns v.name (fun id row =>
        if id.base.partition = partition ∧ range.contains id.base.clustering then
          Intent.written (v.deletion (h.row id.base) x now) id row else row) s'.views := by
  obtain ⟨rows, hscan, hsorted, hkeys, hrows⟩ := hs.base.scan partition range
  have hi : s.base.Inspects now m (.range rows x now) := .range hm hscan
  have hread {r : Row} (hr : r ∈ rows) : s.base.read r.key = .ok r :=
    (hs.base.read r.key).trans (congrArg _ (hrows r hr).symm)
  obtain ⟨s', happly⟩ := apply_of_known hs hi
    (fun v hv r hr => hadmits.known v hv r.key r (hread hr)) fun v hv hintents => by
      obtain ⟨intent, hintent⟩ := List.exists_mem_of_ne_nil _ hintents
      obtain ⟨id, hid, _⟩ := List.mem_map.mp hintent
      obtain ⟨r, hr, hmaps⟩ := List.mem_filterMap.mp hid
      refine Option.isSome_iff_ne_none.mpr fun hnone => ?_
      rw [hadmits.unmapped v hv hnone r.key r (hread hr)] at hmaps
      cases hmaps
  obtain ⟨_, _, _, hholds, hreceives⟩ := inspected_of_apply hs hi happly
  refine ⟨_, s', happly, hholds, fun v hv => (hv.turns (hs.table v hv.mem) hreceives).congr ?_⟩
  rintro ⟨key, promoted⟩ row
  change Intent.written (v.deletions rows x now) _ row = _
  by_cases hmem : ∃ r ∈ rows, r.key = key
  · obtain ⟨hpartition, hin, _⟩ := (hkeys key).mp hmem
    obtain ⟨r, hr, rfl⟩ := hmem
    rw [if_pos ⟨hpartition, hin⟩, ← hrows r hr]
    exact View.written_deletions_of_mem hsorted hr x now promoted row
  · rw [View.written_deletions_of_not_mem hmem]
    split
    next hin =>
      have hw : ¬ h.Writes key := fun hw => hmem ((hkeys key).mpr ⟨hin.1, hin.2, hw⟩)
      rw [View.deletion, History.row_of_not_writes hw, View.rowKey?_ofDeletion]
      rfl
    next => rfl

/-- The deletion of a row is taken, and each view follows it. -/
theorem AdmitsDeletions.apply_deleteRow (key : RowKey) (x : Deletion) :
    ∃ updates s', e.apply .none (.deleteRow key x.markedAt) now s = (.ok updates, s') ∧
      e.Holds s' (h ++ [.deleteRow key x.markedAt]) ∧
      ∀ v, e.Maintains v → s.views.Turns v.name (fun id row =>
        if id.base = key then Intent.written (v.rowDeletion (h.row id.base) x now) id row else row)
          s'.views := by
  have hmerge : (h.row key).merge (.ofDeletion key (some x)) = .ok ((h.row key).shadow (some x)) := by
    rw [Row.merge_eq_ok (History.key_row h key), ← Row.shadow_eq_join]
  have hi : s.base.Inspects now (.deleteRow key x.markedAt)
      (.row ⟨h.row key, (h.row key).shadow (some x), now, rfl⟩) := .row (hs.base.read key) hmerge rfl
  have hknown : ∀ v ∈ e.views, ∀ r ∈ [h.row key, (h.row key).shadow (some x)],
      v.unknownColumn? r = none := by
    intro v hv
    have hbefore := hadmits.known v hv key _ (hs.base.read key)
    simpa using ⟨hbefore, View.unknownColumn?_shadow hbefore _⟩
  obtain ⟨s', happly⟩ := apply_of_known hs hi hknown fun v hv hintents => by
    refine Option.isSome_iff_ne_none.mpr fun hnone => hintents ?_
    exact View.rowDeletion_of_none (hadmits.unmapped v hv hnone key _ (hs.base.read key))
  obtain ⟨_, _, _, hholds, hreceives⟩ := inspected_of_apply hs hi happly
  refine ⟨_, s', happly, hholds, fun v hv => (hv.turns (hs.table v hv.mem) hreceives).congr ?_⟩
  intro id row
  change Intent.written (v.rowDeletion (h.row key) x now) id row = _
  split
  next hbase => rw [hbase]
  next hbase =>
    refine Intent.written_of_forall_ne (fun i hintent hid => hbase ?_) row
    have hmaps := View.base_of_rowKey? (View.rowKey?_of_mem_rowDeletion hintent)
    rw [← hid, hmaps, History.key_row]

end Deletions

/-- The deletions of rows one by one. -/
def deleteRows (keys : List RowKey) (x : Deletion) (now : Timestamp) : List Event :=
  keys.map fun key => .apply (.deleteRow key x.markedAt) now

/-- The deletions of rows one by one are taken, and each view follows them. A row that is deleted twice
    changes with its first deletion only. -/
theorem AdmitsDeletions.run_deleteRows (hs : e.Holds s h) (hadmits : e.AdmitsDeletions s now)
    (keys : List RowKey) (x : Deletion) :
    (∀ result ∈ e.results s (deleteRows keys x now), result.isOk = true) ∧
      e.Holds (e.run s (deleteRows keys x now)) (h ++ keys.map (.deleteRow · x.markedAt)) ∧
      ∀ v, e.Maintains v → s.views.Turns v.name (fun id row =>
        if id.base ∈ keys then Intent.written (v.rowDeletion (h.row id.base) x now) id row else row)
          (e.run s (deleteRows keys x now)).views := by
  induction keys generalizing s h with
  | nil =>
    refine ⟨fun _ hresult => (List.not_mem_nil hresult).elim, ?_, fun v _ => ?_⟩
    · rw [List.map_nil, List.append_nil]
      exact hs
    exact (ViewTables.Turns.refl s.views v.name).congr fun id row => by simp
  | cons key keys ih =>
    obtain ⟨updates, s', happly, hs', hturns⟩ := hadmits.apply_deleteRow hs key x
    have hadmits' := hadmits.apply hs (.deleteRow key x.markedAt)
    rw [happly] at hadmits'
    obtain ⟨hresults, hholds, hrest⟩ := ih hs' hadmits'
    have hrun : e.run s (deleteRows (key :: keys) x now) = e.run s' (deleteRows keys x now) := by
      rw [deleteRows, List.map_cons, run, List.foldl_cons, after, happly]
      rfl
    refine ⟨fun result hresult => ?_, ?_, fun v hv => ?_⟩
    · rw [deleteRows, List.map_cons, results, happly] at hresult
      rcases List.mem_cons.mp hresult with rfl | hresult
      · rfl
      · exact hresults result hresult
    · rw [hrun, List.map_cons, List.append_cons]
      exact hholds
    · rw [hrun]
      refine ((hturns v hv).trans (hrest v hv)).congr fun id row => ?_
      rw [History.row_append_deleteRow]
      by_cases hkey : id.base = key
      · simp only [hkey, if_true, View.rowDeletion_shadow, Intent.written_nil, ite_self,
          List.mem_cons_self]
      · simp only [hkey, if_false, List.mem_cons, false_or]

/-- The deletion of a partition gives the same result as the deletion of its full range, and leaves the
    same view tables and a base table that is read alike. -/
theorem apply_deletePartition (e : Engine) (now : Timestamp) (hbase : s.base.Represents h)
    (partition : Bytes) (x : Deletion) :
    let whole := e.apply .none (.deletePartition partition x) now s
    let full := e.apply .none (.deleteRange partition .full x) now s
    whole.1 = full.1 ∧ whole.2.views = full.2.views ∧ ∀ p, whole.2.base.AgreeOn p full.2.base := by
  intro whole full
  have hrefl (p : Bytes) : s.base.AgreeOn p s.base := ⟨fun _ _ => rfl, fun _ => rfl⟩
  cases hupdates : e.updates s.base.reader (.deletePartition partition x) now with
  | error err =>
    have hwhole : whole = (.error err, s) := apply_of_updates_error hupdates
    have hfull : full = (.error err, s) := apply_of_updates_error hupdates
    rw [hwhole, hfull]
    exact ⟨rfl, rfl, hrefl⟩
  | ok updates =>
    cases hviews : s.views.apply updates with
    | error err =>
      have hwhole : whole = (.error (.store err), s) := apply_of_views_error hupdates hviews
      have hfull : full = (.error (.store err), s) := apply_of_views_error hupdates hviews
      rw [hwhole, hfull]
      exact ⟨rfl, rfl, hrefl⟩
    | ok views =>
      obtain ⟨base, happly, hrepresents⟩ := hbase.apply (.deletePartition partition x)
      obtain ⟨base', happly', hrepresents'⟩ := hbase.apply (.deleteRange partition .full x)
      have hwhole : whole = (.ok updates, ⟨base, views⟩) := apply_of_ok hupdates hviews happly
      have hfull : full = (.ok updates, ⟨base', views⟩) := apply_of_ok hupdates hviews happly'
      rw [hwhole, hfull]
      refine ⟨rfl, rfl, fun p => hrepresents.agreeOn hrepresents' fun key _ => ⟨?_, ?_⟩⟩
      · rw [History.row_append_of_scan? rfl, History.row_append_of_scan? rfl]
      · simp [History.Writes, or_and_right, exists_or, Mutation.fragmentOf?]

/-- In a run whose reference times never decrease, the deletion of a range and the deletions of
    its rows one by one, in any order, are taken and leave the same base rows. The tables of
    views that own their names show the same from then on. The deletion of a partition is the
    deletion of its full range. -/
theorem Blank.deleteRange_eq_deleteRows (hs : e.Blank s) {events : List Event}
    (hsorted : (events.filterMap Event.time? ++ [now]).Pairwise (· ≤ ·)) {partition : Bytes}
    {range : ClusteringRange} {keys : List RowKey}
    (hkeys : ∀ key, key ∈ keys ↔ key.partition = partition ∧ range.contains key.clustering ∧
      (e.run s events).base.HoldsFragment key) (x : Deletion) :
    let start := e.run s events
    let atOnce := e.apply .none (.deleteRange partition range x) now start
    let oneByOne := e.run start (deleteRows keys x now)
    let whole := e.apply .none (.deletePartition partition x) now start
    let full := e.apply .none (.deleteRange partition .full x) now start
    (atOnce.1.isOk = true ∧ ∀ result ∈ e.results start (deleteRows keys x now), result.isOk = true) ∧
    (∀ key, start.base.HoldsFragment key → atOnce.2.base.read key = oneByOne.base.read key) ∧
    (∀ v, e.Maintains v → ∀ t, now ≤ t →
      (atOnce.2.views.get? v.name).map (·.read t) = (oneByOne.views.get? v.name).map (·.read t)) ∧
    whole.1 = full.1 ∧ whole.2.views = full.2.views ∧
      (∀ key, whole.2.base.read key = full.2.base.read key) ∧
      ∀ p r, whole.2.base.scan p r = full.2.base.scan p r := by
  intro start atOnce oneByOne whole full
  obtain ⟨h, hholds, htracked⟩ := hs.run events
  have hadmits := hs.admitsDeletions hsorted
  obtain ⟨updates, s', happly, hholds', hturns⟩ :=
    hadmits.apply_covering hholds (m := .deleteRange partition range x) rfl
  have hatOnce : atOnce = (.ok updates, s') := happly
  obtain ⟨hresults, hholds'', hturns'⟩ := hadmits.run_deleteRows hholds keys x
  obtain ⟨hresult, hviews, hbase⟩ := e.apply_deletePartition now hholds.base partition x
  refine ⟨⟨by rw [hatOnce]; rfl, hresults⟩, fun key hheld => ?_, fun v hv t hle => ?_, hresult, hviews,
    fun key => (hbase key.partition).read key rfl, fun p r => (hbase p).scan r⟩
  · have hmem : (key.partition = partition ∧ range.contains key.clustering = true) ↔ key ∈ keys := by
      simp [hkeys, start, hheld]
    rw [hatOnce, hholds'.base.read, hholds''.base.read, History.row_append_of_scan? rfl,
      History.row_append_deleteRows, if_congr hmem rfl rfl]
  · rw [hatOnce]
    refine (hturns v hv).map_read_eq (hturns' v hv) fun table ht id => ?_
    by_cases hmem : id.base ∈ keys
    · obtain ⟨hpartition, hin, _⟩ := (hkeys id.base).mp hmem
      obtain ⟨passages, hevolution, hsub, _⟩ := (htracked v hv).evolved table ht id.base
      obtain ⟨hsorted, _, hlast⟩ := List.pairwise_append.mp hsorted
      rw [if_pos ⟨hpartition, hin⟩, if_pos hmem]
      exact hevolution.agrees_of_deletion (List.pairwise_map.mp (hsorted.sublist hsub))
        (passage_le (fun time htime => hlast time htime now List.mem_cons_self) hsub) hle x id.promoted
    · rw [if_neg hmem]
      split
      next hin =>
        -- A row of the range that is not among the keys was never written, and maps to no view row.
        have hw : ¬ h.Writes id.base := fun hw =>
          hmem ((hkeys id.base).mpr ⟨hin.1, hin.2, (hholds.base.holdsFragment_iff id.base).mpr hw⟩)
        rw [View.deletion, History.row_of_not_writes hw, View.rowKey?_ofDeletion]
        exact .refl t _
      next => exact .refl t _

section Orders

/-- An order that gets a note on another level than it was placed, and an order that was placed later. -/
def notedOrders : List Event :=
  [placeOrder 1 2 4 1, .flush,
    .apply ((RowWrite.update (orderAt 1) 7).set "note" [3]).toMutation 1, placeOrder 2 1 9 2]

/-- The first order loses its status and keeps its note. The view rows of both ways are stored
    differently and are read alike. -/
theorem deleteRange_eq_deleteRows_of_notedOrders :
    let start := ordersEngine.run (.ofViews ordersEngine.views) notedOrders
    let atOnce := (ordersEngine.apply .none (.deleteRange [0] .full ⟨5⟩) 2 start).2
    let oneByOne := ordersEngine.run start (deleteRows [orderAt 2, orderAt 1] ⟨5⟩ 2)
    atOnce.base.read (orderAt 1) = oneByOne.base.read (orderAt 1) ∧
      (atOnce.views.get? "all_orders").map (·.read 2) =
        (oneByOne.views.get? "all_orders").map (·.read 2) ∧
      (atOnce.views.get? "orders_by_status").map (·.read 2) =
        (oneByOne.views.get? "orders_by_status").map (·.read 2) ∧
      (atOnce.views.get? "all_orders").map ViewTable.rows ≠
        (oneByOne.views.get? "all_orders").map ViewTable.rows := by
  intro start atOnce oneByOne
  have hfragments : start.base.levels.flatMap (·.rows.keys) = [orderAt 1, orderAt 2, orderAt 1] := by
    decide +kernel
  have hheld (key : RowKey) : start.base.HoldsFragment key ↔ key = orderAt 1 ∨ key = orderAt 2 := by
    have hmem : key ∈ start.base.levels.flatMap (·.rows.keys) ↔ start.base.HoldsFragment key := by
      simp only [List.mem_flatMap, SortedMap.mem_keys_iff, BaseTable.HoldsFragment, Level.fragment?]
    rw [← hmem, hfragments]
    simp only [List.mem_cons, List.not_mem_nil, or_false]
    rw [← or_assoc, or_right_comm, or_self]
  have hkeys (key : RowKey) : key ∈ [orderAt 2, orderAt 1] ↔ key.partition = [0] ∧
      ClusteringRange.full.contains key.clustering ∧ start.base.HoldsFragment key := by
    rw [hheld]
    constructor
    · intro hmem
      rcases List.mem_pair.mp hmem with rfl | rfl <;> exact ⟨rfl, rfl, by simp⟩
    · rintro ⟨_, _, rfl | rfl⟩ <;> simp
  have hsorted : (notedOrders.filterMap Event.time? ++ [(2 : Timestamp)]).Pairwise (· ≤ ·) := by
    decide
  obtain ⟨_, hread, hviews, _⟩ :=
    fresh_orders.blank.deleteRange_eq_deleteRows hsorted hkeys ⟨5⟩
  have hmaintains {v : View} (hv : v ∈ ordersEngine.views) : ordersEngine.Maintains v :=
    maintains_of_nodup fresh_orders.names hv
  exact ⟨hread (orderAt 1) ((hheld _).mpr (.inl rfl)),
    hviews allOrders (hmaintains List.mem_cons_self) 2 (Int64.le_refl 2),
    hviews ordersByStatus (hmaintains (by simp [ordersEngine])) 2 (Int64.le_refl 2), by decide +kernel⟩

end Orders

end Engine

end ViewMaintenance
