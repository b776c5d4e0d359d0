import ViewMaintenance.Proofs.Engine.Attempts
import ViewMaintenance.Proofs.Engine.Refusal

namespace ViewMaintenance

namespace View

/-- A deletion reaches all of a fragment that is in columns which the schema of the view does not
    know. -/
def CoversUnknown (v : View) (deletion : Option Deletion) (f : Row) : Prop :=
  ∀ c x, f.cell? c = some x → v.schema.isRegular c = false →
    Deletion.covers deletion x.timestamp = true

variable {v : View} {r f : Row}

theorem knowsColumns_iff : v.KnowsColumns r ↔ v.unknownColumn? r = none :=
  unknownColumn?_eq_none_iff.symm

theorem KnowsColumns.shadow (h : v.KnowsColumns r) (d : Option Deletion) :
    v.KnowsColumns (r.shadow d) :=
  knowsColumns_iff.mpr (unknownColumn?_shadow (knowsColumns_iff.mp h) d)

/-- A merge brings an unknown column to light exactly if the deletions of both sides do not reach it. -/
theorem KnowsColumns.join_iff (h : v.KnowsColumns r) :
    v.KnowsColumns (r.join f) ↔ v.CoversUnknown (latest? r.deletion f.deletion) f := by
  -- In such a column the row has no cell, so only that of the fragment counts.
  have hcell {c : String} (hunknown : v.schema.isRegular c = false) :
      (r.join f).cell? c = Write.surviving (latest? r.deletion f.deletion) (f.cell? c) := by
    have hnone : r.cell? c = none := by
      refine Option.eq_none_iff_forall_ne_some.mpr fun x hx => ?_
      have hregular := h c (by rw [hx]; rfl)
      rw [hunknown] at hregular
      cases hregular
    rw [Row.cell?_join_eq, hnone, latest?_none_left]
  constructor
  · intro hjoin c x hx hunknown
    by_contra hnot
    have hkept : (r.join f).cell? c = some x := by
      rw [hcell hunknown, hx]
      exact Write.surviving_eq_some.mpr ⟨rfl, Bool.not_eq_true _ ▸ hnot⟩
    have hregular := hjoin c (by rw [hkept]; rfl)
    rw [hunknown] at hregular
    cases hregular
  · intro hcovers c hc
    by_contra hnot
    have hunknown : v.schema.isRegular c = false := by simpa using hnot
    rw [hcell hunknown] at hc
    cases hx : f.cell? c with
    | none =>
      rw [hx] at hc
      cases hc
    | some x =>
      have hdropped : Write.surviving (latest? r.deletion f.deletion) (some x) = none :=
        Write.surviving_of_covers (α := Cell) (hcovers c x hx hunknown)
      rw [hx, hdropped] at hc
      cases hc

end View

/-- What a table holds of a row after a fragment of it. -/
theorem BaseTable.fragment?_top_of_apply {t t' : BaseTable} {f : Row}
    (h : t.apply (.row f) = .ok t') : t'.top.fragment? f.key =
      some (((t.top.fragment? f.key).getD (.empty f.key)).join f) := by
  cases hmerge : ((t.top.fragment? f.key).getD (.empty f.key)).merge f with
  | error err =>
    simp only [apply, Level.apply, Level.applyRow, hmerge] at h
    cases h
  | ok row =>
    simp only [apply, Level.apply, Level.applyRow, hmerge] at h
    obtain rfl := Except.ok.inj h
    obtain ⟨_, rfl⟩ := Row.merge_eq_ok_iff.mp hmerge
    exact SortedMap.get?_insert_self _ _ _

namespace Engine

/-- The stores to which an engine can bring its stores by mutations and flushes, whatever fails. -/
inductive Reaches (e : Engine) (s : Store) : Store → Prop
  | start : Reaches e s s
  | apply {s' : Store} (h : Reaches e s s') (f : Faults) (m : Mutation) (now : Timestamp) :
      Reaches e s (e.apply f m now s').2
  | flush {s' : Store} (h : Reaches e s s') : Reaches e s s'.flush

/-- No row shows a column that a view does not know, and so neither a deletion nor the row before a
    fragment is ever refused for one. A fragment is refused for a column exactly if the deletions
    would not reach it. -/
structure HidesUnknownColumns (e : Engine) (s : Store) : Prop where
  read : ∀ key, ∃ row, s.base.read key = .ok row ∧
    ∀ v ∈ e.views, v.KnowsColumns row ∧ v.unknownColumn? row = none
  scan : ∀ partition range, ∃ rows : List Row, s.base.scan partition range = .ok (rows.map .ok) ∧
    ∀ row ∈ rows, ∀ v ∈ e.views, v.KnowsColumns row
  deleteRange : ∀ f partition range x now u,
    (e.apply f (.deleteRange partition range x) now s).1 ≠ .error (.unknownColumn u)
  deletePartition : ∀ f partition x now u,
    (e.apply f (.deletePartition partition x) now s).1 ≠ .error (.unknownColumn u)
  refused_iff : ∀ fragment now row, s.base.read fragment.key = .ok row →
    ((∃ u, (e.apply .none (.row fragment) now s).1 = .error (.unknownColumn u)) ↔
      ∃ v ∈ e.views, ¬ v.CoversUnknown (latest? row.deletion fragment.deletion) fragment)

/-- A fragment whose unknown columns are all reached by a deletion of the row or by its own is taken. The
    top level merges it with what it holds of the row itself, which need not be the deletion. -/
def TakesHidden (e : Engine) (s : Store) : Prop :=
  ∀ fragment now row, s.base.read fragment.key = .ok row →
    (∀ v ∈ e.views, v.CoversUnknown (latest? row.deletion fragment.deletion) fragment) →
      ∃ updates s', e.apply .none (.row fragment) now s = (.ok updates, s') ∧
        s'.base.top.fragment? fragment.key =
          some (((s.base.top.fragment? fragment.key).getD (.empty fragment.key)).join fragment)

/-- The views know the columns of all rows that a history makes. -/
def KnowsRows (e : Engine) (h : History) : Prop :=
  ∀ key, ∀ v ∈ e.views, v.KnowsColumns (h.row key)

variable {e : Engine} {s s' : Store} {h : History} {t : BaseTable} {m : Mutation} {now : Timestamp}
  {i : Inspection}

theorem knowsRows_nil (e : Engine) : e.KnowsRows [] := by
  intro key v _ c hc
  rw [History.row_nil] at hc
  cases hc

/-- A mutation that is not refused for its columns makes rows with known columns. -/
theorem KnowsRows.append (hknows : e.KnowsRows h) (ht : t.Represents h)
    (hi : t.Inspects now m i) (hknown : i.unknownColumn? e.views = none) :
    e.KnowsRows (h ++ [m]) := by
  intro key v hv
  have hshadow (hnone : m.fragmentOf? key = none) :
      v.KnowsColumns (History.row (h ++ [m]) key) := by
    rw [History.row_append_of_no_fragment hnone]
    exact (hknows key v hv).shadow _
  cases m with
  | row f =>
    by_cases hkey : f.key = key
    · subst hkey
      obtain ⟨d, rfl, _, _, hafter⟩ := ht.delta_of_inspects hi
      rw [← hafter]
      exact Inspection.unknownColumn?_eq_none_iff.mp hknown v hv d.after (by simp [Inspection.rows])
    · exact hshadow (if_neg hkey)
  | deleteRange | deletePartition => exact hshadow rfl

/-- The rows that a scan gives to look at are rows of the history. -/
theorem KnowsRows.unknownColumn?_of_scan (hknows : e.KnowsRows h) (ht : t.Represents h)
    (hm : m.scan?.isSome) (hi : t.Inspects now m i) : i.unknownColumn? e.views = none := by
  cases hi with
  | row => cases hm
  | range _ hscan =>
    refine Inspection.unknownColumn?_eq_none_iff.mpr fun v hv r hr => ?_
    obtain ⟨_, _, hrows⟩ := ht.rows_of_scan hscan
    rw [hrows r hr]
    exact hknows r.key v hv

/-- Of what is looked at for a fragment, only the row after it can hold an unknown column. -/
theorem KnowsRows.unknownColumn?_of_fragment (hknows : e.KnowsRows h) (ht : t.Represents h) {f : Row}
    (hi : t.Inspects now (.row f) i) : i.unknownColumn? e.views = none ↔
      ∀ v ∈ e.views, v.CoversUnknown (latest? (h.row f.key).deletion f.deletion) f := by
  obtain ⟨d, rfl, _, hbefore, hafter⟩ := ht.delta_of_inspects hi
  have hself : (Mutation.row f).fragmentOf? f.key = some f := if_pos rfl
  rw [History.row_append_of_fragment hself] at hafter
  rw [Inspection.unknownColumn?_eq_none_iff]
  refine forall₂_congr fun v hv => ?_
  rw [← (hknows f.key v hv).join_iff, ← hafter]
  refine ⟨fun hall => hall _ (by simp [Inspection.rows]), fun hlast r hr => ?_⟩
  rcases List.mem_pair.mp hr with rfl | rfl
  · rw [hbefore]
    exact hknows f.key v hv
  · exact hlast

/-- A refusal for an unknown column goes back to what is looked at, whatever fails. -/
theorem unknownColumn?_of_apply {f : Faults} {u : UnknownColumn} (hi : s.base.Inspects now m i)
    (herr : (e.apply f m now s).1 = .error (.unknownColumn u)) :
    i.unknownColumn? e.views = some u := by
  have hupdates := updates_of_unknownColumn herr
  rw [e.updates_eq hi] at hupdates
  split at hupdates
  next hunknown =>
    cases hupdates
    exact hunknown
  next => cases hupdates

/-- What holds along the way: the base table has a history, and the views know all columns of its
    rows. -/
theorem Reaches.exists_knowsRows (hbase : s.base = ∅) (hreaches : e.Reaches s s') :
    ∃ h, s'.base.Represents h ∧ e.KnowsRows h := by
  induction hreaches with
  | start =>
    rw [hbase]
    exact ⟨[], BaseTable.represents_empty, e.knowsRows_nil⟩
  | @apply s' _ f m now ih =>
    obtain ⟨h, ht, hknows⟩ := ih
    rcases e.apply_leaves f m now s' with hsame | ⟨updates, views, hupdates, _, hwritten | hdone⟩
    · rw [hsame]
      exact ⟨h, ht, hknows⟩
    · rw [hwritten]
      exact ⟨h, ht, hknows⟩
    · -- The base table is written last, so the check of the columns has passed by then.
      obtain ⟨base, hbase, hdone⟩ := hdone
      obtain ⟨taken, htaken, hafter⟩ := ht.apply m
      obtain rfl : base = taken := Except.ok.inj (hbase.symm.trans htaken)
      obtain ⟨i, hi⟩ := ht.exists_inspects m now
      rw [hdone]
      refine ⟨h ++ [m], hafter, hknows.append ht hi ?_⟩
      rw [e.updates_eq hi] at hupdates
      split at hupdates
      next => cases hupdates
      next hknown => exact hknown
  | flush _ ih =>
    obtain ⟨h, ht, hknows⟩ := ih
    exact ⟨h, ht.flush, hknows⟩

theorem knows_of_mem_updates {views : ViewTables} (hviews : ∀ v ∈ e.views, views.Knows v.name) :
    ∀ u ∈ i.updates e.views, views.Knows u.view := by
  intro u hu
  obtain ⟨v, hv, hname, _⟩ := Inspection.exists_update_iff.mp ⟨u, hu, rfl⟩
  rw [← hname]
  exact hviews v hv

/-- The tables of the views stay well-formed. -/
theorem Reaches.knows (hbase : s.base = ∅) (hreaches : e.Reaches s s')
    (hviews : ∀ v ∈ e.views, s.views.Knows v.name) : ∀ v ∈ e.views, s'.views.Knows v.name := by
  induction hreaches with
  | start => exact hviews
  | @apply s' hreaches f m now ih =>
    have htaken {updates : List ViewUpdate} {views : ViewTables}
        (hupdates : e.updates s'.base.reader m now = .ok updates)
        (happly : s'.views.apply updates = .ok views) : ∀ v ∈ e.views, views.Knows v.name := by
      obtain ⟨h, ht, _⟩ := hreaches.exists_knowsRows hbase
      obtain ⟨i, hi⟩ := ht.exists_inspects m now
      rw [e.updates_eq hi] at hupdates
      split at hupdates
      next => cases hupdates
      next =>
        cases hupdates
        obtain ⟨taken, htaken, hreceives⟩ := ViewTables.apply_of_knows (knows_of_mem_updates ih)
        obtain rfl : views = taken := Except.ok.inj (happly.symm.trans htaken)
        exact fun v hv => hreceives.knows (ih v hv)
    rcases e.apply_leaves f m now s' with
      hsame | ⟨updates, views, hupdates, happly, hwritten | ⟨base, _, hdone⟩⟩
    · rw [hsame]
      exact ih
    · rw [hwritten]
      exact htaken hupdates happly
    · rw [hdone]
      exact htaken hupdates happly
  | flush _ ih => exact ih

theorem KnowsRows.hides (hknows : e.KnowsRows h) (ht : s.base.Represents h) :
    e.HidesUnknownColumns s := by
  have hdeletion {m : Mutation} (hm : m.scan?.isSome) (f : Faults) (now : Timestamp)
      (u : UnknownColumn) : (e.apply f m now s).1 ≠ .error (.unknownColumn u) := by
    intro herr
    obtain ⟨i, hi⟩ := ht.exists_inspects m now
    have hunknown := unknownColumn?_of_apply hi herr
    rw [hknows.unknownColumn?_of_scan ht hm hi] at hunknown
    cases hunknown
  refine ⟨fun key => ?_, fun partition range => ?_, fun f partition range x now u => hdeletion rfl f now u,
    fun f partition x now u => hdeletion rfl f now u, fun fragment now row hread => ?_⟩
  · exact ⟨h.row key, ht.read key, fun v hv =>
      ⟨hknows key v hv, View.knowsColumns_iff.mp (hknows key v hv)⟩⟩
  · obtain ⟨rows, hscan, _, _, hrows⟩ := ht.scan partition range
    refine ⟨rows, hscan, fun row hrow v hv => ?_⟩
    rw [hrows row hrow]
    exact hknows row.key v hv
  · obtain ⟨i, hi⟩ := ht.exists_inspects (.row fragment) now
    obtain rfl : row = h.row fragment.key := Except.ok.inj (hread.symm.trans (ht.read fragment.key))
    have hknown := hknows.unknownColumn?_of_fragment ht hi
    constructor
    · rintro ⟨u, herr⟩
      by_contra hall
      have hnone := hknown.mpr fun v hv => by
        by_contra hnot
        exact hall ⟨v, hv, hnot⟩
      rw [unknownColumn?_of_apply hi herr] at hnone
      cases hnone
    · rintro ⟨v, hv, hnot⟩
      cases hunknown : i.unknownColumn? e.views with
      | none => exact absurd (hknown.mp hunknown v hv) hnot
      | some u =>
        have hupdates := e.updates_eq hi
        rw [hunknown] at hupdates
        exact ⟨u, congrArg Prod.fst (apply_of_updates_error hupdates)⟩

theorem KnowsRows.takes (hknows : e.KnowsRows h) (ht : s.base.Represents h)
    (hviews : ∀ v ∈ e.views, s.views.Knows v.name) : e.TakesHidden s := by
  intro fragment now row hread hcovers
  obtain ⟨i, hi⟩ := ht.exists_inspects (.row fragment) now
  obtain rfl : row = h.row fragment.key := Except.ok.inj (hread.symm.trans (ht.read fragment.key))
  have hupdates := e.updates_eq hi
  rw [(hknows.unknownColumn?_of_fragment ht hi).mpr hcovers] at hupdates
  obtain ⟨views, happly, _⟩ := ViewTables.apply_of_knows (knows_of_mem_updates hviews)
  obtain ⟨base, hbase, _⟩ := ht.apply (.row fragment)
  exact ⟨_, _, apply_of_ok hupdates happly hbase, BaseTable.fragment?_top_of_apply hbase⟩

/-- A column that a view does not know is never read from a base table that was empty at first,
    whatever fails and whatever is flushed. Deletions are never refused for a column. If the
    views have tables, fragments with columns that a deletion hides are taken: an engine looks at
    the row that a fragment makes and not at the fragment. -/
theorem Reaches.hidesUnknownColumns (hbase : s.base = ∅) (hreaches : e.Reaches s s') :
    e.HidesUnknownColumns s' ∧ ((∀ v ∈ e.views, s.views.Knows v.name) → e.TakesHidden s') := by
  obtain ⟨h, ht, hknows⟩ := hreaches.exists_knowsRows hbase
  exact ⟨hknows.hides ht, fun hviews =>
    hknows.takes ht (hreaches.knows hbase hviews)⟩

section Orders

/-- A price of the order, which no view of the orders knows. -/
def priced : Row := ((RowWrite.update order 5).set "price" [3]).toRow

/-- After the deletion of the order, which is later than the price, the price is taken and stored. No
    read shows it, and the order can be deleted again. -/
theorem hidesUnknownColumns_of_priced :
    let s := Store.ofViews ordersEngine.views
    let s' := (ordersEngine.apply .none (.deletePartition order.partition ⟨9⟩) 10 s).2.flush
    ∃ updates s'', ordersEngine.apply .none (.row priced) 11 s' = (.ok updates, s'') ∧
      (∃ stored, s''.base.top.fragment? order = some stored ∧ (stored.cell? "price").isSome) ∧
      ordersEngine.HidesUnknownColumns s'' := by
  intro s s'
  have hreaches : ordersEngine.Reaches s s' := (Reaches.start.apply .none _ 10).flush
  have hviews : ∀ v ∈ ordersEngine.views, s.views.Knows v.name := fun v hv =>
    ⟨_, fresh_orders.table v hv, ViewTable.wellFormed_new v⟩
  have hread : s'.base.read priced.key = .ok (.ofDeletion order (some ⟨9⟩)) := by decide +kernel
  have hcovers : ∀ v : View, v.CoversUnknown (latest? (some ⟨9⟩) priced.deletion) priced := by
    intro v c x hx _
    have hmem : (c, x) ∈ priced.cells.entries := SortedMap.mem_entries_of_get? hx
    obtain rfl : x = .new 5 [3] := congrArg Prod.snd (List.mem_singleton.mp hmem)
    rfl
  obtain ⟨updates, s'', happly, hstored⟩ := (Reaches.hidesUnknownColumns rfl hreaches).2 hviews
    priced 11 _ hread fun v _ => hcovers v
  have hafter := (Reaches.hidesUnknownColumns rfl (hreaches.apply .none (.row priced) 11)).1
  rw [happly] at hafter
  exact ⟨updates, s'', happly, ⟨_, hstored, by decide +kernel⟩, hafter⟩

end Orders

end Engine

end ViewMaintenance
