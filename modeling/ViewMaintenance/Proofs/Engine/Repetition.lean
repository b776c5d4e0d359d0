import Mathlib.Logic.Function.Iterate
import ViewMaintenance.Proofs.Engine.Inspection
import ViewMaintenance.Proofs.Engine.Partition
import ViewMaintenance.Proofs.Engine.Run

namespace ViewMaintenance

namespace Engine

variable {e : Engine} {s s' : Store} {h : History} {m : Mutation} {now later : Timestamp}
  {base base' : BaseTable} {i i' : Inspection}

/-- A row of a scan after a deletion is a row of this scan before it, shadowed by the deletion. -/
theorem exists_shadow_of_scan (hbase : base.Represents h) (hbase' : base'.Represents (h ++ [m]))
    {partition : Bytes} {range : ClusteringRange} {x : Deletion}
    (hm : m.scan? = some (partition, range, x)) {rows rows' : List Row}
    (hscan : base.scan partition range = .ok (rows.map .ok))
    (hscan' : base'.scan partition range = .ok (rows'.map .ok)) {r : Row} (hr : r ∈ rows') :
    ∃ row ∈ rows, r = row.shadow (some x) := by
  obtain ⟨_, hkeys, hrows⟩ := hbase.rows_of_scan hscan
  obtain ⟨_, hkeys', hrows'⟩ := hbase'.rows_of_scan hscan'
  have hnone : m.fragmentOf? r.key = none := Mutation.fragmentOf?_of_scan? (by rw [hm]; rfl) r.key
  obtain ⟨hpartition, hin, hwrites⟩ := (hkeys' r.key).mp ⟨r, hr, rfl⟩
  have hbefore : h.Writes r.key := by
    obtain ⟨w, hw, hfragment⟩ := hwrites
    rcases List.mem_append.mp hw with hw | hw
    · exact ⟨w, hw, hfragment⟩
    · rw [List.mem_singleton.mp hw, hnone] at hfragment
      cases hfragment
  obtain ⟨row, hrow, hkey⟩ := (hkeys r.key).mpr ⟨hpartition, hin, hbefore⟩
  refine ⟨row, hrow, ?_⟩
  calc r = History.row (h ++ [m]) r.key := hrows' r hr
    _ = (h.row r.key).shadow (some x) := by
      rw [History.row_append_of_scan? hm, if_pos ⟨hpartition, hin⟩]
    _ = row.shadow (some x) := by rw [← hkey, ← hrows row hrow]

/-- What is looked at when a mutation comes again: the views know its columns, and have no intents that
    they did not have the first time. -/
theorem inspects_again (hbase : base.Represents h) (hi : base.Inspects now m i)
    (hbase' : base'.Represents (h ++ [m])) (hi' : base'.Inspects later m i') (hle : now ≤ later)
    {v : View} (hknown : ∀ r ∈ i.rows, v.unknownColumn? r = none) :
    (∀ r ∈ i'.rows, v.unknownColumn? r = none) ∧ i'.intents v ⊆ i.intents v ∧
      ∀ f, m = .row f → i'.intents v = [] := by
  cases hi with
  | @row f d hbefore hafter hnow =>
    obtain ⟨d, hd, _, _, hrow⟩ := hbase.delta_of_inspects (.row hbefore hafter hnow)
    obtain rfl := Inspection.row.inj hd
    obtain ⟨d', rfl, _, hrow', hrow''⟩ := hbase'.delta_of_inspects hi'
    rw [History.row_append_of_mem (by simp)] at hrow''
    have hempty : (Inspection.row d').intents v = [] := View.intents_of_eq (hrow'.trans hrow''.symm)
    have hafter : v.unknownColumn? d.after = none := hknown d.after (by simp [Inspection.rows])
    refine ⟨fun r hr => ?_, by simp [hempty], fun _ _ => hempty⟩
    rw [hrow] at hafter
    simp only [Inspection.rows, List.mem_cons, List.not_mem_nil, or_false] at hr
    rcases hr with rfl | rfl
    · rwa [hrow']
    · rwa [hrow'']
  | @range _ partition range x rows hm hscan =>
    cases hi' with
    | row => cases hm
    | @range _ _ _ _ rows' hm' hscan' =>
      obtain ⟨rfl, rfl, rfl⟩ : _ ∧ _ ∧ _ := by simpa using hm.symm.trans hm'
      have hshadow {r : Row} := exists_shadow_of_scan hbase hbase' hm hscan hscan' (r := r)
      refine ⟨fun r hr => ?_, fun intent hintent => ?_, fun f hf => ?_⟩
      · obtain ⟨row, hrow, rfl⟩ := hshadow hr
        exact View.unknownColumn?_shadow (hknown row hrow) _
      · obtain ⟨id, hid, rfl⟩ := List.mem_map.mp hintent
        obtain ⟨r, hr, hmaps⟩ := List.mem_filterMap.mp hid
        obtain ⟨row, hrow, rfl⟩ := hshadow hr
        have hbefore := View.rowKey?_of_shadow (View.rowKey?_of_le hle hmaps)
        exact List.mem_map_of_mem (List.mem_filterMap.mpr ⟨row, hrow, hbefore⟩)
      · subst hf
        cases hm

theorem holds_flush_iterate (hs : e.Holds s h) (flushes : ℕ) :
    e.Holds (Store.flush^[flushes] s) h ∧ (Store.flush^[flushes] s).views = s.views := by
  induction flushes with
  | zero => exact ⟨hs, rfl⟩
  | succ flushes ih =>
    rw [Function.iterate_succ_apply']
    exact ⟨⟨ih.1.base.flush, ih.1.table⟩, ih.2⟩

/-- A mutation that comes again at the same or a later time, after any number of flushes, is taken and
    changes neither what reads of the base table give nor what is stored of the views. For a fragment
    there are no updates either. -/
theorem apply_repeated (hs : s.Reachable) (hle : now ≤ later) {updates : List ViewUpdate}
    (happly : e.apply .none m now s = (.ok updates, s')) (flushes : ℕ) :
    ∃ repeated s'', e.apply .none m later (Store.flush^[flushes] s') = (.ok repeated, s'') ∧
      (∀ key, s''.base.read key = s'.base.read key) ∧
      (∀ partition range, s''.base.scan partition range = s'.base.scan partition range) ∧
      s''.views = s'.views ∧ ∀ f, m = .row f → repeated = [] := by
  obtain ⟨h, hholds⟩ := hs.exists_holds e
  obtain ⟨i, hi⟩ := hholds.base.exists_inspects m now
  obtain ⟨hknown, htable, _, hholds', hreceives⟩ := inspected_of_apply hholds hi happly
  obtain ⟨hflushed, hviews⟩ := holds_flush_iterate hholds' flushes
  obtain ⟨i', hi'⟩ := hflushed.base.exists_inspects m later
  have hagain {v : View} (hv : v ∈ e.views) :=
    inspects_again hholds.base hi hflushed.base hi' hle (hknown v hv)
  have htable' : ∀ v ∈ e.views, i'.intents v ≠ [] →
      ((Store.flush^[flushes] s').views.get? v.name).isSome := by
    intro v hv hintents
    obtain ⟨intent, hintent⟩ := List.exists_mem_of_ne_nil _ hintents
    have hfirst := htable v hv (List.ne_nil_of_mem ((hagain hv).2.1 hintent))
    rwa [hviews, hreceives.isSome_get? hs.views.wellFormed]
  obtain ⟨s'', happly'⟩ := apply_of_known hflushed hi' (fun v hv => (hagain hv).1) htable'
  obtain ⟨_, _, _, hholds'', hreceives'⟩ := inspected_of_apply hflushed hi' happly'
  have hagree (partition : Bytes) : s''.base.AgreeOn partition s'.base :=
    hholds''.base.agreeOn hholds'.base fun key _ =>
      ⟨History.row_append_of_mem (by simp) key, by simp [History.Writes]⟩
  refine ⟨_, s'', happly', fun key => (hagree key.partition).read key rfl,
    fun partition range => (hagree partition).scan range, ?_, fun f hf => ?_⟩
  · rw [hviews] at hreceives'
    refine hreceives.eq_of_subset hs.views.wellFormed hreceives' fun name intent hintent => ?_
    obtain ⟨v, hv, hname, hmem⟩ := Inspection.mem_intentsFor_updates_iff.mp hintent
    exact Inspection.mem_intentsFor_updates_iff.mpr ⟨v, hv, hname, (hagain hv).2.1 hmem⟩
  · refine List.eq_nil_iff_forall_not_mem.mpr fun u hu => ?_
    obtain ⟨v, hv, _, hintents⟩ := Inspection.exists_update_iff.mp ⟨u, hu, rfl⟩
    exact hintents ((hagain hv).2.2 f hf)

/-- The partition of an order is deleted up to a time before its last write, and after a flush once
    more. The order is still there and has its view rows deleted again. -/
theorem apply_repeated_of_deleted_order :
    let s := ordersEngine.run (.ofViews ordersEngine.views) [setStatus 2 5 1, setStatus 1 7 2]
    let m := Mutation.deletePartition order.partition ⟨6⟩
    let s' := (ordersEngine.apply .none m 3 s).2
    ∃ repeated s'', ordersEngine.apply .none m 9 s'.flush = (.ok repeated, s'') ∧
      repeated ≠ [] ∧ s''.base.read order = s'.base.read order ∧ s''.views = s'.views := by
  intro s m s'
  have htaken : (ordersEngine.apply .none m 3 s).1.isOk = true := by decide +kernel
  have hrepeated : (ordersEngine.apply .none m 9 s'.flush).1.toOption ≠ some [] := by decide +kernel
  cases hresult : (ordersEngine.apply .none m 3 s).1 with
  | error err =>
    rw [hresult] at htaken
    cases htaken
  | ok updates =>
    have hs : s.Reachable := (Store.Reachable.ofViews ordersEngine.views).run ordersEngine _
    obtain ⟨repeated, s'', happly, hread, _, hviews, _⟩ :=
      apply_repeated hs (by decide : (3 : Timestamp) ≤ 9) (Prod.ext hresult rfl) 1
    have happly' : ordersEngine.apply .none m 9 s'.flush = (.ok repeated, s'') := happly
    refine ⟨repeated, s'', happly', fun hnil => hrepeated ?_, hread order, hviews⟩
    rw [happly', hnil]
    rfl

end Engine

end ViewMaintenance
