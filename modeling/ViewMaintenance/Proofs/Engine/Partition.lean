import ViewMaintenance.Proofs.Engine.Step
import ViewMaintenance.Proofs.Store.Partition

namespace ViewMaintenance

/-- What a view plans for a mutation is for the base rows that the mutation touches. -/
theorem View.Plans.touches {v : View} {h : History} {now : Timestamp} {m : Mutation}
    {intents : List Intent} (hplans : v.Plans h now m intents) {i : Intent} (hi : i ∈ intents) :
    m.touches i.row.base = true := by
  cases hplans with
  | @row f d _ hbefore hafter hnow hintents =>
    obtain ⟨_, rfl⟩ := rowIntents_eq_ok hintents
    have hbase : i.row.base = f.key := by
      rw [base_of_mem_intents hi, hafter, Row.key_join, History.key_row]
    simp [Mutation.touches, Mutation.fragmentOf?, hbase]
  | @deletion _ partition range x rows _ hm _ hkeys _ hintents =>
    rw [deletionIntents_eq_ok hintents] at hi
    obtain ⟨id, hid, rfl⟩ := List.mem_map.mp hi
    obtain ⟨row, hrow, hmaps⟩ := List.mem_filterMap.mp hid
    obtain ⟨hpartition, hin, _⟩ := (hkeys row.key).mp ⟨row, hrow, rfl⟩
    change m.touches id.base = true
    rw [base_of_rowKey? hmaps, Mutation.touches, Mutation.coveringOf?_of_scan? hm,
      if_pos ⟨hpartition.symm, hin⟩]
    simp

namespace History

/-- Two histories make the same rows of a partition, and fragments of the same rows were written. -/
def AgreeOn (partition : Bytes) (h g : History) : Prop :=
  ∀ key : RowKey, key.partition = partition → h.row key = g.row key ∧ (h.Writes key ↔ g.Writes key)

/-- A mutation leaves all other partitions. -/
theorem agreeOn_append_singleton (h : History) {m : Mutation} {partition : Bytes}
    (hne : m.partition ≠ partition) : AgreeOn partition h (h ++ [m]) := by
  intro key hkey
  have hnot : m.touches key = false := Mutation.not_touches_of_partition_ne (hkey ▸ hne)
  refine ⟨(row_append_of_not_touches hnot).symm, ?_⟩
  have hfragment : (m.fragmentOf? key).isSome = false := (Bool.or_eq_false_iff.mp hnot).1
  simp [Writes, or_and_right, exists_or, hfragment]

end History

namespace BaseTable

/-- Two base tables answer every read of a partition alike. -/
structure AgreeOn (partition : Bytes) (t t' : BaseTable) : Prop where
  read : ∀ key : RowKey, key.partition = partition → t.read key = t'.read key
  scan : ∀ range, t.scan partition range = t'.scan partition range

theorem Represents.agreeOn {t t' : BaseTable} {h g : History} {partition : Bytes}
    (ht : t.Represents h) (ht' : t'.Represents g) (hagree : h.AgreeOn partition g) :
    t.AgreeOn partition t' := by
  refine ⟨fun key hkey => by rw [ht.read, ht'.read, (hagree key hkey).1], fun range => ?_⟩
  obtain ⟨rows, hscan, hsorted, hkeys, hrows⟩ := ht.scan partition range
  obtain ⟨rows', hscan', hsorted', hkeys', hrows'⟩ := ht'.scan partition range
  have hsame : rows = rows' := by
    refine Row.eq_of_pairwise_key hsorted hsorted' (fun key => ?_) hrows fun r hr => ?_
    · rw [hkeys, hkeys']
      refine and_congr_right fun hkey => ?_
      rw [(hagree key hkey).2]
    · have hpartition := ((hkeys' r.key).mp ⟨r, hr, rfl⟩).1
      rw [(hagree r.key hpartition).1]
      exact hrows' r hr
  rw [hscan, hscan', hsame]

end BaseTable

/-- Two stores hold the same of a partition. -/
structure Store.AgreeOn (partition : Bytes) (s s' : Store) : Prop where
  base : s.base.AgreeOn partition s'.base
  views : s.views.AgreeOn partition s'.views

theorem Store.AgreeOn.refl {partition : Bytes} (s : Store) : s.AgreeOn partition s :=
  ⟨⟨fun _ _ => rfl, fun _ => rfl⟩, .refl _⟩

namespace Engine

variable {e : Engine} {s : Store} {h : History} {m : Mutation} {now : Timestamp}
  {updates : List ViewUpdate}

/-- The updates for a mutation are computed from what the base table holds of its partition. -/
theorem updates_eq_of_agreeOn {base base' : BaseTable} (hagree : base.AgreeOn m.partition base') :
    e.updates base.reader m now = e.updates base'.reader m now := by
  have hdeletion (partition : Bytes) (hpartition : m.partition = partition) (range : ClusteringRange)
      (x : Deletion) : e.deletionUpdates base.reader partition range x now =
        e.deletionUpdates base'.reader partition range x now := by
    have hscan : base.reader.scan partition range = base'.reader.scan partition range :=
      (hpartition ▸ hagree).scan range
    rw [deletionUpdates, hscan]
    rfl
  cases m with
  | row f =>
    have hread : base.reader.read f.key = base'.reader.read f.key := hagree.read f.key rfl
    simp only [updates, rowUpdates, hread]
  | deleteRange partition range x => simp only [updates, hdeletion partition rfl]
  | deletePartition partition x => simp only [updates, hdeletion partition rfl]

/-- All intents of the updates for a mutation are for base rows that it touches. -/
theorem touches_of_updates {base : BaseTable} (hbase : base.Represents h)
    (hupdates : e.updates base.reader m now = .ok updates) :
    ∀ u ∈ updates, ∀ i ∈ u.intents, m.touches i.row.base = true := by
  obtain ⟨all, plan, rfl, hplanned, hplans⟩ := planned_of_updates hbase hupdates
  intro u hu i hi
  obtain ⟨n, hn, rfl⟩ := List.mem_iff_getElem.mp (List.mem_of_mem_filter hu)
  have hn' : n < e.views.length := hplanned.length_eq ▸ hn
  exact (hplans _ _ (hplanned.get hn' hn).2).touches hi

theorem within_of_updates {base : BaseTable} (hbase : base.Represents h)
    (hupdates : e.updates base.reader m now = .ok updates) :
    ∀ u ∈ updates, u.Within m.partition := by
  intro u hu i hi
  have htouches := touches_of_updates hbase hupdates u hu i hi
  by_contra hne
  rw [Mutation.not_touches_of_partition_ne (Ne.symm hne)] at htouches
  cases htouches

/-- A mutation leaves all that the stores hold of other partitions. -/
theorem agreeOn_apply (hbase : s.base.Represents h) {partition : Bytes} (hne : m.partition ≠ partition)
    (now : Timestamp) : s.AgreeOn partition (e.apply .none m now s).2 := by
  rcases e.apply_outcome hbase m now with
    ⟨err, happly⟩ | ⟨updates, views, base, hupdates, hviews, hbase', happly⟩
  · rw [happly]
    exact .refl s
  · rw [happly]
    exact ⟨hbase.agreeOn hbase' (History.agreeOn_append_singleton h hne),
      ViewTables.agreeOn_of_apply (within_of_updates hbase hupdates) hne hviews⟩

end Engine

end ViewMaintenance
