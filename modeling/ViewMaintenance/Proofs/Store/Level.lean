import ViewMaintenance.Proofs.History
import ViewMaintenance.Store.Level

namespace ViewMaintenance

namespace Covering

theorem deletion?_eq (c : Covering) (clustering : Bytes) :
    c.deletion? clustering =
      latest? c.partition (deletion? ⟨none, c.ranges⟩ clustering) := by
  have hfold (d : Option Deletion) : deletion? ⟨d, c.ranges⟩ clustering =
      ((c.ranges.filter (·.range.contains clustering)).map fun x => some x.deletion).foldl latest? d :=
    (List.foldl_map).symm
  have hacc := foldl_latest?
    ((c.ranges.filter (·.range.contains clustering)).map fun x => some x.deletion) c.partition none
  rw [latest?_none_right] at hacc
  rw [show c.deletion? clustering = deletion? ⟨c.partition, c.ranges⟩ clustering from rfl, hfold,
    hfold, hacc]

theorem deletion?_append (ranges others : List RangeDeletion) (d : Option Deletion)
    (clustering : Bytes) : deletion? ⟨d, ranges ++ others⟩ clustering =
      latest? (deletion? ⟨d, ranges⟩ clustering) (deletion? ⟨none, others⟩ clustering) := by
  have hrest := deletion?_eq ⟨deletion? ⟨d, ranges⟩ clustering, others⟩ clustering
  rw [← hrest]
  simp only [deletion?, List.filter_append, List.foldl_append]

theorem deletion?_union (a b : Covering) (clustering : Bytes) :
    (a.union b).deletion? clustering =
      latest? (a.deletion? clustering) (b.deletion? clustering) := by
  rw [deletion?_eq, deletion?_eq a, deletion?_eq b]
  simp only [union, deletion?_append]
  rw [latest?_assoc, latest?_assoc]
  congr 1
  rw [← latest?_assoc, ← latest?_assoc, latest?_comm b.partition]

@[simp]
theorem deletion?_empty (clustering : Bytes) : empty.deletion? clustering = none := rfl

end Covering

namespace Level

/-- Every fragment has the key that it is stored under and keeps nothing that its own deletion
    reaches. -/
def WellFormed (l : Level) : Prop :=
  ∀ key row, l.fragment? key = some row → row.key = key ∧ row.Canonical

/-- The level holds what the mutations of a history leave of each row. -/
structure Represents (l : Level) (h : History) : Prop where
  fragment?_of_writes : ∀ key, h.Writes key → l.fragment? key = some (h.fragment key)
  fragment?_of_not_writes : ∀ key, ¬ h.Writes key → l.fragment? key = none
  deletion?_eq : ∀ key : RowKey,
    (l.covering key.partition).deletion? key.clustering = h.covering key

theorem represents_empty : (∅ : Level).Represents [] where
  fragment?_of_writes := by
    rintro key ⟨m, hm, _⟩
    cases hm
  fragment?_of_not_writes _ _ := rfl
  deletion?_eq _ := rfl

theorem Represents.fragment?_isSome_iff {l : Level} {h : History} (hl : l.Represents h)
    (key : RowKey) : (l.fragment? key).isSome ↔ h.Writes key := by
  by_cases hw : h.Writes key
  · simp [hl.fragment?_of_writes key hw, hw]
  · simp [hl.fragment?_of_not_writes key hw, hw]

theorem Represents.eq_fragment {l : Level} {h : History} (hl : l.Represents h) {key : RowKey}
    {row : Row} (hrow : l.fragment? key = some row) : row = h.fragment key := by
  have hw : h.Writes key := (hl.fragment?_isSome_iff key).mp (by simp [hrow])
  rw [hl.fragment?_of_writes key hw] at hrow
  exact (Option.some.inj hrow).symm

theorem Represents.wellFormed {l : Level} {h : History} (hl : l.Represents h) : l.WellFormed := by
  intro key row hrow
  obtain rfl := hl.eq_fragment hrow
  exact ⟨History.key_fragment h key, History.canonical_fragment h key⟩

theorem writes_append_iff {h g : History} {key : RowKey} :
    History.Writes (h ++ g) key ↔ h.Writes key ∨ g.Writes key := by
  simp only [History.Writes, List.mem_append]
  constructor
  · rintro ⟨m, hm | hm, hf⟩
    · exact .inl ⟨m, hm, hf⟩
    · exact .inr ⟨m, hm, hf⟩
  · rintro (⟨m, hm, hf⟩ | ⟨m, hm, hf⟩)
    · exact ⟨m, .inl hm, hf⟩
    · exact ⟨m, .inr hm, hf⟩

theorem writes_singleton_iff {m : Mutation} {key : RowKey} :
    History.Writes [m] key ↔ (m.fragmentOf? key).isSome := by
  simp [History.Writes]

/-- The fragment that a level has for a key, or the empty row. -/
theorem Represents.getD_fragment? {l : Level} {h : History} (hl : l.Represents h) (key : RowKey) :
    (l.fragment? key).getD (.empty key) = h.fragment key := by
  by_cases hw : h.Writes key
  · rw [hl.fragment?_of_writes key hw, Option.getD_some]
  · rw [hl.fragment?_of_not_writes key hw, Option.getD_none, History.fragment_of_not_writes hw]

theorem Represents.applyRow {l : Level} {h : History} (hl : l.Represents h) (f : Row) :
    ∃ l', l.applyRow f = .ok l' ∧ l'.Represents (h ++ [.row f]) := by
  have hkey : (h.fragment f.key).key = f.key := History.key_fragment h f.key
  refine ⟨{ l with rows := l.rows.insert f.key ((h.fragment f.key).join f) }, ?_, ?_⟩
  · rw [Level.applyRow, hl.getD_fragment?, Row.merge_eq_ok hkey]
    rfl
  · have hget (key : RowKey) : fragment?
        { l with rows := l.rows.insert f.key ((h.fragment f.key).join f) } key =
          if compare f.key key = .eq then some ((h.fragment f.key).join f)
          else l.fragment? key := SortedMap.get?_insert _ _ _ _
    have hself : (Mutation.row f).fragmentOf? f.key = some f := by simp [Mutation.fragmentOf?]
    constructor
    · intro key hw
      by_cases heq : f.key = key
      · subst heq
        simp [hget, Std.ReflCmp.compare_self, History.fragment_append_of_some hself]
      · have hnone : (Mutation.row f).fragmentOf? key = none := by simp [Mutation.fragmentOf?, heq]
        have hold : h.Writes key := by
          rcases writes_append_iff.mp hw with hw | hw
          · exact hw
          · rw [writes_singleton_iff, hnone] at hw
            cases hw
        rw [hget, if_neg (by simpa using heq), hl.fragment?_of_writes key hold,
          History.fragment_append_of_none hnone]
    · intro key hw
      have heq : f.key ≠ key := by
        rintro rfl
        exact hw (writes_append_iff.mpr (.inr (writes_singleton_iff.mpr (by simp [hself]))))
      rw [hget, if_neg (by simpa using heq)]
      exact hl.fragment?_of_not_writes key fun hold => hw (writes_append_iff.mpr (.inl hold))
    · intro key
      rw [History.covering_append_singleton]
      exact (hl.deletion?_eq key).trans (latest?_none_right _).symm

theorem not_writes_append {h : History} {m : Mutation} {key : RowKey}
    (hm : m.fragmentOf? key = none) : History.Writes (h ++ [m]) key ↔ h.Writes key := by
  rw [writes_append_iff, writes_singleton_iff, hm]
  simp

/-- The two deletions that cover more than a row leave the fragments of a level alone. -/
theorem Represents.of_covering {l l' : Level} {h : History} {m : Mutation} (hl : l.Represents h)
    (hrows : l'.rows = l.rows) (hm : ∀ key, m.fragmentOf? key = none)
    (hcover : ∀ key : RowKey, (l'.covering key.partition).deletion? key.clustering =
      latest? ((l.covering key.partition).deletion? key.clustering) (m.coveringOf? key)) :
    l'.Represents (h ++ [m]) where
  fragment?_of_writes key hw := by
    rw [Level.fragment?, hrows, History.fragment_append_of_none (hm key)]
    exact hl.fragment?_of_writes key ((not_writes_append (hm key)).mp hw)
  fragment?_of_not_writes key hw := by
    rw [Level.fragment?, hrows]
    exact hl.fragment?_of_not_writes key fun hold => hw ((not_writes_append (hm key)).mpr hold)
  deletion?_eq key := by
    rw [hcover, hl.deletion?_eq, History.covering_append_singleton]

theorem Represents.applyRange {l : Level} {h : History} (hl : l.Represents h) (partition : Bytes)
    (range : ClusteringRange) (d : Deletion) :
    (l.applyRange partition ⟨range, d⟩).Represents (h ++ [.deleteRange partition range d]) := by
  refine hl.of_covering rfl (fun _ => rfl) fun key => ?_
  by_cases hpart : partition = key.partition
  · subst hpart
    have hcover : (l.applyRange key.partition ⟨range, d⟩).covering key.partition =
        ⟨(l.covering key.partition).partition,
          (l.covering key.partition).ranges ++ [⟨range, d⟩]⟩ := by
      simp [Level.covering, Level.applyRange]
    rw [hcover, Covering.deletion?_append]
    congr 1
    by_cases hin : range.contains key.clustering = true <;>
      simp [Covering.deletion?, Mutation.coveringOf?, hin]
  · have hcover : (l.applyRange partition ⟨range, d⟩).covering key.partition =
        l.covering key.partition := by
      simp only [Level.covering, Level.applyRange]
      rw [SortedMap.get?_insert_of_ne (Ne.symm hpart)]
    rw [hcover]
    simp [Mutation.coveringOf?, hpart]

theorem Represents.applyPartition {l : Level} {h : History} (hl : l.Represents h)
    (partition : Bytes) (d : Deletion) :
    (l.applyPartition partition d).Represents (h ++ [.deletePartition partition d]) := by
  refine hl.of_covering rfl (fun _ => rfl) fun key => ?_
  by_cases hpart : partition = key.partition
  · subst hpart
    have hcover : (l.applyPartition key.partition d).covering key.partition =
        ⟨latest? (l.covering key.partition).partition (some d),
          (l.covering key.partition).ranges⟩ := by
      cases hget : l.partitionDeletions.get? key.partition <;>
        simp [Level.covering, Level.applyPartition, hget]
    rw [hcover, Covering.deletion?_eq, Covering.deletion?_eq (l.covering key.partition),
      latest?_assoc, latest?_comm (some d), ← latest?_assoc]
    simp [Mutation.coveringOf?]
  · have hcover : (l.applyPartition partition d).covering key.partition =
        l.covering key.partition := by
      simp only [Level.covering, Level.applyPartition]
      rw [SortedMap.get?_insert_of_ne (Ne.symm hpart)]
    rw [hcover]
    simp [Mutation.coveringOf?, hpart]

/-- A level takes every mutation. -/
theorem Represents.apply {l : Level} {h : History} (hl : l.Represents h) (m : Mutation) :
    ∃ l', l.apply m = .ok l' ∧ l'.Represents (h ++ [m]) := by
  cases m with
  | row f =>
    obtain ⟨l', happly, hl'⟩ := hl.applyRow f
    exact ⟨l', by rw [Level.apply, happly]; rfl, hl'⟩
  | deleteRange partition range d => exact ⟨_, rfl, hl.applyRange partition range d⟩
  | deletePartition partition d => exact ⟨_, rfl, hl.applyPartition partition d⟩

theorem Represents.foldlM {l : Level} {g : History} (hl : l.Represents g) (h : History) :
    ∃ l', h.foldlM Level.apply l = .ok l' ∧ l'.Represents (g ++ h) := by
  induction h generalizing l g with
  | nil => exact ⟨l, rfl, by rwa [List.append_nil]⟩
  | cons m h ih =>
    obtain ⟨next, hnext, hnext'⟩ := hl.apply m
    obtain ⟨l', hfold, hl'⟩ := ih hnext'
    refine ⟨l', ?_, by rwa [List.append_cons]⟩
    rw [List.foldlM_cons, hnext]
    exact hfold

/-- The levels that come of the empty one by mutations. -/
def Reachable (l : Level) : Prop := ∃ h : History, h.foldlM Level.apply ∅ = .ok l

theorem Reachable.exists_represents {l : Level} (hl : l.Reachable) : ∃ h, l.Represents h := by
  obtain ⟨h, hfold⟩ := hl
  obtain ⟨l', hfold', hl'⟩ := represents_empty.foldlM h
  obtain rfl := Except.ok.inj (hfold.symm.trans hfold')
  exact ⟨h, hl'⟩

theorem Reachable.wellFormed {l : Level} (hl : l.Reachable) : l.WellFormed := by
  obtain ⟨h, hrepresents⟩ := hl.exists_represents
  exact hrepresents.wellFormed

theorem reachable_empty : (∅ : Level).Reachable := ⟨[], rfl⟩

theorem Reachable.apply {l l' : Level} {m : Mutation} (hl : l.Reachable)
    (happly : l.apply m = .ok l') : l'.Reachable := by
  obtain ⟨h, hfold⟩ := hl
  refine ⟨h ++ [m], ?_⟩
  rw [List.foldlM_append, hfold]
  change [m].foldlM Level.apply l = .ok l'
  rw [List.foldlM_cons, happly]
  rfl

end Level

end ViewMaintenance
