import Mathlib.Data.List.TakeWhile
import ViewMaintenance.Proofs.Store.Level
import ViewMaintenance.Store.Compaction
import ViewMaintenance.Store.RangeRead

namespace ViewMaintenance

theorem dropWhile_eq_filter_not {α : Type} {p : α → Bool} {xs : List α}
    (h : xs.Pairwise fun x y => p y = true → p x = true) :
    xs.dropWhile p = xs.filter fun x => !p x := by
  induction xs with
  | nil => rfl
  | cons x xs ih =>
    obtain ⟨hhead, htail⟩ := List.pairwise_cons.mp h
    cases hx : p x with
    | true => simp [hx, ih htail]
    | false =>
      have hrest : ∀ y ∈ xs, p y = false := fun y hy => by
        by_contra hpy
        have := hhead y hy (by simpa using hpy)
        rw [hx] at this
        cases this
      have hall : xs.filter (fun y => !p y) = xs := List.filter_eq_self.mpr fun y hy => by
        simp [hrest y hy]
      simp [hx, hall]

theorem takeWhile_eq_filter {α : Type} {p : α → Bool} {xs : List α}
    (h : xs.Pairwise fun x y => p y = true → p x = true) : xs.takeWhile p = xs.filter p := by
  induction xs with
  | nil => rfl
  | cons x xs ih =>
    obtain ⟨hhead, htail⟩ := List.pairwise_cons.mp h
    cases hx : p x with
    | true => simp [hx, ih htail]
    | false =>
      have hrest : xs.filter p = [] := List.filter_eq_nil_iff.mpr fun y hy hpy => by
        have := hhead y hy hpy
        rw [hx] at this
        cases this
      simp [hx, hrest]

theorem RowKey.compare_eq_lt_iff {a b : RowKey} : compare a b = .lt ↔
    compare a.partition b.partition = .lt ∨
      a.partition = b.partition ∧ compare a.clustering b.clustering = .lt := by
  change compareLex (compareOn RowKey.partition) (compareOn RowKey.clustering) a b = .lt ↔ _
  rw [compareLex, Ordering.then_eq_lt]
  simp only [compareOn, Std.LawfulEqCmp.compare_eq_iff_eq]

namespace Bound

theorem admitsAbove_of_lt {lower : Bound} {a b : Bytes} (hlt : compare a b = .lt)
    (h : lower.admitsAbove a = true) : lower.admitsAbove b = true := by
  cases lower with
  | unbounded => rfl
  | included c =>
    have hle : (compare c a).isLE := h
    exact Std.TransCmp.isLE_trans hle (by simp [hlt])
  | excluded c =>
    have hca : compare c a = .lt := by simpa [admitsAbove] using h
    have hcb : compare c b = .lt := Std.TransCmp.lt_trans hca hlt
    simp [admitsAbove, hcb]

/-- The keys that a read skips at its start are those of earlier partitions and those of the
    partition itself that the lower end does not admit. -/
theorem isAfter_iff {lower : Bound} {partition : Bytes} {key : RowKey} :
    lower.isAfter partition key = true ↔ compare key.partition partition = .lt ∨
      key.partition = partition ∧ lower.admitsAbove key.clustering = false := by
  have hswap (c : Bytes) : compare c key.clustering = (compare key.clustering c).swap :=
    Std.OrientedCmp.eq_swap
  have hkey (c : Bytes) : compare key ⟨partition, c⟩ =
      (compare key.partition partition).then (compare key.clustering c) := rfl
  cases lower with
  | unbounded =>
    have hnil : compare key.clustering [] ≠ .lt := by
      cases key.clustering <;> simp
    simp only [isAfter, RowKey.ofPartition, hkey, Ordering.isLT_iff_eq_lt, Ordering.then_eq_lt, hnil,
      and_false, or_false, admitsAbove, Bool.true_eq_false]
  | included c =>
    simp only [isAfter, hkey, Ordering.isLT_iff_eq_lt, Ordering.then_eq_lt, admitsAbove, hswap c,
      Std.LawfulEqCmp.compare_eq_iff_eq]
    cases compare key.clustering c <;> simp
  | excluded c =>
    simp only [isAfter, hkey, Ordering.isLE_then_iff_or, admitsAbove, hswap c,
      Std.LawfulEqCmp.compare_eq_iff_eq]
    cases compare key.clustering c <;> simp

/-- What stands before a key that is skipped is skipped too. -/
theorem isAfter_of_lt {lower : Bound} {partition : Bytes} {a b : RowKey} (hlt : compare a b = .lt)
    (h : lower.isAfter partition b = true) : lower.isAfter partition a = true := by
  rw [isAfter_iff] at h ⊢
  rcases RowKey.compare_eq_lt_iff.mp hlt with hbefore | ⟨hsame, hclustering⟩
  · rcases h with h | ⟨hpart, -⟩
    · exact .inl (Std.TransCmp.lt_trans hbefore h)
    · exact .inl (hpart ▸ hbefore)
  · rw [hsame]
    refine h.imp_right fun ⟨hpart, hb⟩ => ⟨hpart, ?_⟩
    by_contra ha
    rw [admitsAbove_of_lt hclustering (by simpa using ha)] at hb
    cases hb

/-- A key of the partition that the lower end admits is not skipped. -/
theorem isAfter_eq_false {lower : Bound} {key : RowKey}
    (h : lower.admitsAbove key.clustering = true) : lower.isAfter key.partition key = false := by
  by_contra hskip
  rcases isAfter_iff.mp (by simpa using hskip) with hlt | ⟨-, hnot⟩
  · simp [Std.ReflCmp.compare_self] at hlt
  · rw [h] at hnot
    cases hnot

/-- Once the start is found, the keys of the partition stand first. -/
theorem partition_eq_of_lt {lower : Bound} {partition : Bytes} {a b : RowKey}
    (hlt : compare a b = .lt) (ha : lower.isAfter partition a = false)
    (hb : b.partition = partition) : a.partition = partition := by
  rcases RowKey.compare_eq_lt_iff.mp hlt with hbefore | ⟨hsame, -⟩
  · rw [isAfter_iff.mpr (.inl (hb ▸ hbefore))] at ha
    cases ha
  · exact hsame.trans hb

end Bound

namespace Level

/-- A range read gives the stored fragments of the range, in key order. -/
theorem fragments_eq_filter (l : Level) (partition : Bytes) (range : ClusteringRange) :
    l.fragments partition range =
      (l.rows.entries.filter fun e =>
        e.1.partition == partition && range.contains e.1.clustering).map (·.2) := by
  have hstart : l.rows.entries.dropWhile (fun e => range.lower.isAfter partition e.1) =
      l.rows.entries.filter fun e => !range.lower.isAfter partition e.1 :=
    dropWhile_eq_filter_not (l.rows.sorted.imp Bound.isAfter_of_lt)
  have hstop : (l.rows.entries.filter fun e => !range.lower.isAfter partition e.1).takeWhile
      (fun e => e.1.partition == partition) =
        (l.rows.entries.filter fun e => !range.lower.isAfter partition e.1).filter
          fun e => e.1.partition == partition := by
    refine takeWhile_eq_filter (List.pairwise_filter.mpr (l.rows.sorted.imp ?_))
    intro x y hlt hx _ hy
    simp only [Bool.not_eq_true', beq_iff_eq] at hx hy ⊢
    exact Bound.partition_eq_of_lt hlt hx hy
  rw [fragments, hstart, hstop, List.filter_filter, List.filter_filter]
  congr 1
  refine List.filter_congr fun e _ => ?_
  by_cases hpart : e.1.partition = partition
  · cases hin : range.contains e.1.clustering with
    | false => simp
    | true =>
      obtain ⟨hlower, -⟩ := Bool.and_eq_true_iff.mp hin
      simp [← hpart, Bound.isAfter_eq_false hlower]
  · have hne : (e.1.partition == partition) = false := by simpa using hpart
    simp [hne]

theorem WellFormed.mem_fragments_iff {l : Level} (hl : l.WellFormed) {partition : Bytes}
    {range : ClusteringRange} {row : Row} : row ∈ l.fragments partition range ↔
      l.fragment? row.key = some row ∧ row.key.partition = partition ∧
        range.contains row.key.clustering := by
  rw [fragments_eq_filter, List.mem_map]
  constructor
  · rintro ⟨⟨key, row⟩, hmem, rfl⟩
    obtain ⟨hentry, hin⟩ := List.mem_filter.mp hmem
    have hget : l.fragment? key = some row := SortedMap.get?_eq_some_iff.mpr hentry
    obtain rfl : row.key = key := (hl key row hget).1
    exact ⟨hget, by simpa using hin⟩
  · rintro ⟨hget, hin⟩
    have hentry : (row.key, row) ∈ l.rows.entries := SortedMap.get?_eq_some_iff.mp hget
    exact ⟨(row.key, row), List.mem_filter.mpr ⟨hentry, by simpa using hin⟩, rfl⟩

theorem WellFormed.pairwise_fragments {l : Level} (hl : l.WellFormed) (partition : Bytes)
    (range : ClusteringRange) :
    (l.fragments partition range).Pairwise fun a b => compare a.key b.key = .lt := by
  rw [fragments_eq_filter, List.pairwise_map]
  refine (l.rows.sorted.filter _).imp_of_mem fun {x y} hx hy hlt => ?_
  have hkey {e : RowKey × Row} (he : e ∈ l.rows.entries) : e.2.key = e.1 :=
    (hl e.1 e.2 (SortedMap.get?_eq_some_iff.mpr he)).1
  rw [hkey (List.mem_of_mem_filter hx), hkey (List.mem_of_mem_filter hy)]
  exact hlt

/-- A map never refuses a range without upper end. -/
theorem isInverted_unbounded (lower : SortedMap.End RowKey) :
    lower.isInverted .unbounded = false := by
  cases lower <;> rfl

theorem isAfter_start (lower : Bound) (partition : Bytes) (key : RowKey) :
    (lower.start partition).isAfter key = lower.isAfter partition key := by
  cases lower <;> rfl

/-- A range read is never refused, inverted ends included. -/
theorem fragments?_eq_some (l : Level) (partition : Bytes) (range : ClusteringRange) :
    l.fragments? partition range = some (l.fragments partition range) := by
  have hall (start : List (RowKey × Row)) :
      start.takeWhile (fun e => !SortedMap.End.isBefore .unbounded e.1) = start :=
    List.takeWhile_eq_self_iff.mpr fun _ _ => rfl
  simp only [fragments?, SortedMap.range?, isInverted_unbounded, Bool.false_eq_true, if_false,
    Option.map_some, isAfter_start, hall, fragments]

/-- Rows are the stored fragments of a clustering range: those whose key lies in the partition and
    is admitted by both ends, each of them once and in the order of their clustering keys. -/
structure FragmentsOf (l : Level) (partition : Bytes) (range : ClusteringRange) (rows : List Row) :
    Prop where
  increasing : rows.Pairwise fun a b => compare a.key.clustering b.key.clustering = .lt
  sound : ∀ row ∈ rows, l.fragment? row.key = some row ∧ row.key.partition = partition ∧
    range.lower.admitsAbove row.key.clustering ∧ range.upper.admitsBelow row.key.clustering
  complete : ∀ key row, l.fragment? key = some row → key.partition = partition →
    range.lower.admitsAbove key.clustering → range.upper.admitsBelow key.clustering → row ∈ rows

theorem WellFormed.fragmentsOf_fragments {l : Level} (hl : l.WellFormed) (partition : Bytes)
    (range : ClusteringRange) :
    l.FragmentsOf partition range (l.fragments partition range) where
  increasing := by
    refine (hl.pairwise_fragments partition range).imp_of_mem fun {a b} ha hb hlt => ?_
    obtain ⟨-, hpart, -⟩ := hl.mem_fragments_iff.mp ha
    obtain ⟨-, hpart', -⟩ := hl.mem_fragments_iff.mp hb
    rcases RowKey.compare_eq_lt_iff.mp hlt with hbefore | ⟨-, hclustering⟩
    · simp [hpart, hpart', Std.ReflCmp.compare_self] at hbefore
    · exact hclustering
  sound row hrow := by
    obtain ⟨hget, hpart, hin⟩ := hl.mem_fragments_iff.mp hrow
    exact ⟨hget, hpart, Bool.and_eq_true_iff.mp hin⟩
  complete key row hget hpart hlower hupper := by
    obtain rfl : row.key = key := (hl key row hget).1
    exact hl.mem_fragments_iff.mpr ⟨hget, hpart, Bool.and_eq_true_iff.mpr ⟨hlower, hupper⟩⟩

/-- A range read of a level that comes of mutations succeeds for any two ends, and it gives the
    stored fragments of the range. It starts at one end, stops at the end of the partition and
    filters by the other end; since keys are in order, starting there skips nothing and stopping
    there loses nothing. -/
theorem Reachable.exists_fragmentsOf {l : Level} (hl : l.Reachable) (partition : Bytes)
    (range : ClusteringRange) :
    ∃ rows, l.fragments? partition range = some rows ∧
      l.source.fragments partition range = .ok (rows.map .ok) ∧
      l.FragmentsOf partition range rows :=
  ⟨l.fragments partition range, l.fragments?_eq_some partition range, rfl,
    hl.wellFormed.fragmentsOf_fragments partition range⟩

section Orders

/-- An order at a place of a partition. -/
def order (partition clustering : Bytes) : Row := (RowWrite.insert ⟨partition, clustering⟩ 1).toRow

/-- Orders of one partition, one of them without clustering key, and of a partition whose key
    continues the key of the first. -/
def neighbours : History :=
  [order [1, 0] [4], order [1] [5], order [1] [], order [1, 0] [], order [1] [4]].map .row

/-- A read passes over the orders at its ends and over those of the other partition, and between one
    end and itself it gives nothing. -/
theorem exists_fragmentsOf_of_neighbours : ∃ (l : Level) (rows : List Row),
    neighbours.foldlM Level.apply ∅ = .ok l ∧
    l.fragments? [1] ⟨.excluded [], .excluded [5]⟩ = some rows ∧
    order [1] [4] ∈ rows ∧ order [1] [] ∉ rows ∧ order [1] [5] ∉ rows ∧ order [1, 0] [4] ∉ rows ∧
    l.fragments? [1] ⟨.excluded [5], .excluded [5]⟩ = some [] := by
  have hfold : neighbours.foldlM Level.apply ∅ = .ok _ := rfl
  obtain ⟨rows, hread, -, hrows⟩ :=
    Reachable.exists_fragmentsOf ⟨neighbours, hfold⟩ [1] ⟨.excluded [], .excluded [5]⟩
  obtain ⟨others, hread', -, hothers⟩ :=
    Reachable.exists_fragmentsOf ⟨neighbours, hfold⟩ [1] ⟨.excluded [5], .excluded [5]⟩
  have hempty : others = [] := List.eq_nil_iff_forall_not_mem.mpr fun row hrow => by
    obtain ⟨-, -, hlower, hupper⟩ := hothers.sound row hrow
    have habove : compare [5] row.key.clustering = .lt := by simpa [Bound.admitsAbove] using hlower
    have hbelow : compare row.key.clustering [5] = .lt := by simpa [Bound.admitsBelow] using hupper
    exact absurd (Std.TransCmp.lt_trans habove hbelow) (by decide)
  refine ⟨_, rows, hfold, hread, ?_, ?_, ?_, ?_, hempty ▸ hread'⟩
  · exact hrows.complete ⟨[1], [4]⟩ _ (by decide) rfl (by decide) (by decide)
  · exact fun h => absurd (hrows.sound _ h) (by decide)
  · exact fun h => absurd (hrows.sound _ h) (by decide)
  · exact fun h => absurd (hrows.sound _ h) (by decide)

end Orders

end Level

end ViewMaintenance
