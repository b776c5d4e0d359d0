import ViewMaintenance.Proofs.Store.Compaction

namespace ViewMaintenance

namespace BaseTable

/-- A call that changes a base table. -/
inductive Operation
  | write (m : Mutation)
  | flush

namespace Operation

/-- The mutation that a call writes. -/
def mutation? : Operation → Option Mutation
  | write m => some m
  | flush => none

theorem mem_filterMap_mutation? {operations : List Operation} {m : Mutation} :
    m ∈ operations.filterMap mutation? ↔ .write m ∈ operations := by
  rw [List.mem_filterMap]
  constructor
  · rintro ⟨operation, hmem, hm⟩
    cases operation with
    | write m' =>
      obtain rfl := Option.some.inj hm
      exact hmem
    | flush => cases hm
  · intro hmem
    exact ⟨.write m, hmem, rfl⟩

end Operation

/-- Carries out a call. -/
def perform (t : BaseTable) : Operation → Except StoreError BaseTable
  | .write m => t.apply m
  | .flush => .ok t.flush

theorem Reachable.foldlM_perform {t t' : BaseTable} (ht : t.Reachable) {operations : List Operation}
    (hfold : operations.foldlM perform t = .ok t') : t'.Reachable := by
  induction operations generalizing t with
  | nil =>
    obtain rfl := Except.ok.inj hfold
    exact ht
  | cons operation operations ih =>
    rw [List.foldlM_cons] at hfold
    cases operation with
    | write m =>
      cases hnext : t.apply m with
      | error err =>
        rw [perform, hnext] at hfold
        cases hfold
      | ok next =>
        rw [perform, hnext] at hfold
        exact ih (ht.apply hnext) hfold
    | flush => exact ih ht.flush hfold

/-- A table takes every sequence of calls. -/
theorem Represents.foldlM_perform {t : BaseTable} {h : History} (ht : t.Represents h)
    (operations : List Operation) :
    ∃ t', operations.foldlM perform t = .ok t' ∧
      t'.Represents (h ++ operations.filterMap Operation.mutation?) := by
  induction operations generalizing t h with
  | nil => exact ⟨t, rfl, by rwa [List.filterMap_nil, List.append_nil]⟩
  | cons operation operations ih =>
    cases operation with
    | write m =>
      obtain ⟨next, hnext, hnext'⟩ := ht.apply m
      obtain ⟨t', hfold, ht'⟩ := ih hnext'
      refine ⟨t', ?_, ?_⟩
      · rw [List.foldlM_cons, perform, hnext]
        exact hfold
      · rw [List.append_assoc] at ht'
        exact ht'
    | flush => exact ih ht.flush

/-- All levels of a table come of mutations. -/
theorem Reachable.levels {t : BaseTable} (ht : t.Reachable) : ∀ l ∈ t.levels, l.Reachable := by
  induction ht with
  | empty =>
    intro l hl
    obtain rfl := List.mem_singleton.mp hl
    exact Level.reachable_empty
  | @apply t t' m _ happly ih =>
    cases htop : t.top.apply m with
    | error err =>
      rw [BaseTable.apply, htop] at happly
      cases happly
    | ok top =>
      rw [BaseTable.apply, htop] at happly
      obtain rfl := Except.ok.inj happly
      intro l hl
      rcases List.mem_cons.mp hl with rfl | hl
      · exact (ih t.top List.mem_cons_self).apply htop
      · exact ih l (List.mem_cons_of_mem _ hl)
  | @flush t _ ih =>
    unfold BaseTable.flush
    split
    · exact ih
    · intro l hl
      rcases List.mem_cons.mp hl with rfl | hl
      · exact Level.reachable_empty
      · exact ih l hl

end BaseTable

namespace Compaction

section Read

/-- Levels take all mutations, however these are spread over them. -/
theorem exists_levels (parts : List History) :
    ∃ levels : List Level, parts.mapM (fun part => part.foldlM Level.apply ∅) = .ok levels ∧
      List.Forall₂ Level.Represents levels parts := by
  induction parts with
  | nil => exact ⟨[], rfl, .nil⟩
  | cons part parts ih =>
    obtain ⟨l, hfold, hl⟩ := Level.represents_empty.foldlM part
    obtain ⟨levels, hlevels, hparts⟩ := ih
    refine ⟨l :: levels, ?_, .cons hl hparts⟩
    rw [List.mapM_cons, hfold, hlevels]
    rfl

/-- The row that is read of a key is the one that the mutations make by themselves: neither their
    order, nor repetitions, nor the levels that took them, nor flushes in between matter. -/
theorem read_of_placement (h : History) (key : RowKey) :
    (∀ parts : List History, (∀ m, m ∈ h ↔ ∃ part ∈ parts, m ∈ part) →
      ∃ levels : List Level, parts.mapM (fun part => part.foldlM Level.apply ∅) = .ok levels ∧
        read (levels.map (·.source)) key = .ok (h.row key)) ∧
    ∀ operations : List BaseTable.Operation, (∀ m, m ∈ h ↔ .write m ∈ operations) →
      ∃ t, operations.foldlM BaseTable.perform ∅ = .ok t ∧ t.read key = .ok (h.row key) := by
  constructor
  · intro parts hsame
    obtain ⟨levels, hlevels, hparts⟩ := exists_levels parts
    have hrepresents : Represents levels parts.flatten := ⟨parts, hparts, .refl _⟩
    have hrow : History.row parts.flatten key = h.row key :=
      History.row_of_mem_iff (fun m => by rw [List.mem_flatten, hsame m]) key
    refine ⟨levels, hlevels, ?_⟩
    rw [read_eq_row hrepresents, hrow]
  · intro operations hsame
    obtain ⟨t, hfold, hrepresents⟩ := BaseTable.represents_empty.foldlM_perform operations
    have hrow : History.row ([] ++ operations.filterMap BaseTable.Operation.mutation?) key = h.row key :=
      History.row_of_mem_iff (fun m => by
        rw [List.nil_append, BaseTable.Operation.mem_filterMap_mutation?, hsame m]) key
    refine ⟨t, hfold, ?_⟩
    rw [hrepresents.read, hrow]

section Account

/-- The key of an account. -/
def account : RowKey := .ofPartition [0]

/-- The account is opened by its first owner. -/
def opened : Mutation := ((RowWrite.insert account 5).set "owner" [1]).toMutation

/-- Later it gets another owner. -/
def transferred : Mutation := ((RowWrite.update account 7).set "owner" [2]).toMutation

/-- All accounts of the partition are deleted, as of a time between the two writes. -/
def closed : Mutation := .deletePartition account.partition ⟨6⟩

/-- What the three mutations leave of the account. -/
def reopened : Row := ((RowWrite.update account 7).set "owner" [2]).toRow.withDeletion ⟨6⟩

end Account

/-- Levels that share mutations, and a table that takes one twice, give the same row. -/
theorem read_of_transferred :
    (∃ levels : List Level, [[closed, opened], [transferred, opened, closed]].mapM
        (fun part => part.foldlM Level.apply ∅) = .ok levels ∧
      read (levels.map (·.source)) account = .ok reopened) ∧
    ∃ t, [BaseTable.Operation.write transferred, .flush, .write closed, .write opened,
        .write transferred].foldlM BaseTable.perform ∅ = .ok t ∧ t.read account = .ok reopened := by
  have hrow : History.row [opened, transferred, closed] account = reopened := by decide
  obtain ⟨hlevels, htable⟩ := read_of_placement [opened, transferred, closed] account
  rw [hrow] at hlevels htable
  refine ⟨hlevels _ fun m => ?_, htable _ fun m => ?_⟩
  · simp only [List.mem_cons, List.not_mem_nil, or_false, exists_eq_or_imp, exists_eq_left]
    tauto
  · simp only [List.mem_cons, List.not_mem_nil, or_false, BaseTable.Operation.write.injEq,
      reduceCtorEq, false_or]
    tauto

end Read

section Scan

/-- The rows of a range in several levels: each key of the range of which a level holds a fragment
    comes once and in its place, with the row that a point read gives. -/
structure RangeOf (levels : List Level) (partition : Bytes) (range : ClusteringRange)
    (rows : List Row) : Prop where
  increasing : rows.Pairwise fun a b => compare a.key b.key = .lt
  keys : ∀ key, (∃ row ∈ rows, row.key = key) ↔
    key.partition = partition ∧ range.contains key.clustering ∧
      ∃ l ∈ levels, (l.fragment? key).isSome
  read : ∀ row ∈ rows, Compaction.read (levels.map (·.source)) row.key = .ok row

theorem writes_flatten_iff {levels : List Level} {parts : List History}
    (hparts : List.Forall₂ Level.Represents levels parts) (key : RowKey) :
    History.Writes parts.flatten key ↔ ∃ l ∈ levels, (l.fragment? key).isSome := by
  induction hparts with
  | nil =>
    constructor
    · rintro ⟨m, hm, _⟩
      cases hm
    · rintro ⟨l, hl, _⟩
      cases hl
  | @cons l part levels parts hl _ ih =>
    rw [List.flatten_cons, Level.writes_append_iff, ih, ← hl.fragment?_isSome_iff]
    simp

theorem exists_parts {levels : List Level} (hlevels : ∀ l ∈ levels, l.Reachable) :
    ∃ parts : List History, List.Forall₂ Level.Represents levels parts := by
  induction levels with
  | nil => exact ⟨[], .nil⟩
  | cons l levels ih =>
    obtain ⟨part, hl⟩ := (hlevels l List.mem_cons_self).exists_represents
    obtain ⟨parts, hparts⟩ := ih fun l hl => hlevels l (List.mem_cons_of_mem _ hl)
    exact ⟨part :: parts, .cons hl hparts⟩

theorem exists_rangeOf {merge : List (List RowResult) → List RowResult}
    (hinOrder : Scan.MergesInOrder merge) {levels : List Level}
    (hlevels : ∀ l ∈ levels, l.Reachable) (partition : Bytes) (range : ClusteringRange) :
    ∃ rows : List Row, scanBy merge (levels.map (·.source)) partition range = .ok (rows.map .ok) ∧
      RangeOf levels partition range rows := by
  obtain ⟨parts, hparts⟩ := exists_parts hlevels
  have hrepresents : Represents levels parts.flatten := ⟨parts, hparts, .refl _⟩
  obtain ⟨rows, hscan, hsorted, hkeys, hrows⟩ := scanBy_eq_rows hinOrder hrepresents partition range
  refine ⟨rows, hscan, hsorted, fun key => ?_, fun row hrow => ?_⟩
  · rw [hkeys, writes_flatten_iff hparts]
  · rw [read_eq_row hrepresents, ← hrows row hrow]

/-- A scan gives the rows of its range, whatever the levels have taken and however their streams are
    merged in key order; and so does a scan of a base table. -/
theorem scan_agrees_with_read (partition : Bytes) (range : ClusteringRange) :
    (∀ merge, Scan.MergesInOrder merge → ∀ levels : List Level, (∀ l ∈ levels, l.Reachable) →
      ∃ rows : List Row, scanBy merge (levels.map (·.source)) partition range = .ok (rows.map .ok) ∧
        RangeOf levels partition range rows) ∧
    ∀ t : BaseTable, t.Reachable →
      ∃ rows : List Row, t.scan partition range = .ok (rows.map .ok) ∧
        RangeOf t.levels partition range rows ∧ ∀ row ∈ rows, t.read row.key = .ok row := by
  refine ⟨fun merge hinOrder levels hlevels => exists_rangeOf hinOrder hlevels partition range,
    fun t ht => ?_⟩
  obtain ⟨rows, hscan, hrows⟩ :=
    exists_rangeOf Scan.mergesInOrder_merge ht.levels partition range
  rw [BaseTable.scan, scan]
  exact ⟨rows, hscan, hrows, hrows.read⟩

/-- The row that a point read gives of a key of the range is in the scan. -/
theorem RangeOf.mem {levels : List Level} {partition : Bytes} {range : ClusteringRange}
    {rows : List Row} (h : RangeOf levels partition range rows) (key : RowKey) {row : Row}
    (hpart : key.partition = partition) (hin : range.contains key.clustering)
    (hheld : ∃ l ∈ levels, (l.fragment? key).isSome)
    (hread : Compaction.read (levels.map (·.source)) key = .ok row) : row ∈ rows := by
  obtain ⟨other, hmem, hkey⟩ := (h.keys key).mpr ⟨hpart, hin, hheld⟩
  have hother := h.read other hmem
  rw [hkey, hread] at hother
  obtain rfl := Except.ok.inj hother
  exact hmem

/-- The account is scanned as it is read, in two levels that share its mutations and in a table that
    was flushed. -/
theorem scan_of_transferred :
    (∃ levels rows : List _, [[closed, transferred], [opened]].mapM
        (fun part => part.foldlM Level.apply ∅) = .ok levels ∧
      scanBy (Scan.merge RowResult.precedes) (levels.map (·.source)) account.partition .full =
        .ok (rows.map .ok) ∧ reopened ∈ rows) ∧
    ∃ (t : BaseTable) (rows : List Row),
      [BaseTable.Operation.write opened, .flush, .write closed, .write transferred].foldlM
        BaseTable.perform ∅ = .ok t ∧
      t.scan account.partition .full = .ok (rows.map .ok) ∧ reopened ∈ rows := by
  obtain ⟨hlevels, htable⟩ := scan_agrees_with_read account.partition .full
  constructor
  · obtain ⟨rows, hscan, hrows⟩ := hlevels _ Scan.mergesInOrder_merge [_, _] fun l hl => by
      rcases List.mem_pair.mp hl with rfl | rfl
      · exact ⟨[closed, transferred], rfl⟩
      · exact ⟨[opened], rfl⟩
    refine ⟨_, rows, rfl, hscan, hrows.mem account rfl rfl ?_ ?_⟩
    · exact ⟨_, List.mem_cons_self, by decide⟩
    · decide
  · have hfold : [BaseTable.Operation.write opened, .flush, .write closed, .write transferred].foldlM
        BaseTable.perform ∅ = .ok _ := rfl
    obtain ⟨rows, hscan, hrows, _⟩ := htable _ (BaseTable.Reachable.empty.foldlM_perform hfold)
    refine ⟨_, rows, rfl, hscan, hrows.mem account rfl rfl ?_ ?_⟩
    · exact ⟨_, List.mem_cons_self, by decide⟩
    · decide

end Scan

end Compaction

end ViewMaintenance
