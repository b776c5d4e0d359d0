import ViewMaintenance.Proofs.Store.Fragments
import ViewMaintenance.Proofs.Store.Level
import ViewMaintenance.Proofs.Store.Scan
import ViewMaintenance.Store.BaseTable

namespace ViewMaintenance

namespace History

theorem empty_join_fragment (h : History) (key : RowKey) :
    (Row.empty key).join (h.fragment key) = h.fragment key := by
  have hkey : (Row.empty key).key = (h.fragment key).key := (key_fragment h key).symm
  rw [Row.join_comm hkey, (canonical_fragment h key).join_empty]

theorem fragment_append (h g : History) (key : RowKey) :
    fragment (h ++ g) key = (h.fragment key).join (g.fragment key) := by
  have hkey : (h.fragment key).key = (Row.empty key).key := key_fragment h key
  have hjoin := Row.join_foldl_join (g.filterMap (·.fragmentOf? key)) hkey
  rw [(canonical_fragment h key).join_empty] at hjoin
  rw [fragment, List.filterMap_append, List.foldl_append]
  exact hjoin.symm

end History

/-- Rows in key order are determined by their keys and by the row of each key. -/
theorem Row.eq_of_pairwise_key {rows rows' : List Row} {row : RowKey → Row}
    (hsorted : rows.Pairwise fun a b => compare a.key b.key = .lt)
    (hsorted' : rows'.Pairwise fun a b => compare a.key b.key = .lt)
    (hkeys : ∀ key, (∃ r ∈ rows, r.key = key) ↔ ∃ r ∈ rows', r.key = key)
    (hrows : ∀ r ∈ rows, r = row r.key) (hrows' : ∀ r ∈ rows', r = row r.key) : rows = rows' := by
  have hnodup {rows : List Row} (hsorted : rows.Pairwise fun a b => compare a.key b.key = .lt) :
      rows.Nodup := by
    refine hsorted.imp fun {a b} hlt => ?_
    rintro rfl
    have hself : compare a.key a.key = .eq := Std.ReflCmp.compare_self
    rw [hself] at hlt
    cases hlt
  have hmem (r : Row) : r ∈ rows ↔ r ∈ rows' := by
    constructor
    · intro hr
      obtain ⟨x, hx, hkey⟩ := (hkeys r.key).mp ⟨r, hr, rfl⟩
      rwa [hrows r hr, ← hkey, ← hrows' x hx]
    · intro hr
      obtain ⟨x, hx, hkey⟩ := (hkeys r.key).mpr ⟨r, hr, rfl⟩
      rwa [hrows' r hr, ← hkey, ← hrows x hx]
  refine List.Perm.eq_of_pairwise (fun a b _ _ hab hba => ?_) hsorted hsorted'
    ((List.perm_ext_iff_of_nodup (hnodup hsorted) (hnodup hsorted')).mpr hmem)
  rw [Std.OrientedCmp.gt_of_lt hab] at hba
  cases hba

namespace Compaction

/-- Each of the levels holds a part of the history. -/
def Represents (levels : List Level) (h : History) : Prop :=
  ∃ parts : List History, List.Forall₂ Level.Represents levels parts ∧ parts.flatten.Perm h

theorem readFrom_cons (key : RowKey) (row : Row) (covering : Covering) (l : Level)
    (sources : List Source) : readFrom key row covering (l.source :: sources) =
      match l.fragment? key with
      | none => readFrom key row (covering.union (l.covering key.partition)) sources
      | some fragment => ((row.merge fragment).mapError .keyMismatch).bind fun row =>
          readFrom key row (covering.union (l.covering key.partition)) sources := by
  cases hget : l.fragment? key <;> simp only [readFrom, Level.source, hget] <;> rfl

theorem readFrom_eq {levels : List Level} {parts : List History}
    (hparts : List.Forall₂ Level.Represents levels parts) {row : Row} (hrow : row.Canonical)
    (covering : Covering) :
    readFrom row.key row covering (levels.map (·.source)) =
      .ok ((row.join (History.fragment parts.flatten row.key)).shadow
        (latest? (covering.deletion? row.key.clustering)
          (History.covering parts.flatten row.key))) := by
  induction hparts generalizing row covering with
  | nil =>
    have hempty : row.join (History.fragment [] row.key) = row := hrow.join_empty row.key
    simp only [List.flatten_nil, hempty, History.covering, List.map_nil, List.foldl_nil,
      latest?_none_right]
    rfl
  | @cons l part levels parts hl _ ih =>
    have hunion : (covering.union (l.covering row.key.partition)).deletion? row.key.clustering =
        latest? (covering.deletion? row.key.clustering) (part.covering row.key) := by
      rw [Covering.deletion?_union, hl.deletion?_eq]
    have hkey : row.key = (part.fragment row.key).key := (History.key_fragment _ _).symm
    have hrest : readFrom row.key (row.join (part.fragment row.key))
        (covering.union (l.covering row.key.partition)) (levels.map (·.source)) =
          .ok ((row.join (History.fragment (part :: parts).flatten row.key)).shadow
            (latest? (covering.deletion? row.key.clustering)
              (History.covering (part :: parts).flatten row.key))) := by
      have hnext := ih (Row.canonical_join row (part.fragment row.key))
        (covering.union (l.covering row.key.partition))
      rw [Row.key_join, hunion, latest?_assoc, Row.join_assoc hkey] at hnext
      rw [List.flatten_cons, History.fragment_append, History.covering_append]
      exact hnext
    by_cases hw : part.Writes row.key
    · have hfragment := hl.fragment?_of_writes row.key hw
      rw [List.map_cons, readFrom_cons, hfragment]
      simp only [Row.merge_eq_ok hkey]
      exact hrest
    · rw [History.fragment_of_not_writes hw, hrow.join_empty] at hrest
      have hfragment := hl.fragment?_of_not_writes row.key hw
      rw [List.map_cons, readFrom_cons, hfragment]
      exact hrest

/-- A point read gives the row that the history makes, wherever the levels hold its fragments. -/
theorem read_eq_row {levels : List Level} {h : History} (hl : Represents levels h) (key : RowKey) :
    read (levels.map (·.source)) key = .ok (h.row key) := by
  obtain ⟨parts, hparts, hperm⟩ := hl
  have hread := readFrom_eq hparts (Row.canonical_empty key) .empty
  rw [← History.row_perm hperm key, History.row]
  change readFrom (Row.empty key).key (.empty key) .empty (levels.map (·.source)) = _
  rw [hread, Covering.deletion?_empty, latest?_none_left]
  change Except.ok (((Row.empty key).join (History.fragment parts.flatten key)).shadow _) = _
  rw [History.empty_join_fragment]
  rfl

section Scan

/-- Rows with strictly increasing keys hold at most one row of a key. -/
theorem filter_key_of_pairwise {rows : List Row}
    (hpair : rows.Pairwise fun a b => compare a.key b.key = .lt) {row : Row} (hrow : row ∈ rows) :
    rows.filter (fun x => x.key = row.key) = [row] := by
  induction rows with
  | nil => cases hrow
  | cons first rows ih =>
    obtain ⟨hfirst, hrest⟩ := List.pairwise_cons.mp hpair
    have hne {x : Row} (hx : x ∈ rows) : first.key ≠ x.key := by
      intro heq
      have hlt := hfirst x hx
      simp [heq, Std.ReflCmp.compare_self] at hlt
    rcases List.mem_cons.mp hrow with rfl | hrow
    · have hnone : rows.filter (fun x => x.key = row.key) = [] :=
        List.filter_eq_nil_iff.mpr fun x hx => by simpa using (hne hx).symm
      simp [hnone]
    · rw [List.filter_cons_of_neg (by simpa using hne hrow), ih hrest hrow]

/-- Inside the range a stream holds what its level has for a key. -/
theorem filter_fragments {l : Level} {h : History} (hl : l.Represents h) {partition : Bytes}
    {range : ClusteringRange} {key : RowKey} (hpart : key.partition = partition)
    (hin : range.contains key.clustering = true) :
    (l.fragments partition range).filter (fun x => x.key = key) = (l.fragment? key).toList := by
  cases hget : l.fragment? key with
  | some row =>
    obtain rfl : row.key = key := (hl.wellFormed key row hget).1
    exact filter_key_of_pairwise (hl.wellFormed.pairwise_fragments partition range)
      (hl.wellFormed.mem_fragments_iff.mpr ⟨hget, hpart, hin⟩)
  | none =>
    refine List.filter_eq_nil_iff.mpr fun x hx hkey => ?_
    obtain rfl : x.key = key := by simpa using hkey
    rw [(hl.wellFormed.mem_fragments_iff.mp hx).1] at hget
    cases hget

/-- The fragments of one key in all streams make the fragment of the whole history. -/
theorem foldl_join_filter_flatten {levels : List Level} {parts : List History}
    (hparts : List.Forall₂ Level.Represents levels parts) {partition : Bytes}
    {range : ClusteringRange} {key : RowKey} (hpart : key.partition = partition)
    (hin : range.contains key.clustering = true) {row : Row} (hkey : row.key = key)
    (hrow : row.Canonical) :
    ((levels.map (·.fragments partition range)).flatten.filter fun x => x.key = key).foldl
        Row.join row = row.join (History.fragment parts.flatten key) := by
  induction hparts generalizing row with
  | nil => exact (hrow.join_empty key).symm
  | @cons l part levels parts hl _ ih =>
    have hkeys : row.key = (part.fragment key).key := by rw [hkey, History.key_fragment]
    have hstep : (l.fragment? key).toList.foldl Row.join row = row.join (part.fragment key) := by
      rw [← hl.getD_fragment?]
      cases l.fragment? key with
      | some fragment => rfl
      | none => exact (hrow.join_empty key).symm
    rw [List.map_cons, List.flatten_cons, List.filter_append, List.foldl_append,
      filter_fragments hl hpart hin, hstep, ih (by exact hkey) (Row.canonical_join _ _),
      List.flatten_cons, History.fragment_append, Row.join_assoc hkeys]

theorem mapM_open? (levels : List Level) (partition : Bytes) (range : ClusteringRange) :
    (levels.map (·.source)).mapM (open? partition range) =
      .ok (levels.map fun l =>
        (l.covering partition, (l.fragments partition range).map .ok)) := by
  induction levels with
  | nil => rfl
  | cons l levels ih =>
    rw [List.map_cons, List.mapM_cons, ih]
    rfl

theorem foldl_union_eq {levels : List Level} {parts : List History}
    (hparts : List.Forall₂ Level.Represents levels parts) (key : RowKey) (covering : Covering) :
    ((levels.map (·.covering key.partition)).foldl Covering.union covering).deletion?
        key.clustering =
      latest? (covering.deletion? key.clustering) (History.covering parts.flatten key) := by
  induction hparts generalizing covering with
  | nil => exact (latest?_none_right _).symm
  | @cons l part levels parts hl _ ih =>
    rw [List.map_cons, List.foldl_cons, ih, Covering.deletion?_union, hl.deletion?_eq,
      List.flatten_cons, History.covering_append, latest?_assoc]

theorem exists_mem_fragments_iff {levels : List Level} {parts : List History}
    (hparts : List.Forall₂ Level.Represents levels parts) {partition : Bytes}
    {range : ClusteringRange} {key : RowKey} :
    (∃ row ∈ (levels.map (·.fragments partition range)).flatten, row.key = key) ↔
      key.partition = partition ∧ range.contains key.clustering ∧
        History.Writes parts.flatten key := by
  induction hparts with
  | nil =>
    constructor
    · rintro ⟨row, hrow, _⟩
      cases hrow
    · rintro ⟨_, _, m, hm, _⟩
      cases hm
  | @cons l part levels parts hl _ ih =>
    have hlevel : (∃ row ∈ l.fragments partition range, row.key = key) ↔
        key.partition = partition ∧ range.contains key.clustering ∧ part.Writes key := by
      rw [← hl.fragment?_isSome_iff, Option.isSome_iff_exists]
      constructor
      · rintro ⟨row, hrow, rfl⟩
        obtain ⟨hget, hpart, hin⟩ := hl.wellFormed.mem_fragments_iff.mp hrow
        exact ⟨hpart, hin, row, hget⟩
      · rintro ⟨hpart, hin, row, hget⟩
        obtain rfl : row.key = key := (hl.wellFormed key row hget).1
        exact ⟨row, hl.wellFormed.mem_fragments_iff.mpr ⟨hget, hpart, hin⟩, rfl⟩
    simp only [List.map_cons, List.flatten_cons, List.mem_append, Level.writes_append_iff, or_and_right,
      exists_or, hlevel, ih]
    tauto

/-- Levels open all their streams before anything is merged. -/
theorem scanBy_levels (merge : List (List RowResult) → List RowResult) (levels : List Level)
    (partition : Bytes) (range : ClusteringRange) :
    scanBy merge (levels.map (·.source)) partition range =
      .ok ((Scan.coalesce RowResult.join? (merge ((levels.map (·.fragments partition range)).map
        fun rows => rows.map .ok))).map fun item => item.map fun row => row.shadow
          (((levels.map (·.covering partition)).foldl Covering.union .empty).deletion?
            row.key.clustering)) := by
  rw [scanBy, mapM_open?]
  change Except.ok _ = Except.ok _
  simp only [List.map_map, Function.comp_def]

/-- A scan gives the rows that the history makes for the keys of the range that were written, in key
    order and each of them once, whichever fragment of a key the merge takes first. -/
theorem scanBy_eq_rows {merge : List (List RowResult) → List RowResult}
    (hinOrder : Scan.MergesInOrder merge) {levels : List Level} {h : History}
    (hl : Represents levels h) (partition : Bytes) (range : ClusteringRange) :
    ∃ rows : List Row, scanBy merge (levels.map (·.source)) partition range = .ok (rows.map .ok) ∧
      rows.Pairwise (fun a b => compare a.key b.key = .lt) ∧
      (∀ key, (∃ row ∈ rows, row.key = key) ↔
        key.partition = partition ∧ range.contains key.clustering ∧ h.Writes key) ∧
      ∀ row ∈ rows, row = h.row row.key := by
  obtain ⟨parts, hparts, hperm⟩ := hl
  have hpart {l : Level} (hl : l ∈ levels) : ∃ part, l.Represents part := by
    obtain ⟨i, hi, rfl⟩ := List.mem_iff_getElem.mp hl
    exact ⟨_, hparts.get hi (hparts.length_eq ▸ hi)⟩
  have hcanonical : ∀ r ∈ (levels.map (·.fragments partition range)).flatten, r.Canonical := by
    intro r hr
    obtain ⟨rows, hrows, hr⟩ := List.mem_flatten.mp hr
    obtain ⟨l, hl, rfl⟩ := List.mem_map.mp hrows
    obtain ⟨part, hpart⟩ := hpart hl
    exact (hpart.wellFormed r.key r (hpart.wellFormed.mem_fragments_iff.mp hr).1).2
  have hstreams : ∀ rows ∈ levels.map (·.fragments partition range), rows.Pairwise Scan.KeyLE := by
    intro rows hrows
    obtain ⟨l, hl, rfl⟩ := List.mem_map.mp hrows
    obtain ⟨part, hpart⟩ := hpart hl
    refine (hpart.wellFormed.pairwise_fragments partition range).imp fun hlt => ?_
    simp [Scan.KeyLE, hlt]
  obtain ⟨merged, hmerged, hsorted, hmerge⟩ := hinOrder _ hstreams
  obtain ⟨out, hout, hlt, hkeys, hrows⟩ :=
    Scan.coalesce_rows (fun r hr => hcanonical r (hmerge.mem_iff.mp hr)) hsorted
  have hkey (key : RowKey) : (∃ row ∈ out, row.key = key) ↔
      key.partition = partition ∧ range.contains key.clustering ∧ h.Writes key := by
    have hwrites : h.Writes key ↔ History.Writes parts.flatten key := by
      simp only [History.Writes, hperm.mem_iff]
    rw [hkeys, hwrites, ← exists_mem_fragments_iff hparts]
    simp only [hmerge.mem_iff]
  refine ⟨out.map fun r => h.row r.key, ?_, ?_, fun key => ?_, ?_⟩
  · rw [scanBy_levels, hmerged, hout, List.map_map, List.map_map]
    refine congrArg Except.ok (List.map_congr_left fun r hr => congrArg Except.ok ?_)
    obtain ⟨hpart, hin, _⟩ := (hkey r.key).mp ⟨r, hr, rfl⟩
    have hfragment : r = History.fragment parts.flatten r.key := by
      have hall := Row.foldl_join_perm (hmerge.filter fun x => x.key = r.key)
        (fun f hf => by simpa using (List.mem_filter.mp hf).2) (.empty r.key)
      have hempty : (Row.empty r.key).key = r.key := rfl
      rw [← hrows r hr, foldl_join_filter_flatten hparts hpart hin hempty (Row.canonical_empty _),
        History.empty_join_fragment] at hall
      exact hall
    have hcovering := foldl_union_eq hparts r.key .empty
    rw [hpart, Covering.deletion?_empty, latest?_none_left] at hcovering
    change r.shadow _ = h.row r.key
    rw [hcovering, ← History.row_perm hperm, History.row, ← hfragment]
  · refine List.pairwise_map.mpr ?_
    simpa only [History.key_row] using hlt
  · rw [← hkey]
    simp only [List.mem_map, exists_exists_and_eq_and, History.key_row]
  · intro row hrow
    obtain ⟨r, _, rfl⟩ := List.mem_map.mp hrow
    rw [History.key_row]

/-- Every merge that keeps the key order gives the same scan of levels that hold a history. -/
theorem scanBy_eq_scan {merge : List (List RowResult) → List RowResult}
    (hinOrder : Scan.MergesInOrder merge) {levels : List Level} {h : History}
    (hl : Represents levels h) (partition : Bytes) (range : ClusteringRange) :
    scanBy merge (levels.map (·.source)) partition range =
      scan (levels.map (·.source)) partition range := by
  obtain ⟨rows, hscan, hsorted, hkeys, hrows⟩ := scanBy_eq_rows hinOrder hl partition range
  obtain ⟨rows', hscan', hsorted', hkeys', hrows'⟩ :=
    scanBy_eq_rows Scan.mergesInOrder_merge hl partition range
  have hsame : rows = rows' := Row.eq_of_pairwise_key hsorted hsorted'
    (fun key => (hkeys key).trans (hkeys' key).symm) hrows hrows'
  rw [scan, hscan, hscan', hsame]

end Scan

end Compaction

namespace BaseTable

/-- The levels of the table hold a history together. -/
def Represents (t : BaseTable) (h : History) : Prop := Compaction.Represents t.levels h

theorem represents_empty : (∅ : BaseTable).Represents [] :=
  ⟨[[]], .cons Level.represents_empty .nil, .refl _⟩

theorem Represents.read {t : BaseTable} {h : History} (ht : t.Represents h) (key : RowKey) :
    t.read key = .ok (h.row key) := Compaction.read_eq_row ht key

theorem Represents.scan {t : BaseTable} {h : History} (ht : t.Represents h) (partition : Bytes)
    (range : ClusteringRange) :
    ∃ rows : List Row, t.scan partition range = .ok (rows.map .ok) ∧
      rows.Pairwise (fun a b => compare a.key b.key = .lt) ∧
      (∀ key, (∃ row ∈ rows, row.key = key) ↔
        key.partition = partition ∧ range.contains key.clustering ∧ h.Writes key) ∧
      ∀ row ∈ rows, row = h.row row.key := by
  rw [BaseTable.scan, Compaction.scan]
  exact Compaction.scanBy_eq_rows Scan.mergesInOrder_merge ht partition range

/-- A table takes every mutation. -/
theorem Represents.apply {t : BaseTable} {h : History} (ht : t.Represents h) (m : Mutation) :
    ∃ t', t.apply m = .ok t' ∧ t'.Represents (h ++ [m]) := by
  obtain ⟨parts, hparts, hperm⟩ := ht
  cases hparts with
  | @cons _ part _ parts htop hfrozen =>
    obtain ⟨top, happly, htop'⟩ := htop.apply m
    refine ⟨{ t with top }, by rw [BaseTable.apply, happly]; rfl, _, .cons htop' hfrozen, ?_⟩
    rw [List.flatten_cons] at hperm ⊢
    have hswap : (part ++ [m] ++ parts.flatten).Perm (part ++ parts.flatten ++ [m]) := by
      rw [List.append_assoc, List.append_assoc]
      exact List.perm_append_comm.append_left part
    exact hswap.trans (hperm.append_right [m])

theorem Represents.flush {t : BaseTable} {h : History} (ht : t.Represents h) :
    t.flush.Represents h := by
  unfold BaseTable.flush
  split
  · exact ht
  · obtain ⟨parts, hparts, hperm⟩ := ht
    exact ⟨[] :: parts, .cons Level.represents_empty hparts, hperm⟩

/-- The base tables that come of the empty one by mutations and flushes. -/
inductive Reachable : BaseTable → Prop
  | empty : Reachable ∅
  | apply {t t' : BaseTable} {m : Mutation} (h : Reachable t) (happly : t.apply m = .ok t') :
      Reachable t'
  | flush {t : BaseTable} (h : Reachable t) : Reachable t.flush

theorem Reachable.exists_represents {t : BaseTable} (ht : t.Reachable) :
    ∃ h : History, t.Represents h := by
  induction ht with
  | empty => exact ⟨[], represents_empty⟩
  | @apply t t' m _ happly ih =>
    obtain ⟨h, hrepresents⟩ := ih
    obtain ⟨u, hu, hu'⟩ := hrepresents.apply m
    rw [happly] at hu
    obtain rfl := Except.ok.inj hu
    exact ⟨h ++ [m], hu'⟩
  | flush _ ih =>
    obtain ⟨h, hrepresents⟩ := ih
    exact ⟨h, hrepresents.flush⟩

/-- What a scan of a table gives does not depend on how the streams of its levels are merged in key
    order. -/
theorem Reachable.scanBy_eq_scan {t : BaseTable} (ht : t.Reachable)
    {merge : List (List RowResult) → List RowResult} (hinOrder : Scan.MergesInOrder merge)
    (partition : Bytes) (range : ClusteringRange) :
    Compaction.scanBy merge (t.levels.map (·.source)) partition range = t.scan partition range := by
  obtain ⟨h, hrepresents⟩ := ht.exists_represents
  exact Compaction.scanBy_eq_scan hinOrder hrepresents partition range

end BaseTable

end ViewMaintenance
