import ViewMaintenance.Proofs.Engine.Inspection
import ViewMaintenance.Proofs.Engine.Run

namespace ViewMaintenance

/-- The view rows that the base rows of a range map to, in clustering order. -/
structure View.RowsOf (v : View) (base : BaseTable) (partition : Bytes) (range : ClusteringRange)
    (now : Timestamp) (ids : List ViewKey) : Prop where
  increasing : ids.Pairwise fun a b => compare a.base.clustering b.base.clustering = .lt
  mem_iff : ∀ id, id ∈ ids ↔ id.base.partition = partition ∧ range.contains id.base.clustering ∧
    ∃ row, base.read id.base = .ok row ∧ v.rowKey? row now = some id

theorem RowKey.compare_clustering_of_lt {a b : RowKey} (hpartition : a.partition = b.partition)
    (h : compare a b = .lt) : compare a.clustering b.clustering = .lt := by
  change compareLex _ _ a b = .lt at h
  have hequal : compare a.partition b.partition = .eq :=
    Std.LawfulEqCmp.compare_eq_iff_eq.mpr hpartition
  simpa [compareLex, compareOn, hequal] using h

namespace View

variable {v : View} {base : BaseTable} {h : History} {now : Timestamp}

/-- A base row that maps to a view row is one of which a fragment was written. -/
theorem writes_of_rowKey? {key : RowKey} {id : ViewKey} (hid : v.rowKey? (h.row key) now = some id) :
    h.Writes key := by
  by_contra hnot
  rw [History.row_of_not_writes hnot, rowKey?_ofDeletion] at hid
  cases hid

/-- The rows that a scan gives map to all view rows of the range. -/
theorem rowsOf_scan (hbase : base.Represents h) {partition : Bytes} {range : ClusteringRange}
    {rows : List Row} (hscan : base.scan partition range = .ok (rows.map .ok)) :
    v.RowsOf base partition range now (rows.filterMap (v.rowKey? · now)) := by
  obtain ⟨hsorted, hkeys, hrows⟩ := hbase.rows_of_scan hscan
  have hpartition {row : Row} (hrow : row ∈ rows) : row.key.partition = partition :=
    ((hkeys row.key).mp ⟨row, hrow, rfl⟩).1
  have hclustering : rows.Pairwise fun a b => compare a.key.clustering b.key.clustering = .lt :=
    hsorted.imp_of_mem fun ha hb hlt =>
      RowKey.compare_clustering_of_lt ((hpartition ha).trans (hpartition hb).symm) hlt
  refine ⟨hclustering.filterMap _ fun a b hab id hid other hother => ?_, fun id => ?_⟩
  · rw [base_of_rowKey? hid, base_of_rowKey? hother]
    exact hab
  · rw [List.mem_filterMap]
    constructor
    · rintro ⟨row, hrow, hid⟩
      obtain ⟨hpartition, hin, _⟩ := (hkeys row.key).mp ⟨row, hrow, rfl⟩
      rw [base_of_rowKey? hid]
      exact ⟨hpartition, hin, row, (hbase.read row.key).trans (congrArg _ (hrows row hrow).symm), hid⟩
    · rintro ⟨hpartition, hin, row, hread, hid⟩
      obtain rfl : h.row id.base = row := Except.ok.inj ((hbase.read id.base).symm.trans hread)
      obtain ⟨row, hrow, hkey⟩ := (hkeys id.base).mpr ⟨hpartition, hin, writes_of_rowKey? hid⟩
      refine ⟨row, hrow, ?_⟩
      rw [hrows row hrow, hkey]
      exact hid

end View

namespace Engine

variable {e : Engine} {s : Store} {m : Mutation} {now : Timestamp}

/-- A deletion of a range or of a partition that is not refused deletes for every view exactly the view
    rows that base rows of the range map to before it, at its own time. -/
theorem updates_of_deletion (hs : s.Reachable) {partition : Bytes} {range : ClusteringRange}
    {x : Deletion} (hm : m.scan? = some (partition, range, x)) {updates : List ViewUpdate}
    (happly : (e.apply .none m now s).1 = .ok updates) :
    ∃ ids : View → List ViewKey,
      (∀ v ∈ e.views, v.RowsOf s.base partition range now (ids v)) ∧
      updates = (e.views.map fun v =>
        ⟨v.name, (ids v).map fun id => .deleteRow id x.markedAt .regular⟩).filter
          fun u => !u.isEmpty := by
  obtain ⟨h, hholds⟩ := hs.exists_holds e
  obtain ⟨rows, hscan, _⟩ := hholds.base.scan partition range
  have hi : s.base.Inspects now m (.range rows x now) := .range hm hscan
  refine ⟨fun v => rows.filterMap (v.rowKey? · now), fun v _ => View.rowsOf_scan hholds.base hscan, ?_⟩
  rcases apply_of_inspects hholds hi with ⟨_, _, hresult⟩ | ⟨_, ⟨_, _, hresult⟩ | ⟨_, _, hresult, _⟩⟩ <;>
    rw [hresult] at happly
  · cases happly
  · cases happly
  · exact (Except.ok.inj happly).symm

section Orders

/-- Three orders on several levels, the first one with a fragment on each of two levels. -/
def ordersOnLevels : List Event :=
  [placeOrder 1 2 4 1, .flush, placeOrder 2 1 5 1,
    .apply ((RowWrite.update (orderAt 1) 6).set "status" [3]).toMutation 1, .flush, placeOrder 3 2 4 1]

/-- The deletion of two of the orders deletes their view rows, the first one under its last status. -/
theorem updates_of_deleted_orders : ∃ ids : View → List ViewKey,
    (∀ v ∈ ordersEngine.views, v.RowsOf
      (ordersEngine.run (.ofViews ordersEngine.views) ordersOnLevels).base [0]
        ⟨.included [1], .excluded [3]⟩ 2 (ids v)) ∧
    [⟨"all_orders", [.deleteRow ⟨orderAt 1, none⟩ 5 .regular, .deleteRow ⟨orderAt 2, none⟩ 5 .regular]⟩,
      ⟨"orders_by_status",
        [.deleteRow ⟨orderAt 1, some [3]⟩ 5 .regular, .deleteRow ⟨orderAt 2, some [1]⟩ 5 .regular]⟩] =
      (ordersEngine.views.map fun v => ViewUpdate.mk v.name
        ((ids v).map fun id => .deleteRow id 5 .regular)).filter fun u => !u.isEmpty :=
  updates_of_deletion (e := ordersEngine) (m := .deleteRange [0] ⟨.included [1], .excluded [3]⟩ ⟨5⟩)
    ((Store.Reachable.ofViews ordersEngine.views).run ordersEngine ordersOnLevels) rfl
    (by decide +kernel)

end Orders

end Engine

end ViewMaintenance
