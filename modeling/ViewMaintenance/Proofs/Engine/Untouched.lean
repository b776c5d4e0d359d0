import ViewMaintenance.Proofs.Engine.Attempts
import ViewMaintenance.Proofs.Engine.Inspection
import ViewMaintenance.Proofs.Engine.Partition
import ViewMaintenance.Proofs.Engine.Run

namespace ViewMaintenance

section Base

variable {m : Mutation} {h : History} {t t' : BaseTable}

theorem Mutation.fragmentOf?_of_not_touches {key : RowKey} (hkey : m.touches key = false) :
    m.fragmentOf? key = none := by
  have hnone := (Bool.or_eq_false_iff.mp hkey).1
  simpa using hnone

/-- The rows that a mutation does not touch. -/
def Mutation.untouched (m : Mutation) (rows : List Row) : List Row :=
  rows.filter fun row => !m.touches row.key

theorem Mutation.mem_untouched {rows : List Row} {row : Row} :
    row ∈ m.untouched rows ↔ row ∈ rows ∧ m.touches row.key = false := by
  simp [untouched]

namespace BaseTable

theorem Represents.read_of_not_touches (ht : t.Represents h) (ht' : t'.Represents (h ++ [m]))
    {key : RowKey} (hkey : m.touches key = false) : t'.read key = t.read key := by
  rw [ht'.read, ht.read, History.row_append_of_not_touches hkey]

/-- Two scans around a mutation give the same rows that it does not touch, in the same order. Another
    row may be new, since the mutation may have written its first fragment. -/
theorem Represents.scan_of_not_touches (ht : t.Represents h) (ht' : t'.Represents (h ++ [m]))
    (partition : Bytes) (range : ClusteringRange) :
    ∃ rows rows' : List Row, t.scan partition range = .ok (rows.map .ok) ∧
      t'.scan partition range = .ok (rows'.map .ok) ∧ m.untouched rows' = m.untouched rows := by
  obtain ⟨rows, hscan, hsorted, hkeys, hrows⟩ := ht.scan partition range
  obtain ⟨rows', hscan', hsorted', hkeys', hrows'⟩ := ht'.scan partition range
  refine ⟨rows, rows', hscan, hscan', ?_⟩
  have hold : ∀ row ∈ m.untouched rows, row = h.row row.key := fun row hrow =>
    hrows row (Mutation.mem_untouched.mp hrow).1
  refine Row.eq_of_pairwise_key (hsorted'.filter _) (hsorted.filter _) (fun key => ?_)
    (fun row hrow => ?_) hold
  · have hmem (rows : List Row) : (∃ row ∈ m.untouched rows, row.key = key) ↔
        (∃ row ∈ rows, row.key = key) ∧ m.touches key = false := by
      constructor
      · rintro ⟨row, hrow, rfl⟩
        obtain ⟨hrow, hkey⟩ := Mutation.mem_untouched.mp hrow
        exact ⟨⟨row, hrow, rfl⟩, hkey⟩
      · rintro ⟨⟨row, hrow, rfl⟩, hkey⟩
        exact ⟨row, Mutation.mem_untouched.mpr ⟨hrow, hkey⟩, rfl⟩
    rw [hmem, hmem, hkeys, hkeys']
    refine and_congr_left fun hkey => ?_
    rw [Level.not_writes_append (Mutation.fragmentOf?_of_not_touches hkey)]
  · obtain ⟨hrow, hkey⟩ := Mutation.mem_untouched.mp hrow
    rw [← History.row_append_of_not_touches hkey]
    exact hrows' row hrow

end BaseTable

end Base

/-- Two stores hold the same apart from what a mutation touches: reads and scans of the base table give
    the same other rows, and the views have stored the same view rows of other base rows. -/
structure Store.SameOutside (m : Mutation) (s s' : Store) : Prop where
  read : ∀ key, m.touches key = false → s'.base.read key = s.base.read key
  scan : ∀ partition range, ∃ rows rows' : List Row, s.base.scan partition range = .ok (rows.map .ok) ∧
    s'.base.scan partition range = .ok (rows'.map .ok) ∧ m.untouched rows' = m.untouched rows
  stored : ∀ (name : String) (id : ViewKey), m.touches id.base = false →
    (s'.views.get? name).map (·.stored? id) = (s.views.get? name).map (·.stored? id)

namespace Store

variable {s : Store} {h : History} {m : Mutation}

theorem sameOutside_refl (hs : s.base.Represents h) (m : Mutation) : s.SameOutside m s where
  read _ _ := rfl
  scan partition range := by
    obtain ⟨rows, hscan, _⟩ := hs.scan partition range
    exact ⟨rows, rows, hscan, hscan, rfl⟩
  stored _ _ _ := rfl

/-- Views that have taken the updates for a mutation, and a base table that was written or not. -/
theorem sameOutside_of_updates {e : Engine} {now : Timestamp} (hs : s.Reachable)
    (hbase : s.base.Represents h) {updates : List ViewUpdate} {views : ViewTables}
    (hupdates : e.updates s.base.reader m now = .ok updates)
    (hviews : s.views.apply updates = .ok views) {base : BaseTable}
    (hwritten : base = s.base ∨ base.Represents (h ++ [m])) : s.SameOutside m ⟨base, views⟩ where
  read key hkey := by
    rcases hwritten with rfl | hbase'
    · rfl
    · exact hbase.read_of_not_touches hbase' hkey
  scan partition range := by
    rcases hwritten with rfl | hbase'
    · exact (sameOutside_refl hbase m).scan partition range
    · exact hbase.scan_of_not_touches hbase' partition range
  stored name id hid := by
    refine (hs.views.wellFormed.receives_of_apply hviews).map_stored?_of_forall_ne
      (hs.views.wellFormed name) fun u hu i hi hrow => ?_
    have htouches := Engine.touches_of_updates hbase hupdates u hu i hi
    rw [hrow, hid] at htouches
    cases htouches

end Store

namespace Engine

/-- A mutation leaves all rows that it does not touch, in the base table and in the views, if it is
    taken and also if it fails, whatever fails. -/
theorem sameOutside_apply {s : Store} (hs : s.Reachable) (e : Engine) (f : Faults) (m : Mutation)
    (now : Timestamp) : s.SameOutside m (e.apply f m now s).2 := by
  obtain ⟨h, hbase⟩ := hs.base.exists_represents
  rcases e.apply_leaves f m now s with
    hsame | ⟨updates, views, hupdates, hviews, hwritten | ⟨base, happly, hdone⟩⟩
  · rw [hsame]
    exact Store.sameOutside_refl hbase m
  · rw [hwritten]
    exact Store.sameOutside_of_updates hs hbase hupdates hviews (.inl rfl)
  · obtain ⟨taken, htaken, hbase'⟩ := hbase.apply m
    obtain rfl : base = taken := Except.ok.inj (happly.symm.trans htaken)
    rw [hdone]
    exact Store.sameOutside_of_updates hs hbase hupdates hviews (.inr hbase')

section Orders

/-- Three orders of a customer and one of a customer whose partition begins alike. -/
def ordersOfNeighbours : List Event :=
  [placeOrder 1 2 4 1, placeOrder 2 2 4 1, .flush, placeOrder 3 1 4 1,
    .apply ((RowWrite.insert ⟨[0, 2], []⟩ 4).set "status" [2]).toMutation 1]

/-- A deletion from after the first order up to the third one is taken and changes the second order.
    It leaves the first order and the order of the other customer with their view rows. -/
theorem sameOutside_of_deleted_orders :
    let s := ordersEngine.run (.ofViews ordersEngine.views) ordersOfNeighbours
    let m := Mutation.deleteRange [0] ⟨.excluded [1], .included [3]⟩ ⟨5⟩
    s.SameOutside m (ordersEngine.apply .none m 2 s).2 ∧
      (ordersEngine.apply .none m 2 s).1.isOk ∧
      (ordersEngine.apply .none m 2 s).2.base.read (orderAt 2) ≠ s.base.read (orderAt 2) ∧
      ∀ key ∈ [orderAt 1, ⟨[0, 2], []⟩], m.touches key = false ∧
        (((ordersEngine.apply .none m 2 s).2.views.get? "orders_by_status").bind
          (·.stored? ⟨key, some [2]⟩)).isSome := by
  intro s m
  have hs : s.Reachable := (Store.Reachable.ofViews ordersEngine.views).run ordersEngine _
  exact ⟨sameOutside_apply hs ordersEngine .none m 2, by decide +kernel, by decide +kernel,
    by decide +kernel⟩

end Orders

end Engine

end ViewMaintenance
