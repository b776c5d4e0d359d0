import ViewMaintenance.Proofs.Store.BrokenScan
import ViewMaintenance.Proofs.Store.Compaction
import ViewMaintenance.Proofs.Store.ViewTable

namespace ViewMaintenance

/-- A row as it may be kept under a key: it carries this key, and its marker and its cells were all
    written after its own deletion. -/
structure Row.KeptUnder (r : Row) (key : RowKey) : Prop where
  key_eq : r.key = key
  marker_later : ∀ d m, r.deletion = some d → r.marker = some m → d.markedAt < m.timestamp
  cell_later : ∀ d column c, r.deletion = some d → r.cell? column = some c →
    d.markedAt < c.timestamp

theorem Row.keptUnder_iff {r : Row} {key : RowKey} :
    r.KeptUnder key ↔ r.key = key ∧ r.Canonical := by
  rw [canonical_iff_lt]
  constructor
  · intro h
    refine ⟨h.key_eq, fun d hd => ⟨fun m hm => ?_, fun column c hc => ?_⟩⟩
    · exact h.marker_later d m hd hm
    · exact h.cell_later d column c hd hc
  · rintro ⟨hkey, hlater⟩
    refine ⟨hkey, fun d m hd hm => ?_, fun d column c hd hc => ?_⟩
    · exact (hlater d hd).1 m hm
    · exact (hlater d hd).2 column c hc

namespace Scan

variable {α : Type}

/-- A merge of streams passes on items of the streams and no others, in whatever order and however
    often. -/
def AddsNothing (merge : List (List α) → List α) : Prop :=
  ∀ streams, ∀ x ∈ merge streams, x ∈ streams.flatten

theorem addsNothing_merge (precedes : α → α → Bool) : AddsNothing (merge precedes) := by
  intro streams x hx
  exact (interleaves_merge precedes streams).perm.mem_iff.mp hx

/-- What holds of all items and is kept by joining two of them holds of all that is joined. -/
theorem forall_coalesceFrom {P : α → Prop} {join? : α → α → Option α}
    (hjoin : ∀ x y joined, P x → P y → join? x y = some joined → P joined) {current : α}
    (hcurrent : P current) {items : List α} (hitems : ∀ x ∈ items, P x) :
    ∀ x ∈ coalesceFrom join? current items, P x := by
  induction items generalizing current with
  | nil =>
    intro x hx
    obtain rfl := List.mem_singleton.mp hx
    exact hcurrent
  | cons y items ih =>
    have hy : P y := hitems y List.mem_cons_self
    have hrest : ∀ x ∈ items, P x := fun x hx => hitems x (List.mem_cons_of_mem y hx)
    rw [coalesceFrom]
    cases hj : join? current y with
    | some joined => exact ih (hjoin current y joined hcurrent hy hj) hrest
    | none =>
      intro x hx
      rcases List.mem_cons.mp hx with rfl | hx
      · exact hcurrent
      · exact ih hy hrest x hx

theorem forall_coalesce {P : α → Prop} {join? : α → α → Option α}
    (hjoin : ∀ x y joined, P x → P y → join? x y = some joined → P joined) {items : List α}
    (hitems : ∀ x ∈ items, P x) : ∀ x ∈ coalesce join? items, P x := by
  cases items with
  | nil => exact hitems
  | cons x items =>
    exact forall_coalesceFrom hjoin (hitems x List.mem_cons_self) fun y hy =>
      hitems y (List.mem_cons_of_mem x hy)

end Scan

/-- Where a scan joins two rows, the check of their keys passes, and what comes of it is their
    merge. -/
theorem RowResult.merge_of_join? {a b : Row} {joined : RowResult}
    (h : join? (.ok a) (.ok b) = some joined) : ∃ row, a.merge b = .ok row ∧ joined = .ok row := by
  obtain ⟨_, _, ha, hb, hkey, rfl⟩ := join?_eq_some_iff.mp h
  obtain rfl := Except.ok.inj ha
  obtain rfl := Except.ok.inj hb
  exact ⟨_, Row.merge_eq_ok hkey, rfl⟩

namespace Compaction

variable {levels : List Level}

/-- Reading on over well-formed levels merges fragments of one key only. -/
theorem exists_readFrom (hlevels : ∀ l ∈ levels, l.WellFormed) (row : Row) (covering : Covering) :
    ∃ out, readFrom row.key row covering (levels.map (·.source)) = .ok out ∧
      out.KeptUnder row.key := by
  induction levels generalizing row covering with
  | nil => exact ⟨_, rfl, Row.keptUnder_iff.mpr ⟨rfl, Row.canonical_shadow _ _⟩⟩
  | cons l levels ih =>
    have hrest := ih fun l hl => hlevels l (List.mem_cons_of_mem _ hl)
    rw [List.map_cons, readFrom_cons]
    cases hget : l.fragment? row.key with
    | none => exact hrest row _
    | some f =>
      have hkey : row.key = f.key := (hlevels l List.mem_cons_self row.key f hget).1.symm
      simp only [Row.merge_eq_ok hkey]
      exact hrest (row.join f) _

theorem exists_read_of_wellFormed (hlevels : ∀ l ∈ levels, l.WellFormed) (key : RowKey) :
    ∃ row, read (levels.map (·.source)) key = .ok row ∧ row.KeptUnder key :=
  exists_readFrom hlevels (.empty key) .empty

/-- A level holds a fragment under a key of the range. -/
def InRange (levels : List Level) (partition : Bytes) (range : ClusteringRange) (key : RowKey) :
    Prop :=
  key.partition = partition ∧ range.contains key.clustering ∧
    ∃ l ∈ levels, (l.fragment? key).isSome

/-- A scan goes through, and each row that it yields is kept under a key of its range. -/
def YieldsKept (levels : List Level) (partition : Bytes) (range : ClusteringRange)
    (result : Except StoreError (List RowResult)) : Prop :=
  ∃ rows : List Row, result = .ok (rows.map .ok) ∧
    ∀ row ∈ rows, ∃ key, row.KeptUnder key ∧ InRange levels partition range key

theorem exists_rows_of_forall_ok {P : Row → Prop} {items : List RowResult}
    (h : ∀ item ∈ items, ∃ row, item = .ok row ∧ P row) :
    ∃ rows : List Row, items = rows.map .ok ∧ ∀ row ∈ rows, P row := by
  induction items with
  | nil => exact ⟨[], rfl, by simp⟩
  | cons item items ih =>
    obtain ⟨row, rfl, hrow⟩ := h item List.mem_cons_self
    obtain ⟨rows, rfl, hrows⟩ := ih fun item hitem => h item (List.mem_cons_of_mem _ hitem)
    exact ⟨row :: rows, rfl, List.forall_mem_cons.mpr ⟨hrow, hrows⟩⟩

/-- A scan of well-formed levels joins rows of one key only, whatever the order in which their
    streams are merged. -/
theorem yieldsKept_scanBy {merge : List (List RowResult) → List RowResult}
    (hmerge : Scan.AddsNothing merge) (hlevels : ∀ l ∈ levels, l.WellFormed) (partition : Bytes)
    (range : ClusteringRange) :
    YieldsKept levels partition range (scanBy merge (levels.map (·.source)) partition range) := by
  let streams : List (List RowResult) :=
    (levels.map (·.fragments partition range)).map fun rows => rows.map .ok
  have hstreams : ∀ item ∈ merge streams,
      ∃ row, item = .ok row ∧ InRange levels partition range row.key := by
    intro item hitem
    obtain ⟨items, hitems, hitem⟩ := List.mem_flatten.mp (hmerge _ item hitem)
    obtain ⟨_, hfragments, rfl⟩ := List.mem_map.mp hitems
    obtain ⟨l, hl, rfl⟩ := List.mem_map.mp hfragments
    obtain ⟨row, hrow, rfl⟩ := List.mem_map.mp hitem
    obtain ⟨hget, hpart, hin⟩ := (hlevels l hl).mem_fragments_iff.mp hrow
    exact ⟨row, rfl, hpart, hin, l, hl, by rw [hget]; rfl⟩
  -- A joined row has the key of the two that it is made of.
  have hjoined := Scan.forall_coalesce (fun x y joined hx hy hjoin => by
    obtain ⟨a, rfl, ha⟩ := hx
    obtain ⟨b, rfl, -⟩ := hy
    obtain ⟨row, hrow, rfl⟩ := RowResult.merge_of_join? hjoin
    obtain ⟨-, rfl⟩ := Row.merge_eq_ok_iff.mp hrow
    exact ⟨a.join b, rfl, ha⟩) hstreams
  obtain ⟨rows, hrows, hkeys⟩ := exists_rows_of_forall_ok hjoined
  rw [scanBy_levels, hrows, List.map_map]
  refine ⟨rows.map fun row => row.shadow (((levels.map (·.covering partition)).foldl Covering.union
    .empty).deletion? row.key.clustering), by rw [List.map_map]; rfl, fun row hrow => ?_⟩
  obtain ⟨r, hr, rfl⟩ := List.mem_map.mp hrow
  exact ⟨r.key, Row.keptUnder_iff.mpr ⟨rfl, Row.canonical_shadow _ _⟩, hkeys r hr⟩

end Compaction

/-- Stores take every sequence of writes. Levels and view tables then hold a row for each key that
    was written, as it may be kept under this key. Point reads and scans of such levels go through
    and give such rows again, whichever order a merge of streams takes; where a scan joins two rows,
    the check of their keys passes. -/
theorem rows_keptUnder :
    (∀ h : History, ∃ l, h.foldlM Level.apply ∅ = .ok l ∧
      (∀ key, (l.fragment? key).isSome ↔ h.Writes key) ∧
      ∀ key row, l.fragment? key = some row → row.KeptUnder key) ∧
    (∀ (v : View) (intents : List Intent), ∃ t, intents.foldlM ViewTable.apply (.new v) = .ok t ∧
      (∀ id, (t.stored? id).isSome ↔ ∃ i ∈ intents, i.row = id) ∧
      ∀ id row, t.stored? id = some row → row.KeptUnder id.base) ∧
    (∀ levels : List Level, (∀ l ∈ levels, l.Reachable) →
      (∀ key, ∃ row, Compaction.read (levels.map (·.source)) key = .ok row ∧ row.KeptUnder key) ∧
      ∀ partition range,
        Compaction.YieldsKept levels partition range
          (Compaction.scan (levels.map (·.source)) partition range) ∧
        ∀ merge, Scan.AddsNothing merge → Compaction.YieldsKept levels partition range
          (Compaction.scanBy merge (levels.map (·.source)) partition range)) ∧
    ∀ (a b : Row) (joined : RowResult), RowResult.join? (.ok a) (.ok b) = some joined →
      ∃ row, a.merge b = .ok row ∧ joined = .ok row := by
  refine ⟨fun h => ?_, fun v intents => ?_, fun levels hlevels => ?_, fun a b joined =>
    RowResult.merge_of_join?⟩
  · obtain ⟨l, hfold, hl⟩ := Level.represents_empty.foldlM h
    exact ⟨l, hfold, hl.fragment?_isSome_iff,
      fun key row hrow => Row.keptUnder_iff.mpr (hl.wellFormed key row hrow)⟩
  · obtain ⟨t, hfold, ht⟩ := ViewTable.receives_of_wellFormed (ViewTable.wellFormed_new v) intents
    refine ⟨t, hfold, fun id => ?_, fun id row hrow => ?_⟩
    · rw [ht.isSome]
      exact or_iff_right Bool.false_ne_true
    · exact Row.keptUnder_iff.mpr (ht.wellFormed id row hrow)
  · have hwf : ∀ l ∈ levels, l.WellFormed := fun l hl => (hlevels l hl).wellFormed
    refine ⟨fun key => ?_, fun partition range => ⟨?_, fun merge hmerge => ?_⟩⟩
    · exact Compaction.exists_read_of_wellFormed hwf key
    · exact Compaction.yieldsKept_scanBy (Scan.addsNothing_merge _) hwf partition range
    · exact Compaction.yieldsKept_scanBy hmerge hwf partition range

section Orders

/-- An order with a note from before its own deletion. -/
def notedOrder : Row :=
  ⟨.ofPartition [0], some (.live 6 none), some ⟨5⟩, SortedMap.ofList [("note", .new 4 [1])]⟩

/-- A later note on the order. -/
def correctedNote : Row := (Row.empty notedOrder.key).withCell "note" (.new 8 [2])

/-- A view of the notes on orders. -/
def orderNotes : View where
  name := "order_notes"
  schema := ⟨"orders", "id", none, SortedSet.ofList ["note"]⟩
  selected := SortedSet.ofList ["note"]
  promoted := none
  isRegular_of_selected _ hc := hc
  isRegular_of_promoted _ hc := by cases hc
  not_selected_of_promoted _ hc := by cases hc

/-- The order as a change to its view row. -/
def orderChange : Intent :=
  .upsert ⟨notedOrder.key, none⟩ notedOrder.marker notedOrder.deletion notedOrder.cells

/-- A level and a view table keep the order otherwise than it was written, and two levels that share
    the writes to it can be read. -/
theorem rows_keptUnder_of_notedOrder :
    ∃ (first second : Level) (table : ViewTable) (joined row : Row),
    [Mutation.row notedOrder].foldlM Level.apply ∅ = .ok first ∧
    first.fragment? notedOrder.key ≠ some notedOrder ∧
    [Mutation.deletePartition [0] ⟨7⟩, .row correctedNote].foldlM Level.apply ∅ = .ok second ∧
    [orderChange].foldlM ViewTable.apply (.new orderNotes) = .ok table ∧
    table.stored? orderChange.row ≠ some notedOrder ∧
    notedOrder.merge correctedNote = .ok joined ∧
    Compaction.read ([first, second].map (·.source)) notedOrder.key = .ok row ∧
    row.KeptUnder notedOrder.key ∧
    Compaction.YieldsKept [first, second] [0] .full
      (Compaction.scanBy (Scan.merge RowResult.precedes) ([first, second].map (·.source)) [0]
        .full) := by
  obtain ⟨hlevels, htables, hreads, hjoins⟩ := rows_keptUnder
  have hnoted : ¬ notedOrder.KeptUnder notedOrder.key := fun h =>
    absurd (h.cell_later ⟨5⟩ "note" (.new 4 [1]) rfl rfl) (by decide)
  obtain ⟨first, hfirst, -, hkept⟩ := hlevels [.row notedOrder]
  obtain ⟨second, hsecond, -, -⟩ := hlevels [.deletePartition [0] ⟨7⟩, .row correctedNote]
  obtain ⟨table, htable, -, hstored⟩ := htables orderNotes [orderChange]
  obtain ⟨joined, hjoined, -⟩ := hjoins notedOrder correctedNote _ rfl
  obtain ⟨hread, hscan⟩ := hreads [first, second] fun l hl => by
    rcases List.mem_pair.mp hl with rfl | rfl
    · exact ⟨_, hfirst⟩
    · exact ⟨_, hsecond⟩
  obtain ⟨row, hrow, hkeptRow⟩ := hread notedOrder.key
  exact ⟨first, second, table, joined, row, hfirst, fun h => hnoted (hkept _ _ h), hsecond, htable,
    fun h => hnoted (hstored _ _ h), hjoined, hrow, hkeptRow,
    (hscan [0] .full).2 _ (Scan.addsNothing_merge _)⟩

end Orders

end ViewMaintenance
