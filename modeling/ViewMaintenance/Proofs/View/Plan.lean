import ViewMaintenance.Proofs.Store.Compaction
import ViewMaintenance.Proofs.View.Transition

namespace ViewMaintenance

namespace Mutation

/-- The range that is scanned for a deletion, with the deletion. -/
def scan? : Mutation → Option (Bytes × ClusteringRange × Deletion)
  | row _ => none
  | deleteRange partition range deletion => some (partition, range, deletion)
  | deletePartition partition deletion => some (partition, .full, deletion)

theorem coveringOf?_of_scan? {m : Mutation} {partition : Bytes} {range : ClusteringRange}
    {x : Deletion} (h : m.scan? = some (partition, range, x)) (key : RowKey) :
    m.coveringOf? key =
      if partition = key.partition ∧ range.contains key.clustering then some x else none := by
  cases m with
  | row f => cases h
  | deleteRange =>
    cases h
    rfl
  | deletePartition =>
    cases h
    have hfull (c : Bytes) : ClusteringRange.full.contains c = true := rfl
    simp [coveringOf?, hfull]

theorem fragmentOf?_of_scan? {m : Mutation} (h : m.scan?.isSome) (key : RowKey) :
    m.fragmentOf? key = none := by
  cases m with
  | row f => cases h
  | deleteRange | deletePartition => rfl

end Mutation

/-- A deletion of a range shadows the rows of the range, and no others. -/
theorem History.row_append_of_scan? {h : History} {m : Mutation} {partition : Bytes}
    {range : ClusteringRange} {x : Deletion} (hm : m.scan? = some (partition, range, x)) (key : RowKey) :
    History.row (h ++ [m]) key =
      if key.partition = partition ∧ range.contains key.clustering then (h.row key).shadow (some x)
      else h.row key := by
  have hscan : m.scan?.isSome := by
    rw [hm]
    rfl
  rw [row_append_of_no_fragment (Mutation.fragmentOf?_of_scan? hscan key),
    Mutation.coveringOf?_of_scan? hm]
  simp only [eq_comm (a := key.partition)]
  split
  · rfl
  · rw [Row.shadow, latest?_none_right]
    exact canonical_row h key

namespace View

/-- What a view plans for a mutation of a base table that has a history. -/
inductive Plans (v : View) (h : History) (now : Timestamp) : Mutation → List Intent → Prop
  | row {f : Row} {d : Delta} {intents : List Intent} (hbefore : d.before = h.row f.key)
      (hafter : d.after = (h.row f.key).join f) (hnow : d.now = now)
      (hintents : v.rowIntents d = .ok intents) : Plans v h now (.row f) intents
  | deletion {m : Mutation} {partition : Bytes} {range : ClusteringRange} {x : Deletion}
      {rows : List Row} {intents : List Intent} (hm : m.scan? = some (partition, range, x))
      (hsorted : rows.Pairwise fun a b => compare a.key b.key = .lt)
      (hkeys : ∀ key, (∃ row ∈ rows, row.key = key) ↔
        key.partition = partition ∧ range.contains key.clustering ∧ h.Writes key)
      (hrows : ∀ row ∈ rows, row = h.row row.key)
      (hintents : v.deletionIntents rows x now = .ok intents) : Plans v h now m intents

theorem rowIntents_eq_ok {v : View} {d : Delta} {intents : List Intent}
    (h : v.rowIntents d = .ok intents) : v.unknownColumn? d.after = none ∧
      intents = v.intents (v.rowKey? d.before d.now) (v.rowKey? d.after d.now) d := by
  unfold rowIntents at h
  split at h
  · cases h
  next hnone =>
    exact ⟨(Option.or_eq_none_iff.mp hnone).2, (Except.ok.inj h).symm⟩

theorem deletionIntents_eq_ok {v : View} {rows : List Row} {x : Deletion} {now : Timestamp}
    {intents : List Intent} (h : v.deletionIntents rows x now = .ok intents) :
    intents = (rows.filterMap (v.rowKey? · now)).map fun row =>
      .deleteRow row x.markedAt .regular := by
  unfold deletionIntents at h
  split at h
  · cases h
  · exact (Except.ok.inj h).symm

theorem base_of_mem_intents {v : View} {d : Delta} {i : Intent}
    (h : i ∈ v.intents (v.rowKey? d.before d.now) (v.rowKey? d.after d.now) d) :
    i.row.base = d.after.key :=
  (row_of_mem_intents h).elim (fun hid => (base_of_rowKey? hid).trans d.key_eq) base_of_rowKey?

/-- The deletion of the view rows of many base rows. -/
def deletions (v : View) (rows : List Row) (x : Deletion) (now : Timestamp) : List Intent :=
  (rows.filterMap (v.rowKey? · now)).map fun row => .deleteRow row x.markedAt .regular

theorem written_deletions_eq_filter (v : View) (rows : List Row) (x : Deletion) (now : Timestamp)
    (id : ViewKey) (stored : Row) :
    Intent.written (v.deletions rows x now) id stored =
      Intent.written (v.deletions (rows.filter (·.key = id.base)) x now) id stored := by
  induction rows generalizing stored with
  | nil => rfl
  | cons row rows ih =>
    have hcons (rows : List Row) : v.deletions (row :: rows) x now =
        (v.rowKey? row now).toList.map (.deleteRow · x.markedAt .regular) ++
          v.deletions rows x now := by
      cases hid : v.rowKey? row now <;> simp [deletions, hid]
    by_cases hkey : row.key = id.base
    · rw [List.filter_cons_of_pos (by simpa using hkey), hcons, hcons, Intent.written_append,
        Intent.written_append, ih]
    · have hskip : Intent.written ((v.rowKey? row now).toList.map
          (.deleteRow · x.markedAt .regular)) id stored = stored := by
        refine Intent.written_of_forall_ne (fun i hi => ?_) stored
        obtain ⟨other, hother, rfl⟩ := List.mem_map.mp hi
        rintro rfl
        exact hkey (base_of_rowKey? (Option.mem_toList.mp hother)).symm
      rw [List.filter_cons_of_neg (by simpa using hkey), hcons, Intent.written_append, hskip, ih]

/-- Of the view rows of one base row, the deletion of many rows deletes the one that it maps to. -/
theorem written_deletions_of_mem {v : View} {rows : List Row}
    (hsorted : rows.Pairwise fun a b => compare a.key b.key = .lt) {row : Row} (hrow : row ∈ rows)
    (x : Deletion) (now : Timestamp) (promoted : Option Bytes) (stored : Row) :
    Intent.written (v.deletions rows x now) ⟨row.key, promoted⟩ stored =
      Intent.written ((v.rowKey? row now).toList.map (.deleteRow · x.markedAt .regular))
        ⟨row.key, promoted⟩ stored := by
  rw [written_deletions_eq_filter, Compaction.filter_key_of_pairwise hsorted hrow]
  cases hid : v.rowKey? row now <;> simp [deletions, hid]

theorem written_deletions_of_not_mem {v : View} {rows : List Row} {id : ViewKey}
    (hnone : ¬ ∃ row ∈ rows, row.key = id.base) (x : Deletion) (now : Timestamp) (stored : Row) :
    Intent.written (v.deletions rows x now) id stored = stored := by
  have hfilter : rows.filter (·.key = id.base) = [] :=
    List.filter_eq_nil_iff.mpr fun row hrow hkey => hnone ⟨row, hrow, by simpa using hkey⟩
  rw [written_deletions_eq_filter, hfilter]
  rfl

theorem rowKey?_ofDeletion (v : View) (key : RowKey) (d : Option Deletion) (now : Timestamp) :
    v.rowKey? (.ofDeletion key d) now = none := by
  cases hid : v.rowKey? (.ofDeletion key d) now with
  | none => rfl
  | some id =>
    cases hp : v.promoted with
    | some p =>
      obtain ⟨_, hcell, _⟩ := (rowKey?_eq_some_iff hp).mp hid
      cases hcell
    | none =>
      rw [rowKey?_of_not_isStrict (by simp [isStrict, hp])] at hid
      cases hid

/-- Seen from one base row, what a view plans is a transition. -/
theorem Plans.transition {v : View} {h : History} {now : Timestamp} {m : Mutation}
    {intents : List Intent} (hplans : v.Plans h now m intents) (key : RowKey) :
    ∃ own, v.Transition now (h.row key) (History.row (h ++ [m]) key) own ∧
      ∀ promoted stored, Intent.written intents ⟨key, promoted⟩ stored =
        Intent.written own ⟨key, promoted⟩ stored := by
  cases hplans with
  | @row f d _ hbefore hafter hnow hintents =>
    obtain ⟨hknown, rfl⟩ := rowIntents_eq_ok hintents
    by_cases hkey : f.key = key
    · subst hkey
      have hself : (Mutation.row f).fragmentOf? f.key = some f := by simp [Mutation.fragmentOf?]
      rw [History.row_append_of_fragment hself, ← hafter, ← hbefore]
      subst hnow
      have hcanonical : d.before.Canonical := by
        rw [hbefore]
        exact History.canonical_row h f.key
      have habsorbs : d.after.Absorbs d.before := by
        rw [hafter, ← hbefore]
        exact hcanonical.absorbs_self.join (by rw [hbefore, History.key_row]) rfl
      exact ⟨_, .merged d rfl hcanonical habsorbs hknown, fun _ _ => rfl⟩
    · have hnone : (Mutation.row f).touches key = false := by
        simp [Mutation.touches, Mutation.fragmentOf?, Mutation.coveringOf?, hkey]
      rw [History.row_append_of_not_touches hnone]
      refine ⟨[], .untouched (History.canonical_row h key), fun promoted stored => ?_⟩
      refine Intent.written_of_forall_ne (fun i hi hid => hkey ?_) stored
      have hbase := base_of_mem_intents hi
      rw [hid, hafter, Row.key_join, History.key_row] at hbase
      exact hbase.symm
  | @deletion _ partition range x rows _ hm hsorted hkeys hrows hintents =>
    have hscan : m.scan?.isSome := by
      rw [hm]
      rfl
    have hrow := History.row_append_of_no_fragment (h := h) (Mutation.fragmentOf?_of_scan? hscan key)
    rw [deletionIntents_eq_ok hintents, hrow, Mutation.coveringOf?_of_scan? hm]
    change ∃ own, _ ∧ ∀ promoted stored,
      Intent.written (v.deletions rows x now) ⟨key, promoted⟩ stored = _
    by_cases hmem : ∃ row ∈ rows, row.key = key
    · obtain ⟨hpart, hin, _⟩ := (hkeys key).mp hmem
      obtain ⟨row, hmem, rfl⟩ := hmem
      rw [if_pos ⟨hpart.symm, hin⟩, ← hrows row hmem]
      have hcanonical : row.Canonical := by
        rw [hrows row hmem]
        exact History.canonical_row h row.key
      exact ⟨_, .covered hcanonical x, fun promoted stored =>
        written_deletions_of_mem hsorted hmem x now promoted stored⟩
    · have hskip (promoted : Option Bytes) (stored : Row) :
          Intent.written (v.deletions rows x now) ⟨key, promoted⟩ stored = stored :=
        written_deletions_of_not_mem hmem x now stored
      split
      next hin =>
        have hw : ¬ h.Writes key := fun hw => hmem ((hkeys key).mpr ⟨hin.1.symm, hin.2, hw⟩)
        refine ⟨_, .covered (History.canonical_row h key) x, fun promoted stored => ?_⟩
        rw [hskip, History.row_of_not_writes hw, rowKey?_ofDeletion]
        rfl
      next =>
        refine ⟨[], ?_, hskip⟩
        have hsame : (h.row key).shadow none = h.row key := by
          rw [Row.shadow, latest?_none_right]
          exact History.canonical_row h key
        rw [hsame]
        exact .untouched (History.canonical_row h key)

end View

end ViewMaintenance
