import ViewMaintenance.Proofs.View.Promotion

namespace ViewMaintenance

open Write

/-- The base row left a view row because its promoted column was written at a time. -/
def Passage.Withdraws (v : View) (p : String) (id : ViewKey) (time : Timestamp) (q : Passage) : Prop :=
  v.rowKey? q.before q.now = some id ∧ v.rowKey? q.after q.now ≠ some id ∧
    ∃ c, q.after.cell? p = some c ∧ c.timestamp = time

namespace Row

/-- A merge keeps a marker, or one that is no less, unless its deletion reaches the marker. -/
theorem le_marker_join {a b : Row} {m : Marker} (h : a.marker = some m ∨ b.marker = some m) :
    Deletion.covers (a.join b).deletion m.timestamp = true ∨
      ∃ m', (a.join b).marker = some m' ∧ (compare m m').isLE := by
  obtain ⟨m', hlatest, hle⟩ : ∃ m', latest? a.marker b.marker = some m' ∧ (compare m m').isLE := by
    have hself : (compare m m).isLE := Std.ReflCmp.isLE_rfl
    have hle (x y : Marker) : (compare x (latest x y)).isLE := by
      rw [← latest_eq_right_iff, ← latest_assoc, latest_self]
    rcases h with h | h
    · cases hb : b.marker with
      | none => exact ⟨m, by rw [h, latest?_none_right], hself⟩
      | some y => exact ⟨latest m y, by rw [h, latest?_some_some], hle m y⟩
    · cases ha : a.marker with
      | none => exact ⟨m, by rw [h, latest?_none_left], hself⟩
      | some y => exact ⟨latest m y, by rw [h, latest?_some_some, latest_comm], hle m y⟩
  cases hcovers : Deletion.covers (latest? a.deletion b.deletion) m'.timestamp with
  | true =>
    have htime : m.timestamp ≤ m'.timestamp := time_le_of_isLE (α := Marker) hle
    exact .inl (Deletion.covers_of_le htime hcovers)
  | false => exact .inr ⟨m', surviving_eq_some.mpr ⟨hlatest, hcovers⟩, hle⟩

theorem covers_join {a b : Row} {time : Timestamp} (h : Deletion.covers a.deletion time = true) :
    Deletion.covers (a.join b).deletion time = true :=
  (Deletion.covers_latest? a.deletion b.deletion time).mpr (.inl h)

/-- The fragment that holds one cell. -/
def ofCell (key : RowKey) (column : String) (cell : Cell) : Row := (empty key).withCell column cell

theorem cell?_ofCell (key : RowKey) (column : String) (cell : Cell) (c : String) :
    (ofCell key column cell).cell? c = if column = c then some cell else none :=
  SortedMap.get?_insert_eq_ite (∅ : SortedMap String Cell) column cell c

theorem Canonical.absorbs_ofCell {r : Row} (h : r.Canonical) {column : String} {cell : Cell}
    (hcell : r.cell? column = some cell) (key : RowKey) : r.Absorbs (ofCell key column cell) := by
  refine absorbs_of_places (latest?_none_left _) ?_ fun c => ?_
  · exact (congrArg _ (latest?_none_right _)).trans h.marker
  · rw [cell?_ofCell]
    split
    next heq =>
      subst heq
      rw [hcell, latest?_self, ← hcell]
      exact h.cell? column
    next => rw [latest?_none_right, h.cell? c]

/-- Of the cell that a row holds and one that it absorbs, the one that it holds is the later. -/
theorem Absorbs.latest_of_ofCell {r : Row} {key : RowKey} {column : String} {x c : Cell}
    (h : r.Absorbs (ofCell key column x)) (hc : r.cell? column = some c) : latest x c = c := by
  have hslot := h.cell? column
  rw [cell?_ofCell, if_pos rfl, hc] at hslot
  exact Option.some.inj (latest?_eq_of_absorbed hslot)

end Row

theorem Intent.le_marker_written (intents : List Intent) (id : ViewKey) {r : Row} {m : Marker}
    (h : Deletion.covers r.deletion m.timestamp = true ∨
      ∃ m', r.marker = some m' ∧ (compare m m').isLE) :
    Deletion.covers (written intents id r).deletion m.timestamp = true ∨
      ∃ m', (written intents id r).marker = some m' ∧ (compare m m').isLE := by
  induction intents generalizing r with
  | nil => exact h
  | cons i intents ih =>
    rw [written_cons]
    refine ih ?_
    split
    · rcases h with hcovers | ⟨m', hm', hle⟩
      · exact .inl (Row.covers_join hcovers)
      · have htime : m.timestamp ≤ m'.timestamp := time_le_of_isLE (α := Marker) hle
        refine (Row.le_marker_join (.inl hm')).imp (Deletion.covers_of_le htime) ?_
        rintro ⟨m'', hm'', hle'⟩
        exact ⟨m'', hm'', Std.TransCmp.isLE_trans hle hle'⟩
    · exact h

namespace View

variable {v : View} {p : String}

theorem not_isLE_withdrawn {c : Cell} {m : Marker} (hm : m = c.marker) :
    ¬ (compare (Marker.withdrawn c.timestamp) m).isLE := by
  intro hle
  have hge : (compare c.marker (Marker.withdrawn c.timestamp)).isLE :=
    isLE_removal (α := Marker) (Int64.le_refl _)
  rw [hm] at hle
  have heq := Std.LawfulEqCmp.eq_of_compare (Std.OrientedCmp.isLE_antisymm hle hge)
  cases heq

/-- Where the marker of a view row comes from: a cell that the promoted column of the base row
    absorbs, written as its marker or as a withdrawal at its time. -/
def MarkerSource (v : View) (p : String) (passages : List Passage) (row : Row) (id : ViewKey)
    (m : Marker) : Prop :=
  ∃ x : Cell, row.Absorbs (.ofCell row.key p x) ∧
    (x.isTombstone = false ∧ m = x.marker ∨
      m = .withdrawn x.timestamp ∧ ∃ q ∈ passages, q.Withdraws v p id x.timestamp)

section Run

variable {key : RowKey} {passages : List Passage} {row before after : Row}
  {stored : Option Bytes → Row} {t now : Timestamp} {promoted : Option Bytes} {id : ViewKey}
  {m : Marker} {intents : List Intent} (hp : v.promoted = some p)

theorem MarkerSource.step (h : v.MarkerSource p passages before id m)
    (ht : v.Transition now before after intents) (q : Passage) :
    v.MarkerSource p (passages ++ [q]) after id m := by
  obtain ⟨x, habsorbs, hx⟩ := h
  refine ⟨x, ?_, hx.imp_right fun ⟨hm, w, hw, hwithdraws⟩ =>
    ⟨hm, w, List.mem_append_left _ hw, hwithdraws⟩⟩
  rw [ht.key_eq]
  exact ht.absorbs.trans habsorbs ht.key_eq

theorem Evolution.deletion_stored (h : v.Evolution key passages row stored)
    (promoted : Option Bytes) :
    latest? (stored promoted).deletion row.deletion = row.deletion :=
  (h.absorbs promoted).deletion

include hp

theorem markerSource_of_marker? {r : Row} (hr : r.Canonical) (hm : v.marker? r = some m) :
    v.MarkerSource p passages r id m := by
  obtain ⟨c, hc, hvalue, rfl⟩ := (marker?_eq_some_iff hp).mp hm
  exact ⟨c, hr.absorbs_ofCell hc r.key, .inl ⟨hvalue, rfl⟩⟩

/-- What a transition adds to the markers of a view row has its source in the transition. -/
theorem Transition.markerSource (h : v.Transition now before after intents) {stored : Row}
    (hstored : stored.Canonical) (hm : (Intent.written intents id stored).marker = some m) :
    stored.marker = some m ∨ v.MarkerSource p (passages ++ [⟨now, before, after⟩]) after id m := by
  have hbefore := h.canonical_before
  have hafter := h.canonical_after
  have habsorbs := h.absorbs
  have houtcome := h.outcome id hstored
  clear h
  generalize Intent.written intents id stored = stored' at houtcome hm
  cases houtcome with
  | untouched | absent => exact .inl hm
  | entered =>
    rcases latest?_eq_some (Row.latest?_marker_of_join hm) with hold | hnew
    · exact .inl hold
    · exact .inr (markerSource_of_marker? hp hafter hnew)
  | @stayed d hnow hb ha =>
    subst hnow
    rcases latest?_eq_some (Row.latest?_marker_of_join hm) with hold | hnew
    · exact .inl hold
    · rcases scopedMarker?_cases hp hb ha with hscoped | ⟨hscoped, _⟩
      · have hmarker : v.marker? d.after = some m := hscoped.symm.trans hnew
        exact .inr (markerSource_of_marker? hp hafter hmarker)
      · have hnone : none = some m := hscoped.symm.trans hnew
        cases hnone
  | @left d hnow hb ha =>
    subst hnow
    obtain ⟨change, hchange⟩ := exists_change hp hb ha
    rw [written_retraction_of_promoted hp hstored, hchange] at hm
    simp only at hm
    split at hm
    · exact .inl (Row.marker_of_join_ofDeletion hm).1
    next hnot =>
      rcases latest?_eq_some (Row.latest?_marker_of_join hm) with hold | hnew
      · exact .inl (Row.marker_of_join_ofDeletion hold).1
      · obtain ⟨a, hcell, htime⟩ :=
          Delta.exists_cell_of_not_covers hbefore habsorbs hchange (by simpa using hnot)
        have hm' : m = .withdrawn a.timestamp := by
          rw [htime]
          exact (Option.some.inj hnew).symm
        have hmem : ⟨d.now, d.before, d.after⟩ ∈ passages ++ [⟨d.now, d.before, d.after⟩] :=
          List.mem_append_right _ List.mem_cons_self
        exact .inr ⟨a, hafter.absorbs_ofCell hcell _, .inr ⟨hm', _, hmem, hb, ha, a, hcell, rfl⟩⟩
  | covered => exact .inl (Row.marker_of_join_ofDeletion hm).1

/-- In every run the marker of a view row has a source. -/
theorem Evolution.markerSource (h : v.Evolution key passages row stored)
    (hm : (stored promoted).marker = some m) :
    v.MarkerSource p passages row ⟨key, promoted⟩ m := by
  induction h generalizing m with
  | start => cases hm
  | step h ht ih =>
    rcases ht.markerSource hp (h.canonical_stored promoted) hm with hold | hnew
    · exact (ih hold).step ht _
    · exact hnew

/-- A view row that the base row maps to has a marker no less than that of the promoted cell. -/
theorem Outcome.le_marker {stored stored' : Row} {c : Cell}
    (h : v.Outcome now id stored before after stored') (hle : now ≤ t)
    (hafter : after.Canonical) (hreached : latest? stored'.deletion after.deletion = after.deletion)
    (hinv : ∀ c, v.rowKey? before t = some id → before.cell? p = some c →
      ∃ m, stored.marker = some m ∧ (compare c.marker m).isLE)
    (hkey : after.key = before.key) (hid : v.rowKey? after t = some id)
    (hc : after.cell? p = some c) :
    ∃ m, stored'.marker = some m ∧ (compare c.marker m).isLE := by
  have hnow : v.rowKey? after now = some id := rowKey?_of_le hle hid
  -- No deletion of the view row reaches the promoted cell, since none of the base row does.
  have hkept {m : Marker} (hm : (compare c.marker m).isLE) :
      ¬ Deletion.covers stored'.deletion m.timestamp = true := by
    intro hcovers
    have htime : c.marker.timestamp ≤ m.timestamp := time_le_of_isLE (α := Marker) hm
    rw [Cell.timestamp_marker] at htime
    have hcell := Deletion.covers_of_absorbed hreached (Deletion.covers_of_le htime hcovers)
    rw [hafter.not_covers_cell hc] at hcell
    cases hcell
  have hjoin {f : Row} {m : Marker} (hm : (compare c.marker m).isLE)
      (hstored' : stored' = stored.join f) (hor : stored.marker = some m ∨ f.marker = some m) :
      ∃ m, stored'.marker = some m ∧ (compare c.marker m).isLE := by
    rcases Row.le_marker_join hor with hcovers | ⟨m', hm', hle'⟩
    · rw [← hstored'] at hcovers
      exact absurd hcovers (hkept hm)
    · rw [← hstored'] at hm'
      exact ⟨m', hm', Std.TransCmp.isLE_trans hm hle'⟩
  have hself : (compare c.marker c.marker).isLE := Std.ReflCmp.isLE_rfl
  obtain ⟨x, hx, hlive, _⟩ := (rowKey?_eq_some_iff hp).mp hid
  obtain rfl : c = x := Option.some.inj (hc.symm.trans hx)
  have hmarker : v.marker? after = some c.marker :=
    (marker?_eq_some_iff hp).mpr ⟨c, hc, Cell.isTombstone_of_isLive hlive, rfl⟩
  cases h with
  | untouched => exact hinv c hid hc
  | absent _ ha => exact absurd hnow ha
  | entered => exact hjoin hself rfl (.inr hmarker)
  | @stayed d hd hb ha =>
    subst hd
    rcases scopedMarker?_cases hp hb ha with hscoped | ⟨_, hsame⟩
    · exact hjoin hself rfl (.inr (hscoped.trans hmarker))
    · have hold : d.before.cell? p = some c := hsame.symm.trans hc
      obtain ⟨y, hy, _, hkeys⟩ := (rowKey?_eq_some_iff hp).mp hb
      obtain rfl : c = y := Option.some.inj (hold.symm.trans hy)
      obtain ⟨m, hm, hle'⟩ := hinv c ((rowKey?_eq_some_iff hp).mpr ⟨c, hold, hlive, hkeys⟩) hold
      exact hjoin hle' rfl (.inl hm)
  | left _ _ ha => exact absurd hnow ha
  | @covered _ x hb =>
    have hold : before.cell? p = some c := by
      rw [Row.cell?_shadow] at hc
      exact (Option.filter_eq_some_iff.mp hc).1
    obtain ⟨m, hm, hle'⟩ := hinv c (rowKey?_of_shadow hid) hold
    exact hjoin hle' rfl (.inl hm)

/-- In every run a view row that the base row maps to has a marker no less than that of the promoted
    cell. -/
theorem Evolution.le_marker (h : v.Evolution key passages row stored)
    (ht : ∀ q ∈ passages, q.now ≤ t) {c : Cell} (hid : v.rowKey? row t = some ⟨key, promoted⟩)
    (hc : row.cell? p = some c) :
    ∃ m, (stored promoted).marker = some m ∧ (compare c.marker m).isLE := by
  induction h generalizing c with
  | start => cases hc
  | @step passages before stored now after intents h hstep ih =>
    have hle : now ≤ t := ht ⟨now, before, after⟩ (List.mem_append_right _ List.mem_cons_self)
    have hinv := fun c => @ih (fun q hq => ht q (List.mem_append_left _ hq)) c
    have hreached := (h.step hstep).deletion_stored promoted
    have houtcome := hstep.outcome ⟨key, promoted⟩ (h.canonical_stored promoted)
    exact houtcome.le_marker hp hle hstep.canonical_after hreached hinv hstep.key_eq hid hc

/-- A transition that withdraws a view row writes the withdrawal to it. -/
theorem Transition.withdraws (h : v.Transition now before after intents) {stored : Row}
    (hstored : stored.Canonical) {time : Timestamp}
    (hwithdraws : Passage.Withdraws v p id time ⟨now, before, after⟩) :
    Deletion.covers (Intent.written intents id stored).deletion time = true ∨
      ∃ m, (Intent.written intents id stored).marker = some m ∧
        (compare (Marker.withdrawn time) m).isLE := by
  obtain ⟨hb, ha, a, hcell, rfl⟩ := hwithdraws
  have hcanonical := h.canonical_after
  have habsorbs := h.absorbs
  have houtcome := h.outcome id hstored
  clear h
  generalize Intent.written intents id stored = stored' at houtcome ⊢
  cases houtcome with
  | untouched => exact absurd hb ha
  | absent hnot => exact absurd hb hnot
  | entered hnot => exact absurd hb hnot
  | stayed _ _ hafter => exact absurd hafter ha
  | @left d hnow =>
    subst hnow
    obtain ⟨change, hchange⟩ := exists_change hp hb ha
    have htime : change.time = a.timestamp := by
      rcases Delta.column?_time habsorbs hchange with ⟨a', ha', htime⟩ | ⟨hnone, _⟩
      · rw [htime, Option.some.inj (ha'.symm.trans hcell)]
      · rw [hnone] at hcell
        cases hcell
    have hnot : Deletion.covers d.newDeletion? a.timestamp = false := by
      rcases d.newDeletion?_eq with hnone | hnew
      · rw [hnone, Deletion.covers_none]
      · rw [hnew]
        exact hcanonical.not_covers_cell hcell
    rw [written_retraction_of_promoted hp hstored, hchange]
    simp only [hnot, htime, Bool.false_eq_true, if_false]
    exact Row.le_marker_join (m := .withdrawn a.timestamp) (.inr rfl)
  | @covered _ x _ =>
    -- The promoted cell that is left after the deletion is the one before it.
    obtain ⟨c, hc, hlive, hid⟩ := (rowKey?_eq_some_iff hp).mp hb
    have hold : before.cell? p = some a := by
      rw [Row.cell?_shadow] at hcell
      exact (Option.filter_eq_some_iff.mp hcell).1
    obtain rfl : c = a := Option.some.inj (hc.symm.trans hold)
    exact absurd ((rowKey?_eq_some_iff hp).mpr ⟨c, hcell, hlive, hid⟩) ha

/-- In every run a withdrawal stays in the view row, unless the base row has been deleted up to it. -/
theorem Evolution.le_marker_of_withdraws (h : v.Evolution key passages row stored) {q : Passage}
    (hq : q ∈ passages) {time : Timestamp} (hwithdraws : q.Withdraws v p ⟨key, promoted⟩ time) :
    Deletion.covers row.deletion time = true ∨
      ∃ m, (stored promoted).marker = some m ∧ (compare (Marker.withdrawn time) m).isLE := by
  induction h with
  | start => cases hq
  | @step passages before stored now after intents h hstep ih =>
    have hreached := (h.step hstep).deletion_stored promoted
    have hor : Deletion.covers before.deletion time = true ∨
        Deletion.covers (Intent.written intents ⟨key, promoted⟩ (stored promoted)).deletion time = true ∨
          ∃ m, (Intent.written intents ⟨key, promoted⟩ (stored promoted)).marker = some m ∧
            (compare (Marker.withdrawn time) m).isLE := by
      rcases List.mem_append.mp hq with hold | hnew
      · refine (ih hold).imp_right fun hmarker => ?_
        exact Intent.le_marker_written intents _ (m := .withdrawn time) (.inr hmarker)
      · obtain rfl := List.mem_singleton.mp hnew
        exact .inr (hstep.withdraws hp (h.canonical_stored promoted) hwithdraws)
    rcases hor with hcovers | hcovers | hmarker
    · exact .inl (Deletion.covers_of_absorbed hstep.absorbs.deletion hcovers)
    · exact .inl (Deletion.covers_of_absorbed hreached hcovers)
    · exact .inr hmarker

/-- While the base row maps to a view row, this view row has no live marker exactly if it was
    withdrawn at the time of the promoted cell, since a withdrawal beats every marker of its own
    time. -/
theorem Evolution.isSome_marker_iff (h : v.Evolution key passages row stored)
    (ht : ∀ q ∈ passages, q.now ≤ t) {c : Cell} (hid : v.rowKey? row t = some ⟨key, promoted⟩)
    (hc : row.cell? p = some c) : (live t (stored promoted).marker).isSome ↔
      ¬ ∃ q ∈ passages, q.Withdraws v p ⟨key, promoted⟩ c.timestamp := by
  obtain ⟨x, hx, hclive, _⟩ := (rowKey?_eq_some_iff hp).mp hid
  obtain rfl : c = x := Option.some.inj (hc.symm.trans hx)
  have hvalue := Cell.isTombstone_of_isLive hclive
  have hrow := h.canonical_row
  constructor
  · rintro hlive ⟨q, hq, hwithdraws⟩
    obtain ⟨m, hm⟩ := Option.isSome_iff_exists.mp hlive
    obtain ⟨hstored, hmlive⟩ := live_eq_some.mp hm
    obtain ⟨c', hc', _, hm'⟩ := (marker?_eq_some_iff hp).mp (h.marker_of_isLive hp ht hstored hmlive).2
    obtain rfl : c = c' := Option.some.inj (hc.symm.trans hc')
    rcases h.le_marker_of_withdraws hp hq hwithdraws with hcovers | ⟨w, hw, hle⟩
    · rw [hrow.not_covers_cell hc] at hcovers
      cases hcovers
    · obtain rfl : m = w := Option.some.inj (hstored.symm.trans hw)
      exact not_isLE_withdrawn hm' hle
  · intro hnone
    obtain ⟨m, hm, hle⟩ := h.le_marker hp ht hid hc
    obtain ⟨y, habsorbs, hsource⟩ := h.markerSource hp hm
    have hwins : latest y c = c := habsorbs.latest_of_ofCell hc
    have htime : y.timestamp ≤ c.timestamp := time_le_of_latest (α := Cell) hwins
    have hge : c.marker.timestamp ≤ m.timestamp := time_le_of_isLE (α := Marker) hle
    rw [Cell.timestamp_marker] at hge
    rcases hsource with ⟨hyvalue, rfl⟩ | ⟨rfl, q, hq, hwithdraws⟩
    · have hle' : (compare y.marker c.marker).isLE :=
        Cell.isLE_marker (latest_eq_right_iff.mp hwins) hyvalue hvalue
      have heq : y.marker = c.marker :=
        Std.LawfulEqCmp.eq_of_compare (Std.OrientedCmp.isLE_antisymm hle' hle)
      have hlive : live t (stored promoted).marker = some c.marker := by
        rw [live_eq_some, hm, heq]
        exact ⟨rfl, (Cell.isLive_marker hvalue t).trans hclive⟩
      rw [hlive]
      rfl
    · have hsame : y.timestamp = c.timestamp := Int64.le_antisymm htime hge
      rw [hsame] at hwithdraws
      exact absurd ⟨q, hq, hwithdraws⟩ hnone

end Run

end View

end ViewMaintenance
