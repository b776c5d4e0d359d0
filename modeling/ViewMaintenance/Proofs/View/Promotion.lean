import ViewMaintenance.Proofs.View.Evolution

namespace ViewMaintenance

open Write

/-- The marker of the view row that a promoted cell names. -/
def Cell.marker (c : Cell) : Marker := .live c.timestamp c.expiry

namespace Cell

@[simp]
theorem timestamp_marker (c : Cell) : c.marker.timestamp = c.timestamp := rfl

theorem isLive_marker {c : Cell} (hvalue : c.isTombstone = false) (t : Timestamp) :
    c.marker.isLive t = c.isLive t := by
  rw [isLive, hvalue]
  rfl

theorem isTombstone_of_isLive {c : Cell} {t : Timestamp} (h : c.isLive t = true) :
    c.isTombstone = false := by
  simp only [isLive, Bool.and_eq_true, Bool.not_eq_true'] at h
  exact h.1

/-- The later promoted cell has the later marker, since values decide between cells last. -/
theorem isLE_marker {a b : Cell} (h : (compare a b).isLE) (ha : a.isTombstone = false)
    (hb : b.isTombstone = false) : (compare a.marker b.marker).isLE := by
  rw [isLE_iff, ha, hb] at h
  change (compareLex _ _ a.marker b.marker).isLE
  simp only [compareLex, Ordering.isLE_then_iff_or, compareOn, Std.LawfulEqCmp.compare_eq_iff_eq]
  rcases h with hlt | ⟨htime, hflag | ⟨_, h⟩⟩
  · exact .inl hlt
  · simp at hflag
  · refine .inr ⟨htime, .inr ⟨rfl, ?_⟩⟩
    rcases h with hlt | ⟨hnone, hlt | ⟨hdeath, hlt | ⟨heq, _⟩⟩⟩
    · exact .inl hlt
    · exact .inr ⟨hnone, .inl hlt⟩
    · exact .inr ⟨hnone, .inr ⟨hdeath, Ordering.isLE_of_eq_lt hlt⟩⟩
    · exact .inr ⟨hnone, .inr ⟨hdeath,
        Ordering.isLE_of_eq_eq (Std.LawfulEqCmp.compare_eq_iff_eq.mpr heq)⟩⟩

end Cell

namespace View

variable {v : View} {p : String} (hp : v.promoted = some p)

section Cells

include hp

theorem isStrict_of_promoted : v.isStrict = true := by simp [isStrict, hp]

theorem marker?_eq_some_iff {r : Row} {m : Marker} : v.marker? r = some m ↔
    ∃ c, r.cell? p = some c ∧ c.isTombstone = false ∧ m = c.marker := by
  simp only [marker?, hp, Option.bind_eq_some_iff]
  refine exists_congr fun c => and_congr_right fun _ => ?_
  cases c.isTombstone <;> simp [Cell.marker, eq_comm]

/-- A base row maps to its view row as long as the marker that it gives is live. -/
theorem rowKey?_of_isLive_marker {r : Row} {now t : Timestamp} {id : ViewKey} {m : Marker}
    (hid : v.rowKey? r now = some id) (hm : v.marker? r = some m) (hlive : m.isLive t = true) :
    v.rowKey? r t = some id := by
  obtain ⟨c, hc, hvalue, rfl⟩ := (marker?_eq_some_iff hp).mp hm
  obtain ⟨x, hx, _, rfl⟩ := (rowKey?_eq_some_iff hp).mp hid
  obtain rfl : c = x := Option.some.inj (hc.symm.trans hx)
  rw [Cell.isLive_marker hvalue] at hlive
  exact (rowKey?_eq_some_iff hp).mpr ⟨c, hc, hlive, rfl⟩

theorem exists_promoted_of_rowKey? {r : Row} {now : Timestamp} {id : ViewKey}
    (hid : v.rowKey? r now = some id) : ∃ c, live now (r.cell? p) = some c ∧
      r.cell? p = some c ∧ c.isLive now = true ∧ id = ⟨r.key, c.value⟩ := by
  obtain ⟨c, hc, hlive, hkey⟩ := (rowKey?_eq_some_iff hp).mp hid
  exact ⟨c, live_eq_some.mpr ⟨hc, hlive⟩, hc, hlive, hkey⟩

end Cells

section Delta

variable {d : Delta} {id : ViewKey}

/-- The promoted column has changed no earlier than its old value was written. -/
theorem timestamp_le_time (habsorbs : d.after.Absorbs d.before) {b : Cell}
    (hb : d.before.cell? p = some b) {change : ColumnChange}
    (hchange : d.column? p = some change) : b.timestamp ≤ change.time := by
  rcases Delta.column?_time habsorbs hchange with ⟨a, ha, htime⟩ | ⟨_, b', x, hb', _, htime, hle⟩
  · have hslot := habsorbs.cell? p
    rw [ha, hb] at hslot
    rw [htime]
    exact time_le_of_latest (α := Cell) (Option.some.inj (latest?_eq_of_absorbed hslot))
  · obtain rfl : b = b' := Option.some.inj (hb.symm.trans hb')
    rw [htime]
    exact hle

include hp

theorem exists_change (hbefore : v.rowKey? d.before d.now = some id)
    (hafter : v.rowKey? d.after d.now ≠ some id) : ∃ change, d.column? p = some change := by
  obtain ⟨b, hlive, _, _, rfl⟩ := exists_promoted_of_rowKey? hp hbefore
  rcases d.column?_cases p with ⟨_, hsame⟩ | ⟨a, _, ⟨h, _⟩ | ⟨_, h, _⟩⟩ | ⟨_, _, _, h⟩
  · rw [hlive] at hsame
    obtain ⟨hcell, hb⟩ := live_eq_some.mp hsame.symm
    refine absurd ((rowKey?_eq_some_iff hp).mpr ⟨b, hcell, hb, ?_⟩) hafter
    rw [d.key_eq]
  · exact ⟨_, h⟩
  · exact ⟨_, h⟩
  · exact ⟨_, h⟩

/-- While the base row goes on to map to a view row, the view row gets the marker of the promoted
    cell, or this cell is the same as before. -/
theorem scopedMarker?_cases (hbefore : v.rowKey? d.before d.now = some id)
    (hafter : v.rowKey? d.after d.now = some id) :
    v.scopedMarker? d none = v.marker? d.after ∨
      v.scopedMarker? d none = none ∧ d.after.cell? p = d.before.cell? p := by
  obtain ⟨b, hb, hbcell, _, _⟩ := exists_promoted_of_rowKey? hp hbefore
  obtain ⟨a, ha, hacell, _, _⟩ := exists_promoted_of_rowKey? hp hafter
  rcases d.column?_cases p with
    ⟨h, hsame⟩ | ⟨_, _, ⟨_, hnone⟩ | ⟨_, h, _⟩⟩ | ⟨_, _, hnone, _⟩
  · rw [ha, hb] at hsame
    refine .inr ⟨by simp only [scopedMarker?, hp, h], ?_⟩
    rw [hacell, hbcell, hsame]
  · rw [hb] at hnone
    cases hnone
  · exact .inl (by simp only [scopedMarker?, hp, h])
  · rw [ha] at hnone
    cases hnone

end Delta

section Outcome

variable {now t : Timestamp} {id : ViewKey} {stored stored' before after : Row}

/-- A view row that the base row maps to agrees with the image of the base row. What a view row may
    hold from earlier stays is overwritten by the full image. -/
theorem Outcome.agrees (h : v.Outcome now id stored before after stored') (hle : now ≤ t)
    (hcanonical : before.Canonical) (habsorbs : after.Absorbs before)
    (hbacked : (v.image after).Absorbs (v.unmarked stored))
    (hinv : v.rowKey? before now = some id → (v.unmarked stored).Agrees now (v.image before))
    (hid : v.rowKey? after t = some id) : (v.unmarked stored').Agrees t (v.image after) := by
  have hnow : v.rowKey? after now = some id := rowKey?_of_le hle hid
  cases h with
  | untouched => exact (hinv hnow).of_le hle
  | absent _ hafter => exact absurd hnow hafter
  | entered =>
    rw [unmarked_join]
    exact (v.carries_fullImage now (v.unmarked stored) after id.base).agrees hle hbacked
      (Row.Agrees.refl t _)
  | @stayed d hd hbefore =>
    subst hd
    rw [unmarked_join]
    exact (carries_scopedChanges habsorbs.canonical habsorbs (.inl rfl) id.base).agrees hle hbacked
      ((hinv hbefore).of_le hle)
  | left _ _ hafter => exact absurd hnow hafter
  | @covered _ x hbefore =>
    rw [unmarked_join, unmarked_ofDeletion, image_shadow]
    rw [image_shadow] at hbacked
    exact (Row.carries_shadow now id.base (some x) (v.canonical_image hcanonical)).agrees hle hbacked
      ((hinv hbefore).of_le hle)

include hp

/-- A view row that its base row has left shows no marker: the row deletion or the withdrawal
    reaches the marker of the old promoted cell. -/
theorem not_isLive_of_left {d : Delta} (habsorbs : d.after.Absorbs d.before)
    (hbefore : v.rowKey? d.before d.now = some id) (hafter : v.rowKey? d.after d.now ≠ some id)
    (hstored : stored.Canonical)
    (hinv : ∀ m, stored.marker = some m → m.isLive t = true → v.marker? d.before = some m)
    {m : Marker} (hm : (Intent.written (v.retraction d id) id stored).marker = some m) :
    m.isLive t = false := by
  cases hlive : m.isLive t with
  | false => rfl
  | true =>
    obtain ⟨change, hchange⟩ := exists_change hp hbefore hafter
    obtain ⟨b, _, hcell, _, _⟩ := exists_promoted_of_rowKey? hp hbefore
    -- The marker that would have to be there is that of the old promoted cell.
    have htime (hold : stored.marker = some m) : m.timestamp ≤ change.time := by
      obtain ⟨c, hc, _, rfl⟩ := (marker?_eq_some_iff hp).mp (hinv m hold hlive)
      obtain rfl : b = c := Option.some.inj (hcell.symm.trans hc)
      exact timestamp_le_time habsorbs hcell hchange
    rw [written_retraction_of_promoted hp hstored, hchange] at hm
    simp only at hm
    split at hm
    next hcovers =>
      obtain ⟨hold, hkept⟩ := Row.marker_of_join_ofDeletion hm
      rw [Deletion.covers_of_le (htime hold) hcovers] at hkept
      cases hkept
    next =>
      have hlatest := Row.latest?_marker_of_join hm
      rcases latest?_eq_some hlatest with hjoined | hwithdrawn
      · have hold : stored.marker = some m := (Row.marker_of_join_ofDeletion hjoined).1
        have hloses : latest m (.withdrawn change.time) = .withdrawn change.time :=
          latest_removal (α := Marker) (htime hold)
        rw [hjoined] at hlatest
        have hm' : latest m (.withdrawn change.time) = m := Option.some.inj hlatest
        rw [← hm', hloses] at hlive
        cases hlive
      · rw [← Option.some.inj hwithdrawn] at hlive
        cases hlive

/-- A live marker of a view row is that of the promoted cell, and the base row maps to the view
    row. -/
theorem Outcome.marker_of_isLive (h : v.Outcome now id stored before after stored') (hle : now ≤ t)
    (hstored : stored.Canonical) (hcanonical : before.Canonical) (habsorbs : after.Absorbs before)
    (hinv : ∀ m, stored.marker = some m → m.isLive t = true →
      v.rowKey? before t = some id ∧ v.marker? before = some m)
    {m : Marker} (hm : stored'.marker = some m) (hlive : m.isLive t = true) :
    v.rowKey? after t = some id ∧ v.marker? after = some m := by
  cases h with
  | untouched => exact hinv m hm hlive
  | absent hbefore => exact absurd (rowKey?_of_le hle (hinv m hm hlive).1) hbefore
  | entered hbefore hafter =>
    rcases latest?_eq_some (Row.latest?_marker_of_join hm) with hold | hnew
    · exact absurd (rowKey?_of_le hle (hinv m hold hlive).1) hbefore
    · exact ⟨rowKey?_of_isLive_marker hp hafter hnew hlive, hnew⟩
  | @stayed d hnow hbefore hafter =>
    subst hnow
    have hmarker : v.marker? d.after = some m := by
      have hlatest : latest? stored.marker (v.scopedMarker? d none) = some m :=
        Row.latest?_marker_of_join hm
      rcases scopedMarker?_cases hp hbefore hafter with hscoped | ⟨hscoped, hsame⟩
      · rw [hscoped] at hlatest
        rcases latest?_eq_some hlatest with hold | hnew
        · -- Both markers are those of promoted cells, and the later cell has the later marker.
          obtain ⟨b, hb, hbvalue, hmb⟩ := (marker?_eq_some_iff hp).mp (hinv m hold hlive).2
          obtain ⟨a, _, ha, halive, _⟩ := exists_promoted_of_rowKey? hp hafter
          have havalue := Cell.isTombstone_of_isLive halive
          have hma : v.marker? d.after = some a.marker :=
            (marker?_eq_some_iff hp).mpr ⟨a, ha, havalue, rfl⟩
          have hslot := habsorbs.cell? p
          rw [ha, hb] at hslot
          have hcells : latest b a = a := Option.some.inj (latest?_eq_of_absorbed hslot)
          have hmarkers : latest m a.marker = a.marker := by
            rw [hmb, latest_eq_right_iff]
            exact Cell.isLE_marker (latest_eq_right_iff.mp hcells) hbvalue havalue
          rw [hold, hma, latest?_some_some, hmarkers] at hlatest
          rw [hma, hlatest]
        · exact hnew
      · rw [hscoped, latest?_none_right] at hlatest
        have hold := (hinv m hlatest hlive).2
        rw [marker?, hp] at hold ⊢
        simpa only [hsame] using hold
    exact ⟨rowKey?_of_isLive_marker hp hafter hmarker hlive, hmarker⟩
  | @left d hnow hbefore hafter =>
    subst hnow
    have hdead := not_isLive_of_left hp habsorbs hbefore hafter hstored
      (fun m hold hlive => (hinv m hold hlive).2) hm
    rw [hdead] at hlive
    cases hlive
  | @covered _ x hbefore =>
    obtain ⟨hold, hx⟩ := Row.marker_of_join_ofDeletion hm
    obtain ⟨hid, hmarker⟩ := hinv m hold hlive
    obtain ⟨c, hc, hvalue, rfl⟩ := (marker?_eq_some_iff hp).mp hmarker
    have hcell : (before.shadow (some x)).cell? p = some c := by
      have hsurvives : surviving before.deletion (some c) = some c := by
        rw [← hc]
        exact hcanonical.cell? p
      rw [Row.cell?_shadow, hc]
      change surviving (latest? before.deletion (some x)) (some c) = some c
      rw [← surviving_surviving, hsurvives]
      exact surviving_eq_some.mpr ⟨rfl, hx⟩
    have hmarker' : v.marker? (before.shadow (some x)) = some c.marker :=
      (marker?_eq_some_iff hp).mpr ⟨c, hcell, hvalue, rfl⟩
    obtain ⟨c', hc', hclive, hkey⟩ := (rowKey?_eq_some_iff hp).mp hid
    obtain rfl : c = c' := Option.some.inj (hc.symm.trans hc')
    exact ⟨(rowKey?_eq_some_iff hp).mpr ⟨c, hcell, hclive, hkey⟩, hmarker'⟩

end Outcome

section Evolution

variable {key : RowKey} {passages : List Passage} {row : Row} {stored : Option Bytes → Row}
  {t : Timestamp} {promoted : Option Bytes}

include hp

/-- In every run a live marker of a view row is that of the promoted cell of the base row. -/
theorem Evolution.marker_of_isLive (h : v.Evolution key passages row stored)
    (ht : ∀ q ∈ passages, q.now ≤ t) {m : Marker} (hm : (stored promoted).marker = some m)
    (hlive : m.isLive t = true) :
    v.rowKey? row t = some ⟨key, promoted⟩ ∧ v.marker? row = some m := by
  induction h generalizing m with
  | start => cases hm
  | @step passages before stored now after intents h hstep ih =>
    have hle : now ≤ t := ht ⟨now, before, after⟩ (List.mem_append_right _ List.mem_cons_self)
    have hinv := fun m => @ih (fun q hq => ht q (List.mem_append_left _ hq)) m
    have houtcome := hstep.outcome ⟨key, promoted⟩ (h.canonical_stored promoted)
    exact houtcome.marker_of_isLive hp hle (h.canonical_stored promoted) h.canonical_row
      hstep.absorbs hinv hm hlive

/-- In every run with nondecreasing reference times, a view row that the base row maps to agrees with
    the image of the base row. -/
theorem Evolution.agrees_of_rowKey? (h : v.Evolution key passages row stored)
    (hsorted : passages.Pairwise fun a b => a.now ≤ b.now) (ht : ∀ q ∈ passages, q.now ≤ t)
    (hid : v.rowKey? row t = some ⟨key, promoted⟩) :
    (v.unmarked (stored promoted)).Agrees t (v.image row) := by
  induction h generalizing t with
  | start =>
    obtain ⟨_, hcell, _⟩ := (rowKey?_eq_some_iff hp).mp hid
    cases hcell
  | @step passages before stored now after intents h hstep ih =>
    obtain ⟨hsorted, _, hlast⟩ := List.pairwise_append.mp hsorted
    have hle : now ≤ t := ht ⟨now, before, after⟩ (List.mem_append_right _ List.mem_cons_self)
    have hinv := ih hsorted (t := now) fun q hq => hlast q hq _ List.mem_cons_self
    have hbacked := (absorbs_image hstep.absorbs).trans (h.absorbs promoted) hstep.key_eq
    have houtcome := hstep.outcome ⟨key, promoted⟩ (h.canonical_stored promoted)
    exact houtcome.agrees hle h.canonical_row hstep.absorbs hbacked hinv hid

end Evolution

end View

end ViewMaintenance
