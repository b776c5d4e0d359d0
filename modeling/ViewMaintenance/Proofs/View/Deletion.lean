import ViewMaintenance.Proofs.View.Promotion

namespace ViewMaintenance

open Write

theorem Row.Agrees.symm {t : Timestamp} {a b : Row} (h : a.Agrees t b) : b.Agrees t a :=
  ⟨h.marker.symm, fun c => (h.cell c).symm⟩

namespace View

/-- What a view makes of a deletion that covers a base row. -/
def deletion (v : View) (r : Row) (x : Deletion) (now : Timestamp) : List Intent :=
  (v.rowKey? r now).toList.map (.deleteRow · x.markedAt .regular)

/-- What a view makes of a row deletion that is merged into a base row. -/
def rowDeletion (v : View) (r : Row) (x : Deletion) (now : Timestamp) : List Intent :=
  v.intents (v.rowKey? r now) (v.rowKey? (r.shadow (some x)) now) ⟨r, r.shadow (some x), now, rfl⟩

variable {v : View} {r stored : Row} {x : Deletion} {now t : Timestamp} {id : ViewKey}

theorem rowDeletion_of_none (hbefore : v.rowKey? r now = none) : v.rowDeletion r x now = [] := by
  cases hafter : v.rowKey? (r.shadow (some x)) now with
  | none => rw [rowDeletion, hbefore, hafter, intents]
  | some id =>
    rw [rowKey?_of_shadow hafter] at hbefore
    cases hbefore

theorem rowDeletion_of_stayed (hafter : v.rowKey? (r.shadow (some x)) now = some id) :
    v.rowDeletion r x now = (v.scopedChanges ⟨r, r.shadow (some x), now, rfl⟩ none).intents id := by
  rw [rowDeletion, rowKey?_of_shadow hafter, hafter, intents, if_pos rfl]

theorem rowDeletion_of_left (hbefore : v.rowKey? r now = some id)
    (hafter : v.rowKey? (r.shadow (some x)) now ≠ some id) :
    v.rowDeletion r x now = v.retraction ⟨r, r.shadow (some x), now, rfl⟩ id := by
  cases hnew : v.rowKey? (r.shadow (some x)) now with
  | none => rw [rowDeletion, hbefore, hnew, intents]
  | some new =>
    have hsame : some new = some id := (rowKey?_of_shadow hnew).symm.trans hbefore
    exact absurd (hnew.trans hsame) hafter

/-- A row deletion that comes again has no intents. -/
theorem rowDeletion_shadow (v : View) (r : Row) (x : Deletion) (now : Timestamp) :
    v.rowDeletion (r.shadow (some x)) x now = [] := by
  have hsame : r.shadow (some x) = (r.shadow (some x)).shadow (some x) := by
    rw [Row.shadow_shadow, latest?_self]
  exact intents_of_eq (d := ⟨r.shadow (some x), (r.shadow (some x)).shadow (some x), now, rfl⟩) hsame

/-- Both concern the view row that the base row maps to. -/
theorem rowKey?_of_mem_rowDeletion {i : Intent} (hi : i ∈ v.rowDeletion r x now) :
    v.rowKey? r now = some i.row := (row_of_mem_intents hi).elim id rowKey?_of_shadow

theorem rowKey?_of_mem_deletion {i : Intent} (hi : i ∈ v.deletion r x now) :
    v.rowKey? r now = some i.row := by
  obtain ⟨id, hid, rfl⟩ := List.mem_map.mp hi
  exact Option.mem_toList.mp hid

section Strict

variable {p : String} (hp : v.promoted = some p)

include hp

/-- A row deletion by which a base row leaves its view row reaches the promoted cell, and is later than
    the deletions before. -/
theorem newDeletion?_of_left (hr : r.Canonical) (hbefore : v.rowKey? r now = some id)
    (hafter : v.rowKey? (r.shadow (some x)) now ≠ some id) :
    (r.shadow (some x)).cell? p = none ∧
      Delta.newDeletion? ⟨r, r.shadow (some x), now, rfl⟩ = some x := by
  obtain ⟨c, hc, hlive, rfl⟩ := (rowKey?_eq_some_iff hp).mp hbefore
  have hkept := hr.not_covers_cell hc
  have hslot : (r.shadow (some x)).cell? p = surviving (latest? r.deletion (some x)) (some c) := by
    rw [Row.cell?_shadow, hc]
    rfl
  have hdropped : surviving (latest? r.deletion (some x)) (some c) = none := by
    refine Option.eq_none_iff_forall_ne_some.mpr fun y hy => ?_
    obtain rfl := Option.some.inj (surviving_eq_some.mp hy).1
    exact hafter ((rowKey?_eq_some_iff hp).mpr ⟨c, hslot.trans hy, hlive, rfl⟩)
  have hcovers : Deletion.covers (latest? r.deletion (some x)) c.timestamp = true :=
    covers_of_surviving_eq_none (α := Cell) hdropped
  refine ⟨hslot.trans hdropped,
    (Delta.newDeletion?_eq_some_iff (Row.deletion_shadow r (some x))).mpr ⟨rfl, fun y hy => ?_⟩⟩
  have hearlier : y.markedAt < c.timestamp := Deletion.covers_eq_false_iff.mp hkept y hy
  have hreached : Deletion.covers (some x) c.timestamp = true :=
    ((Deletion.covers_latest? _ _ _).mp hcovers).resolve_left (by rw [hkept]; nofun)
  exact Int64.lt_of_lt_of_le hearlier ((Deletion.covers_some x _).mp hreached)

/-- The view row that a base row leaves by a row deletion is deleted as a whole. -/
theorem written_rowDeletion_of_left (hr : r.Canonical) (hstored : stored.Canonical)
    (hbefore : v.rowKey? r now = some id)
    (hafter : v.rowKey? (r.shadow (some x)) now ≠ some id) :
    Intent.written (v.rowDeletion r x now) id stored = stored.join (.ofDeletion id.base (some x)) := by
  obtain ⟨hcell, hnew⟩ := newDeletion?_of_left hp hr hbefore hafter
  generalize hd : Delta.mk r (r.shadow (some x)) now rfl = d at hnew
  have habsorbs : d.after.Absorbs d.before := by
    rw [← hd]
    exact hr.absorbs_self.shadow rfl _
  have hdeletion : d.after.deletion = some x := by
    rcases d.newDeletion?_eq with h | h <;> rw [hnew] at h
    · cases h
    · exact h.symm
  have hleft : v.rowKey? d.before d.now = some id ∧ v.rowKey? d.after d.now ≠ some id := by
    rw [← hd]
    exact ⟨hbefore, hafter⟩
  obtain ⟨change, hchange⟩ := exists_change hp hleft.1 hleft.2
  have htime : change.time = x.markedAt := by
    rcases Delta.column?_time habsorbs hchange with ⟨a, ha, _⟩ | ⟨_, _, y, _, hy, htime, _⟩
    · rw [← hd, hcell] at ha
      cases ha
    · obtain rfl : x = y := Option.some.inj (hdeletion.symm.trans hy)
      exact htime
  have hcovers : Deletion.covers (some x) x.markedAt = true :=
    (Deletion.covers_some x _).mpr (Int64.le_refl _)
  rw [rowDeletion_of_left hbefore hafter, hd, written_retraction_of_promoted hp hstored, hchange, hnew]
  simp only [htime, if_pos hcovers]

/-- The marker of a view row that its base row goes on to map to survives the deletion of the view row
    while it is live. -/
theorem live_marker_of_stayed (hstored : stored.Canonical)
    (hafter : v.rowKey? (r.shadow (some x)) now = some id)
    (hmarker : ∀ m, stored.marker = some m → m.isLive t = true → v.marker? r = some m) :
    live t (stored.join (.ofDeletion id.base (some x))).marker = live t stored.marker := by
  obtain ⟨c, hc, _, _⟩ := (rowKey?_eq_some_iff hp).mp hafter
  rw [Row.cell?_shadow] at hc
  obtain ⟨hcell, hkept⟩ : r.cell? p = some c ∧
      Deletion.covers (latest? r.deletion (some x)) c.timestamp = false := surviving_eq_some.mp hc
  have hx : Deletion.covers (some x) c.timestamp = false := by
    cases hcovers : Deletion.covers (some x) c.timestamp with
    | false => rfl
    | true =>
      rw [(Deletion.covers_latest? r.deletion (some x) _).mpr (.inr hcovers)] at hkept
      cases hkept
  have hjoin : (stored.join (.ofDeletion id.base (some x))).marker = surviving (some x) stored.marker := by
    rw [Row.marker_join_eq]
    change surviving (latest? stored.deletion (some x)) (latest? stored.marker none) = _
    rw [latest?_none_right, ← surviving_surviving, hstored.marker]
  rw [hjoin, live_surviving]
  cases hlive : live t stored.marker with
  | none => rfl
  | some m =>
    obtain ⟨hm, hmlive⟩ := live_eq_some.mp hlive
    obtain ⟨c', hc', _, rfl⟩ := (marker?_eq_some_iff hp).mp (hmarker m hm hmlive)
    obtain rfl : c = c' := Option.some.inj (hcell.symm.trans hc')
    exact surviving_eq_some.mpr ⟨rfl, hx⟩

/-- The row deletion writes no marker to such a view row, since the promoted cell stays. -/
theorem marker_of_stayed (hstored : stored.Canonical)
    (hafter : v.rowKey? (r.shadow (some x)) now = some id) :
    (Intent.written (v.rowDeletion r x now) id stored).marker = stored.marker := by
  obtain ⟨c, hc, _, _⟩ := (rowKey?_eq_some_iff hp).mp hafter
  have hcell : r.cell? p = some c := by
    rw [Row.cell?_shadow] at hc
    exact (Option.filter_eq_some_iff.mp hc).1
  have hcolumn : Delta.column? ⟨r, r.shadow (some x), now, rfl⟩ p = none :=
    Delta.column?_of_eq (hcell.trans hc.symm)
  have hmarker : v.scopedMarker? ⟨r, r.shadow (some x), now, rfl⟩ none = none := by
    simp only [scopedMarker?, hp, hcolumn]
  rw [rowDeletion_of_stayed hafter, Changes.written_intents plain_scopedChanges hstored,
    Row.marker_join_eq]
  change surviving (latest? stored.deletion none) (latest? stored.marker (v.scopedMarker? _ none)) = _
  rw [hmarker, latest?_none_right, latest?_none_right, hstored.marker]

end Strict

/-- Rows that agree apart from their markers agree if the markers of a strict view do. -/
theorem agrees_of_unmarked {a b : Row} (h : (v.unmarked a).Agrees t (v.unmarked b))
    (hmarker : v.isStrict = true → live t a.marker = live t b.marker) : a.Agrees t b := by
  refine ⟨?_, h.cell⟩
  cases hstrict : v.isStrict with
  | true => exact hmarker hstrict
  | false =>
    have hsame := v.marker_eq_of_not_isStrict hstrict
    rw [← (hsame a).2.1, ← (hsame b).2.1]
    exact h.marker

theorem written_deletion (hid : v.rowKey? r now = some id) (stored : Row) :
    Intent.written (v.deletion r x now) id stored = stored.join (.ofDeletion id.base (some x)) := by
  rw [deletion, hid, Option.toList_some, List.map_singleton]
  exact Intent.written_singleton rfl stored

section Image

variable (hr : r.Canonical) (hstored : stored.Canonical) (hkey : stored.key = r.key)
  (hbacked : (v.image r).Absorbs (v.unmarked stored))
  (hagrees : (v.unmarked stored).Agrees now (v.image r)) (hid : v.rowKey? r now = some id)
  (hle : now ≤ t)

include hr hkey hbacked hagrees hid hle

/-- Apart from the marker, the deletion of a view row follows the deletion of its base row. -/
theorem agrees_written_deletion : (v.unmarked (Intent.written (v.deletion r x now) id stored)).Agrees t
    (v.image (r.shadow (some x))) := by
  have hold := hbacked.shadow hkey.symm (some x)
  rw [written_deletion hid, unmarked_join, unmarked_ofDeletion, image_shadow]
  exact (Row.carries_shadow now id.base (some x) (v.canonical_image hr)).agrees hle hold
    (hagrees.of_le hle)

include hstored

/-- Apart from the marker, a view row follows a row deletion that is merged into its base row. -/
theorem agrees_written_rowDeletion :
    (v.unmarked (Intent.written (v.rowDeletion r x now) id stored)).Agrees t
      (v.image (r.shadow (some x))) := by
  have hold : (v.image (r.shadow (some x))).Absorbs (v.unmarked stored) := by
    rw [image_shadow]
    exact hbacked.shadow hkey.symm (some x)
  have habsorbs : (r.shadow (some x)).Absorbs r := hr.absorbs_self.shadow rfl _
  generalize hd : Delta.mk r (r.shadow (some x)) now rfl = d
  have hcarries {covered : Option Deletion} (hcovered : covered = none ∨ covered = d.after.deletion) :
      Row.Carries now (v.image r) (v.image (r.shadow (some x)))
        (v.unmarked ({ v.scopedChanges d covered with deletion := covered }.fragment id.base)) := by
    subst hd
    exact carries_scopedChanges habsorbs.canonical habsorbs hcovered id.base
  by_cases hafter : v.rowKey? (r.shadow (some x)) now = some id
  · rw [rowDeletion_of_stayed hafter, hd, Changes.written_intents plain_scopedChanges hstored,
      unmarked_join]
    exact (hcarries (.inl rfl)).agrees hle hold (hagrees.of_le hle)
  · cases hp : v.promoted with
    | some p =>
      rw [written_rowDeletion_of_left hp hr hstored hid hafter, ← written_deletion hid]
      exact agrees_written_deletion hr hkey hbacked hagrees hid hle
    | none =>
      have hstrict : v.isStrict = false := by simp [isStrict, hp]
      rw [rowDeletion_of_left hid hafter, hd, written_retraction_of_not_isStrict hstrict hstored,
        unmarked_join]
      exact (hcarries d.newDeletion?_eq).agrees hle hold (hagrees.of_le hle)

end Image

section Evolution

variable {key : RowKey} {passages : List Passage} {row : Row} {stored : Option Bytes → Row}

/-- A view row that the base row maps to agrees with the image of the base row, from the last reference
    time on. -/
theorem Evolution.agrees_image (h : v.Evolution key passages row stored)
    (hsorted : passages.Pairwise fun a b => a.now ≤ b.now) (hnow : ∀ q ∈ passages, q.now ≤ now)
    {promoted : Option Bytes} (hid : v.rowKey? row now = some ⟨key, promoted⟩) :
    (v.unmarked (stored promoted)).Agrees now (v.image row) := by
  cases hp : v.promoted with
  | some p => exact h.agrees_of_rowKey? hp hsorted hnow hid
  | none =>
    have hstrict : v.isStrict = false := by simp [isStrict, hp]
    obtain rfl : promoted = none := eq_of_rowKey?_of_not_isStrict hstrict hid
    exact h.agrees hstrict hnow

/-- Whether a deletion covers the base row or is merged into it, the view row shows the same. In
    the first case the whole view row is deleted, whatever survives in the base row; in the
    second only what the base row loses is. -/
theorem Evolution.agrees_of_deletion (h : v.Evolution key passages row stored)
    (hsorted : passages.Pairwise fun a b => a.now ≤ b.now) (hnow : ∀ q ∈ passages, q.now ≤ now)
    (hle : now ≤ t) (x : Deletion) (promoted : Option Bytes) :
    (Intent.written (v.deletion row x now) ⟨key, promoted⟩ (stored promoted)).Agrees t
      (Intent.written (v.rowDeletion row x now) ⟨key, promoted⟩ (stored promoted)) := by
  have hr := h.canonical_row
  have hstored := h.canonical_stored promoted
  by_cases hid : v.rowKey? row now = some ⟨key, promoted⟩
  · have hkey : (stored promoted).key = row.key := (h.key_stored promoted).trans h.key_row.symm
    have hagrees := h.agrees_image hsorted hnow hid
    have hdeletion := agrees_written_deletion (x := x) hr hkey (h.absorbs promoted) hagrees hid hle
    have hrowDeletion :=
      agrees_written_rowDeletion (x := x) hr hstored hkey (h.absorbs promoted) hagrees hid hle
    refine agrees_of_unmarked (hdeletion.trans hrowDeletion.symm) fun hstrict => ?_
    obtain ⟨p, hp⟩ := Option.isSome_iff_exists.mp hstrict
    by_cases hafter : v.rowKey? (row.shadow (some x)) now = some ⟨key, promoted⟩
    · rw [marker_of_stayed hp hstored hafter, written_deletion hid]
      refine live_marker_of_stayed hp hstored hafter fun m hm hlive => ?_
      exact (h.marker_of_isLive hp (fun q hq => Int64.le_trans (hnow q hq) hle) hm hlive).2
    · rw [written_rowDeletion_of_left hp hr hstored hid hafter, written_deletion hid]
  · have hnot {intents : List Intent} (hintents : ∀ i ∈ intents, v.rowKey? row now = some i.row) :
        Intent.written intents ⟨key, promoted⟩ (stored promoted) = stored promoted :=
      Intent.written_of_forall_ne (fun i hi heq => hid ((hintents i hi).trans (congrArg some heq))) _
    rw [hnot fun _ => rowKey?_of_mem_deletion, hnot fun _ => rowKey?_of_mem_rowDeletion]
    exact .refl t _

end Evolution

end View

namespace ViewTable

variable {a b : ViewTable} {t : Timestamp}

/-- Tables of one view whose rows agree are read alike. -/
theorem read_eq_of_agrees (hview : a.view = b.view) (hrows : ∀ id, (a.row id).Agrees t (b.row id)) :
    a.read t = b.read t := by
  refine SortedMap.ext_get? fun id => ?_
  have hmarker : (a.row id).liveMarker? t = (b.row id).liveMarker? t := (hrows id).marker
  have hpresent : (a.row id).isPresent t = (b.row id).isPresent t := by
    rw [Bool.eq_iff_iff, Row.isPresent_iff, Row.isPresent_iff, (hrows id).marker]
    simp only [(hrows id).cell]
  have hcolumns : b.view.liveColumns (a.row id) t = b.view.liveColumns (b.row id) t := by
    refine SortedMap.ext_get? fun c => ?_
    rw [View.get?_liveColumns, View.get?_liveColumns, (hrows id).cell]
  rw [get?_read, get?_read, shows, shows, hview, hmarker, hpresent, hcolumns]

end ViewTable

end ViewMaintenance
