import ViewMaintenance.Proofs.Row.Agreement
import ViewMaintenance.Proofs.View.Image

namespace ViewMaintenance

open Write

namespace Row

theorem isPresent_iff (r : Row) (now : Timestamp) : r.isPresent now = true ↔
    (live now r.marker).isSome ∨ ∃ c, (live now (r.cell? c)).isSome := by
  have hmarker : r.liveMarker? now = live now r.marker := rfl
  rw [isPresent, Bool.or_eq_true, hmarker, List.any_eq_true]
  refine or_congr_right ?_
  constructor
  · rintro ⟨x, hx, hlive⟩
    obtain ⟨c, hc⟩ := SortedMap.mem_values_iff.mp hx
    have hcell : live now (r.cell? c) = some x := live_eq_some.mpr ⟨hc, hlive⟩
    exact ⟨c, by rw [hcell]; rfl⟩
  · rintro ⟨c, hc⟩
    obtain ⟨x, hx⟩ := Option.isSome_iff_exists.mp hc
    obtain ⟨hcell, hlive⟩ := live_eq_some.mp hx
    exact ⟨x, SortedMap.mem_values_iff.mpr ⟨c, hcell⟩, hlive⟩

/-- A row that is not present shows nothing. -/
theorem live_of_not_isPresent {r : Row} {now : Timestamp} (h : r.isPresent now = false) :
    live now r.marker = none ∧ ∀ c, live now (r.cell? c) = none := by
  rw [← Bool.not_eq_true, isPresent_iff, not_or, not_exists] at h
  refine ⟨by simpa using h.1, fun c => by simpa using h.2 c⟩

theorem isPresent_of_le {r : Row} {now later : Timestamp} (hle : now ≤ later)
    (h : r.isPresent later = true) : r.isPresent now = true := by
  have hsome {α : Type} [Ord α] [Write α] {w : Option α} (hw : (live later w).isSome) :
      (live now w).isSome := by
    rw [← live_live hle] at hw
    cases hnow : live now w with
    | none => simp [hnow] at hw
    | some x => rfl
  rw [isPresent_iff] at h ⊢
  exact h.imp hsome fun ⟨c, hc⟩ => ⟨c, hsome hc⟩

theorem isPresent_of_shadow {r : Row} {d : Option Deletion} {now : Timestamp}
    (h : (r.shadow d).isPresent now = true) : r.isPresent now = true := by
  have hsome {α : Type} [Ord α] [Write α] {e : Option Deletion} {w : Option α}
      (hw : (live now (surviving e w)).isSome) : (live now w).isSome := by
    obtain ⟨x, hx⟩ := Option.isSome_iff_exists.mp hw
    obtain ⟨hsurviving, hlive⟩ := live_eq_some.mp hx
    rw [live_eq_some.mpr ⟨(surviving_eq_some.mp hsurviving).1, hlive⟩]
    rfl
  rw [isPresent_iff] at h ⊢
  refine h.imp hsome fun ⟨c, hc⟩ => ⟨c, hsome (e := latest? r.deletion d) ?_⟩
  rw [cell?_shadow] at hc
  exact hc

end Row

namespace View

variable {v : View}

theorem rowKey?_of_not_isStrict (hstrict : v.isStrict = false) (r : Row) (now : Timestamp) :
    v.rowKey? r now = if r.isPresent now then some ⟨r.key, none⟩ else none := by
  have hpromoted : v.promoted = none := by simpa [isStrict] using hstrict
  simp [rowKey?, hpromoted]

/-- A strict view maps a base row to the view row that the live promoted cell names. -/
theorem rowKey?_eq_some_iff {p : String} (hp : v.promoted = some p) {r : Row} {now : Timestamp}
    {id : ViewKey} : v.rowKey? r now = some id ↔
      ∃ cell, r.cell? p = some cell ∧ cell.isLive now = true ∧ id = ⟨r.key, cell.value⟩ := by
  simp only [rowKey?, hp, Option.map_eq_some_iff, Option.bind_eq_some_iff, Cell.liveValue?]
  constructor
  · rintro ⟨value, ⟨cell, hcell, hvalue⟩, rfl⟩
    split at hvalue
    next hlive => exact ⟨cell, hcell, hlive, by rw [hvalue]⟩
    next => cases hvalue
  · rintro ⟨cell, hcell, hlive, rfl⟩
    obtain ⟨value, hvalue⟩ : ∃ value, cell.value = some value := by
      simp only [Cell.isLive, Cell.isTombstone, Bool.and_eq_true, Bool.not_eq_true',
        Option.isNone_eq_false_iff] at hlive
      exact Option.isSome_iff_exists.mp hlive.1
    exact ⟨value, ⟨cell, hcell, by rw [if_pos hlive, hvalue]⟩, by rw [hvalue]⟩

theorem base_of_rowKey? {r : Row} {now : Timestamp} {id : ViewKey}
    (h : v.rowKey? r now = some id) : id.base = r.key := by
  cases hp : v.promoted with
  | some p =>
    obtain ⟨_, _, _, rfl⟩ := (rowKey?_eq_some_iff hp).mp h
    rfl
  | none =>
    rw [rowKey?_of_not_isStrict (by simp [isStrict, hp])] at h
    split at h
    · rw [← Option.some.inj h]
    · cases h

theorem rowKey?_of_le {r : Row} {now later : Timestamp} {id : ViewKey} (hle : now ≤ later)
    (h : v.rowKey? r later = some id) : v.rowKey? r now = some id := by
  cases hp : v.promoted with
  | some p =>
    obtain ⟨cell, hcell, hlive, rfl⟩ := (rowKey?_eq_some_iff hp).mp h
    exact (rowKey?_eq_some_iff hp).mpr ⟨cell, hcell, isLive_of_le (α := Cell) hle hlive, rfl⟩
  | none =>
    have hstrict : v.isStrict = false := by simp [isStrict, hp]
    rw [rowKey?_of_not_isStrict hstrict] at h ⊢
    split at h
    next hpresent => rw [if_pos (Row.isPresent_of_le hle hpresent), h]
    next => cases h

theorem rowKey?_of_shadow {r : Row} {d : Option Deletion} {now : Timestamp} {id : ViewKey}
    (h : v.rowKey? (r.shadow d) now = some id) : v.rowKey? r now = some id := by
  cases hp : v.promoted with
  | some p =>
    obtain ⟨cell, hcell, hlive, rfl⟩ := (rowKey?_eq_some_iff hp).mp h
    rw [Row.cell?_shadow] at hcell
    have hbefore : r.cell? p = some cell := (Option.filter_eq_some_iff.mp hcell).1
    exact (rowKey?_eq_some_iff hp).mpr ⟨cell, hbefore, hlive, rfl⟩
  | none =>
    have hstrict : v.isStrict = false := by simp [isStrict, hp]
    rw [rowKey?_of_not_isStrict hstrict] at h ⊢
    split at h
    next hpresent => rw [if_pos (Row.isPresent_of_shadow hpresent)]; exact h
    next => cases h

/-- The images of two rows that are not present agree, since they show nothing. -/
theorem agrees_image_of_not_isPresent {a b : Row} {now : Timestamp}
    (ha : a.isPresent now = false) (hb : b.isPresent now = false) :
    (v.image a).Agrees now (v.image b) := by
  have hnone {r : Row} (hr : r.isPresent now = false) : live now (v.image r).marker = none ∧
      ∀ c, live now ((v.image r).cell? c) = none := by
    obtain ⟨hmarker, hcell⟩ := Row.live_of_not_isPresent hr
    refine ⟨?_, fun c => ?_⟩
    · rw [marker_image]
      split
      · rfl
      · exact hmarker
    · rw [cell?_image]
      split
      · rw [live_map (fun x => v.isLive_seen c x now), hcell]
        rfl
      · rfl
  exact ⟨(hnone ha).1.trans (hnone hb).1.symm, fun c => ((hnone ha).2 c).trans ((hnone hb).2 c).symm⟩

end View

end ViewMaintenance
