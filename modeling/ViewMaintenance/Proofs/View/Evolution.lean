import ViewMaintenance.Proofs.View.Transition

namespace ViewMaintenance

open Write

/-- One mutation of a run as seen from one base row. -/
structure Passage where
  now : Timestamp
  before : Row
  after : Row

namespace View

/-- A run as seen from one base row: its passages, the base row, and the stored view row of each
    promoted value. -/
inductive Evolution (v : View) (key : RowKey) : List Passage → Row → (Option Bytes → Row) → Prop
  | start : Evolution v key [] (.empty key) fun _ => .empty key
  | step {passages : List Passage} {before : Row} {stored : Option Bytes → Row} {now : Timestamp}
      {after : Row} {intents : List Intent} (h : Evolution v key passages before stored)
      (ht : v.Transition now before after intents) :
      Evolution v key (passages ++ [⟨now, before, after⟩]) after fun promoted =>
        Intent.written intents ⟨key, promoted⟩ (stored promoted)

variable {v : View} {key : RowKey} {passages : List Passage} {row : Row}
  {stored : Option Bytes → Row} {t : Timestamp}

theorem key_written (intents : List Intent) (id : ViewKey) (r : Row) :
    (Intent.written intents id r).key = r.key := by
  induction intents generalizing r with
  | nil => rfl
  | cons i intents ih =>
    rw [Intent.written_cons, ih]
    split <;> rfl

theorem canonical_written (intents : List Intent) (id : ViewKey) {r : Row} (hr : r.Canonical) :
    (Intent.written intents id r).Canonical := by
  induction intents generalizing r with
  | nil => exact hr
  | cons i intents ih =>
    rw [Intent.written_cons]
    split
    · exact ih (Row.canonical_join _ _)
    · exact ih hr

namespace Evolution

theorem key_row (h : v.Evolution key passages row stored) : row.key = key := by
  induction h with
  | start => rfl
  | step _ ht ih => rw [ht.key_eq, ih]

theorem key_stored (h : v.Evolution key passages row stored) (promoted : Option Bytes) :
    (stored promoted).key = key := by
  induction h with
  | start => rfl
  | step _ _ ih => rw [key_written, ih]

theorem canonical_stored (h : v.Evolution key passages row stored) (promoted : Option Bytes) :
    (stored promoted).Canonical := by
  induction h with
  | start => exact Row.canonical_empty key
  | step _ _ ih => exact canonical_written _ _ ih

theorem canonical_row (h : v.Evolution key passages row stored) : row.Canonical := by
  cases h with
  | start => exact Row.canonical_empty key
  | step _ ht => exact ht.canonical_after

/-- The base row absorbs all that a view row holds. -/
theorem absorbs (h : v.Evolution key passages row stored) (promoted : Option Bytes) :
    (v.image row).Absorbs (v.unmarked (stored promoted)) := by
  induction h with
  | start =>
    have hempty : v.unmarked (.empty key) = .ofDeletion key none := v.unmarked_ofDeletion key none
    rw [hempty]
    exact (v.canonical_image (Row.canonical_empty key)).absorbs_ofDeletion key rfl
  | step h ht ih =>
    exact ht.absorbs_unmarked (h.canonical_stored promoted)
      ((h.key_stored promoted).trans h.key_row.symm) ih

end Evolution

theorem unknownColumn?_eq_none_iff {r : Row} : v.unknownColumn? r = none ↔
    ∀ c, (r.cell? c).isSome → v.schema.isRegular c = true := by
  rw [unknownColumn?, Option.map_eq_none_iff, List.find?_eq_none]
  refine forall_congr' fun c => ?_
  rw [SortedMap.mem_keys_iff]
  simp [Row.cell?]

theorem unknownColumn?_shadow {r : Row} (h : v.unknownColumn? r = none) (d : Option Deletion) :
    v.unknownColumn? (r.shadow d) = none := by
  rw [unknownColumn?_eq_none_iff] at h ⊢
  intro c hc
  refine h c ?_
  rw [Row.cell?_shadow] at hc
  obtain ⟨x, hx⟩ := Option.isSome_iff_exists.mp hc
  rw [(Option.filter_eq_some_iff.mp hx).1]
  rfl

/-- The base row never holds a column that the schema of the view does not know. -/
theorem Evolution.unknownColumn? (h : v.Evolution key passages row stored) :
    v.unknownColumn? row = none := by
  induction h with
  | start => rfl
  | step _ ht ih =>
    cases ht with
    | merged _ _ _ _ hknown => exact hknown
    | covered => exact unknownColumn?_shadow ih _
    | untouched => exact ih

section Reads

theorem tracks_of_isSelected {c : String} (hselected : v.isSelected c = true) :
    v.tracks c = true := by
  unfold tracks
  split
  next p hp =>
    have hne : p ≠ c := by
      rintro rfl
      have hnot := v.not_selected_of_promoted p hp
      rw [isSelected, hnot] at hselected
      cases hselected
    simpa [hselected] using hne
  next => exact v.isRegular_of_selected c hselected

theorem get?_liveColumns (r : Row) (c : String) : (v.liveColumns r t).get? c =
    if v.isSelected c then (live t (r.cell? c)).bind Cell.value else none := by
  have hget : (v.liveColumns r t).get? c = (r.cell? c).bind fun cell =>
      if v.isSelected c then cell.liveValue? t else none := SortedMap.get?_filterMap _ _ _
  have hlive : live t (r.cell? c) = (r.cell? c).filter (·.isLive t) := rfl
  rw [hget, hlive]
  cases r.cell? c with
  | none => simp
  | some x => cases hx : x.isLive t <;> simp [Cell.liveValue?, Option.filter, hx]

/-- A view row that agrees with the image of a base row shows the columns of the base row. -/
theorem liveColumns_eq_of_agrees {view base : Row}
    (h : (v.unmarked view).Agrees t (v.image base)) : v.liveColumns view t = v.liveColumns base t := by
  refine SortedMap.ext_get? fun c => ?_
  rw [get?_liveColumns, get?_liveColumns]
  cases hselected : v.isSelected c with
  | false => rfl
  | true =>
    have hcell : live t (view.cell? c) = (live t (base.cell? c)).map (v.seen c) := by
      rw [← live_map (fun x => v.isLive_seen c x t)]
      have himage := h.cell c
      rw [cell?_image, if_pos (tracks_of_isSelected hselected)] at himage
      exact himage
    rw [hcell]
    cases hlive : live t (base.cell? c) with
    | none => rfl
    | some x =>
      have hx : x.isLive t = true := (live_eq_some.mp hlive).2
      have hvalue := liveValue?_seen hselected x t
      rw [Cell.liveValue?, Cell.liveValue?, isLive_seen, hx] at hvalue
      exact hvalue

/-- Without a promoted column it is present exactly while the base row is. -/
theorem isPresent_eq_of_agrees (hstrict : v.isStrict = false) {view base : Row}
    (hknown : v.unknownColumn? base = none) (h : (v.unmarked view).Agrees t (v.image base)) :
    view.isPresent t = base.isPresent t := by
  have hpromoted : v.promoted = none := by simpa [isStrict] using hstrict
  have hmarker : live t view.marker = live t base.marker := by
    have hsame := v.marker_eq_of_not_isStrict hstrict
    rw [← (hsame view).2.1, ← (hsame base).1]
    exact h.marker
  have hcell (c : String) : (live t (view.cell? c)).isSome = (live t (base.cell? c)).isSome := by
    have himage : live t (view.cell? c) = live t ((v.image base).cell? c) := h.cell c
    rw [himage, cell?_image]
    cases hbase : base.cell? c with
    | none => simp
    | some x =>
      have hregular : v.tracks c = true := by
        simp only [tracks, hpromoted]
        exact unknownColumn?_eq_none_iff.mp hknown c (by simp [hbase])
      rw [if_pos hregular, live_map (fun x => v.isLive_seen c x t), Option.isSome_map]
  rw [Bool.eq_iff_iff, Row.isPresent_iff, Row.isPresent_iff, hmarker]
  simp only [hcell]

end Reads

section NotStrict

theorem eq_of_rowKey?_of_not_isStrict (hstrict : v.isStrict = false) {r : Row} {now : Timestamp}
    {id : ViewKey} (h : v.rowKey? r now = some id) : id.promoted = none := by
  rw [rowKey?_of_not_isStrict hstrict] at h
  split at h
  · rw [← Option.some.inj h]
  · cases h

theorem not_isPresent_of_rowKey?_ne (hstrict : v.isStrict = false) {r : Row} {now : Timestamp}
    (h : v.rowKey? r now ≠ some ⟨r.key, none⟩) : r.isPresent now = false := by
  rw [rowKey?_of_not_isStrict hstrict] at h
  cases hpresent : r.isPresent now with
  | false => rfl
  | true => exact absurd (if_pos hpresent) h

/-- Without a promoted column, a view row that agrees with the image of its base row goes on to
    agree with it. -/
theorem Transition.agrees {now : Timestamp} {before after : Row} {intents : List Intent}
    (h : v.Transition now before after intents) (hstrict : v.isStrict = false) {stored : Row}
    (hstored : stored.Canonical) (hkey : stored.key = before.key) (hle : now ≤ t)
    (hbacked : (v.image before).Absorbs (v.unmarked stored))
    (hagrees : (v.unmarked stored).Agrees t (v.image before)) :
    (v.unmarked (Intent.written intents ⟨before.key, none⟩ stored)).Agrees t (v.image after) := by
  have hold : (v.image after).Absorbs (v.unmarked stored) :=
    (absorbs_image h.absorbs).trans hbacked h.key_eq
  have hbefore : (v.image before).Canonical := v.canonical_image h.canonical_before
  have hcanonical := h.canonical_after
  have habsorbs := h.absorbs
  have hkeys := h.key_eq
  have houtcome := h.outcome ⟨before.key, none⟩ hstored
  clear h
  generalize hid : (⟨before.key, none⟩ : ViewKey) = id at houtcome ⊢
  generalize Intent.written intents id stored = stored' at houtcome ⊢
  cases houtcome with
  | untouched => exact hagrees
  | absent hb ha =>
    subst hid
    have hb' := not_isPresent_of_rowKey?_ne hstrict hb
    have ha' := not_isPresent_of_rowKey?_ne hstrict (by rwa [hkeys])
    exact hagrees.trans ((agrees_image_of_not_isPresent hb' ha').of_le hle)
  | entered =>
    rw [unmarked_join]
    exact (v.carries_fullImage now (v.image before) after id.base).agrees hle hold hagrees
  | stayed hnow =>
    subst hnow
    rw [unmarked_join]
    exact (carries_scopedChanges hcanonical habsorbs (.inl rfl) id.base).agrees hle hold hagrees
  | @left d hnow =>
    subst hnow
    rw [written_retraction_of_not_isStrict hstrict hstored, unmarked_join]
    exact (carries_scopedChanges hcanonical habsorbs d.newDeletion?_eq id.base).agrees hle hold hagrees
  | @covered _ x =>
    rw [unmarked_join, unmarked_ofDeletion, image_shadow]
    rw [image_shadow] at hold
    exact (Row.carries_shadow now id.base (some x) hbefore).agrees hle hold hagrees

/-- Without a promoted column the view row always agrees with the image of the base row. -/
theorem Evolution.agrees (h : v.Evolution key passages row stored) (hstrict : v.isStrict = false)
    (ht : ∀ p ∈ passages, p.now ≤ t) : (v.unmarked (stored none)).Agrees t (v.image row) := by
  induction h with
  | start =>
    refine ⟨?_, fun c => ?_⟩
    · rw [unmarked, marker_image]
    · rw [cell?_image]
      split <;> rfl
  | @step passages before stored now after intents h hstep ih =>
    have hle : now ≤ t := ht ⟨now, before, after⟩ (List.mem_append_right _ List.mem_cons_self)
    have hagrees := ih fun p hp => ht p (List.mem_append_left _ hp)
    have hkey : (stored none).key = before.key := (h.key_stored none).trans h.key_row.symm
    rw [← h.key_row]
    exact hstep.agrees hstrict (h.canonical_stored none) hkey hle (h.absorbs none) hagrees

/-- A view without promoted column has no rows of promoted values. -/
theorem Evolution.stored_some (h : v.Evolution key passages row stored)
    (hstrict : v.isStrict = false) (value : Bytes) : stored (some value) = .empty key := by
  induction h with
  | start => rfl
  | @step passages before stored now after intents h hstep ih =>
    change Intent.written intents ⟨key, some value⟩ (stored (some value)) = .empty key
    rw [ih]
    have hne {r : Row} : v.rowKey? r now ≠ some ⟨key, some value⟩ := fun hr => by
      cases eq_of_rowKey?_of_not_isStrict hstrict hr
    have houtcome := hstep.outcome ⟨key, some value⟩ (Row.canonical_empty key)
    generalize Intent.written intents ⟨key, some value⟩ (.empty key) = stored' at houtcome ⊢
    cases houtcome with
    | untouched | absent => rfl
    | entered _ hafter => exact absurd hafter hne
    | stayed _ hbefore | left _ hbefore | covered hbefore => exact absurd hbefore hne

end NotStrict

end View

end ViewMaintenance
