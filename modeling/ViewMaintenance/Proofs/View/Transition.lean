import ViewMaintenance.Proofs.View.Changes
import ViewMaintenance.Proofs.View.Existence

namespace ViewMaintenance

open Write

theorem Row.Absorbs.trans {a b c : Row} (hab : a.Absorbs b) (hbc : b.Absorbs c)
    (hkey : a.key = b.key) : a.Absorbs c := by
  have hjoin : (a.join b).join c = a.join (b.join c) := Row.join_assoc hkey
  rw [show a.join b = a from hab, show b.join c = b from hbc] at hjoin
  exact hjoin.trans hab

theorem Row.Agrees.trans {t : Timestamp} {a b c : Row} (hab : a.Agrees t b) (hbc : b.Agrees t c) :
    a.Agrees t c :=
  ⟨hab.marker.trans hbc.marker, fun column => (hab.cell column).trans (hbc.cell column)⟩

namespace View

/-- What an accepted mutation does to one base row, with the intents of the view for it. -/
inductive Transition (v : View) (now : Timestamp) : Row → Row → List Intent → Prop
  /-- A fragment is merged into the row. -/
  | merged (d : Delta) (hnow : d.now = now) (hbefore : d.before.Canonical)
      (habsorbs : d.after.Absorbs d.before) (hknown : v.unknownColumn? d.after = none) :
      Transition v now d.before d.after (v.intents (v.rowKey? d.before now) (v.rowKey? d.after now) d)
  /-- A deletion covers the row. -/
  | covered {r : Row} (hrow : r.Canonical) (x : Deletion) :
      Transition v now r (r.shadow (some x))
        ((v.rowKey? r now).toList.map (.deleteRow · x.markedAt .regular))
  /-- The mutation does not concern the row. -/
  | untouched {r : Row} (hrow : r.Canonical) : Transition v now r r []

/-- What becomes of one view row while its base row changes. Every invariant of runs is proved by
    cases on that. -/
inductive Outcome (v : View) (now : Timestamp) (id : ViewKey) (stored : Row) : Row → Row → Row → Prop
  /-- The base row stays as it is. -/
  | untouched {r : Row} : Outcome v now id stored r r stored
  /-- The base row does not map to the view row, neither before nor after. -/
  | absent {before after : Row} (hbefore : v.rowKey? before now ≠ some id)
      (hafter : v.rowKey? after now ≠ some id) : Outcome v now id stored before after stored
  /-- The base row comes to map to the view row, which gets the full image. -/
  | entered {before after : Row} (hbefore : v.rowKey? before now ≠ some id)
      (hafter : v.rowKey? after now = some id) :
      Outcome v now id stored before after (stored.join ((v.fullImage after).fragment id.base))
  /-- The base row goes on to map to the view row, which gets the scoped changes. -/
  | stayed {d : Delta} (hnow : d.now = now) (hbefore : v.rowKey? d.before now = some id)
      (hafter : v.rowKey? d.after now = some id) :
      Outcome v now id stored d.before d.after
        (stored.join ((v.scopedChanges d none).fragment id.base))
  /-- The base row no longer maps to the view row, which is taken back. -/
  | left {d : Delta} (hnow : d.now = now) (hbefore : v.rowKey? d.before now = some id)
      (hafter : v.rowKey? d.after now ≠ some id) :
      Outcome v now id stored d.before d.after (Intent.written (v.retraction d id) id stored)
  /-- A deletion covers the base row, and the view row is deleted. -/
  | covered {before : Row} {x : Deletion} (hbefore : v.rowKey? before now = some id) :
      Outcome v now id stored before (before.shadow (some x))
        (stored.join (.ofDeletion id.base (some x)))

variable {v : View} {now : Timestamp} {before after : Row} {intents : List Intent}

theorem Transition.canonical_before (h : v.Transition now before after intents) :
    before.Canonical := by
  cases h with
  | merged _ _ hbefore => exact hbefore
  | covered hrow | untouched hrow => exact hrow

theorem Transition.key_eq (h : v.Transition now before after intents) : after.key = before.key := by
  cases h with
  | merged d => exact d.key_eq.symm
  | covered | untouched => rfl

theorem Transition.absorbs (h : v.Transition now before after intents) : after.Absorbs before := by
  cases h with
  | merged _ _ _ habsorbs => exact habsorbs
  | covered hrow x => exact hrow.absorbs_self.shadow rfl _
  | untouched hrow => exact hrow.absorbs_self

theorem Transition.canonical_after (h : v.Transition now before after intents) :
    after.Canonical := h.absorbs.canonical

/-- A view row is taken back by the new row deletion and, where this does not reach the change, by a
    withdrawal of the marker or, if no column is promoted, by the scoped changes. -/
theorem mem_retraction_iff {d : Delta} {id : ViewKey} {i : Intent} : i ∈ v.retraction d id ↔
    (∃ x, d.newDeletion? = some x ∧ i = .deleteRow id x.markedAt .regular) ∨
      (∃ p change, v.promoted = some p ∧ d.column? p = some change ∧
        Deletion.covers d.newDeletion? change.time = false ∧
          i = .deleteRow id change.time .shadowable) ∨
      v.promoted = none ∧ i ∈ (v.scopedChanges d d.newDeletion?).intents id := by
  have hdeletion : (i ∈ d.newDeletion?.toList.map fun x => Intent.deleteRow id x.markedAt .regular) ↔
      ∃ x, d.newDeletion? = some x ∧ i = .deleteRow id x.markedAt .regular := by
    simp [eq_comm]
  rw [retraction, List.mem_append, hdeletion]
  refine or_congr_right ?_
  cases hp : v.promoted with
  | none => simp
  | some p =>
    cases hchange : d.column? p with
    | none => simp [hchange]
    | some change =>
      cases hcovers : Deletion.covers d.newDeletion? change.time <;> simp [hchange, hcovers]

/-- A change makes the full image of a view row that the base row comes to map to, the scoped changes
    of one that it goes on to map to, and the retraction of one that it leaves. -/
theorem mem_intents_iff {d : Delta} {before after : Option ViewKey} {i : Intent} :
    i ∈ v.intents before after d ↔
      (∃ id, after = some id ∧ before ≠ some id ∧ i ∈ (v.fullImage d.after).intents id) ∨
      (∃ id, after = some id ∧ before = some id ∧ i ∈ (v.scopedChanges d none).intents id) ∨
      ∃ id, before = some id ∧ after ≠ some id ∧ i ∈ v.retraction d id := by
  cases before with
  | none => cases after <;> simp [View.intents]
  | some old =>
    cases after with
    | none => simp [View.intents]
    | some new =>
      by_cases hsame : old = new
      · simp [View.intents, hsame]
      · simp [View.intents, hsame, Ne.symm hsame, or_comm]

theorem row_of_mem_retraction {d : Delta} {id : ViewKey} {i : Intent}
    (h : i ∈ v.retraction d id) : i.row = id := by
  rcases mem_retraction_iff.mp h with ⟨_, _, rfl⟩ | ⟨_, _, _, _, _, rfl⟩ | ⟨_, h⟩
  · rfl
  · rfl
  · exact Changes.row_of_mem_intents h

/-- The intents for a change are for the view rows that the base row maps to before and after. -/
theorem row_of_mem_intents {d : Delta} {before after : Option ViewKey} {i : Intent}
    (h : i ∈ v.intents before after d) : before = some i.row ∨ after = some i.row := by
  rcases mem_intents_iff.mp h with ⟨id, hid, _, h⟩ | ⟨id, hid, _, h⟩ | ⟨id, hid, _, h⟩
  · exact .inr (by rw [Changes.row_of_mem_intents h, hid])
  · exact .inr (by rw [Changes.row_of_mem_intents h, hid])
  · exact .inl (by rw [row_of_mem_retraction h, hid])

theorem written_retraction_of_ne {d : Delta} {old id : ViewKey} (hne : old ≠ id) (stored : Row) :
    Intent.written (v.retraction d old) id stored = stored :=
  Intent.written_of_forall_ne (fun _ hi => by rwa [row_of_mem_retraction hi]) stored

theorem written_fullImage_of_ne {r : Row} {new id : ViewKey} (hne : new ≠ id) (stored : Row) :
    Intent.written ((v.fullImage r).intents new) id stored = stored :=
  Intent.written_of_forall_ne (fun _ hi => by rwa [Changes.row_of_mem_intents hi]) stored

theorem outcome_of_merged {d : Delta} (hnow : d.now = now) (id : ViewKey) {stored : Row}
    (hstored : stored.Canonical) :
    v.Outcome now id stored d.before d.after (Intent.written
      (v.intents (v.rowKey? d.before now) (v.rowKey? d.after now) d) id stored) := by
  by_cases hbefore : v.rowKey? d.before now = some id <;>
    by_cases hafter : v.rowKey? d.after now = some id
  · rw [hbefore, hafter, View.intents, if_pos rfl, Changes.written_intents plain_scopedChanges hstored]
    exact .stayed hnow hbefore hafter
  · have hwritten : Intent.written (v.intents (some id) (v.rowKey? d.after now) d) id stored =
        Intent.written (v.retraction d id) id stored := by
      cases hnew : v.rowKey? d.after now with
      | none => rfl
      | some new =>
        have hne : new ≠ id := fun heq => hafter (heq ▸ hnew)
        rw [View.intents, if_neg hne.symm, Intent.written_append, written_fullImage_of_ne hne]
    rw [hbefore, hwritten]
    exact .left hnow hbefore hafter
  · have hwritten : Intent.written (v.intents (v.rowKey? d.before now) (some id) d) id stored =
        stored.join ((v.fullImage d.after).fragment id.base) := by
      rw [← Changes.written_intents (v.plain_fullImage d.after) hstored]
      cases hold : v.rowKey? d.before now with
      | none => rfl
      | some old =>
        have hne : old ≠ id := fun heq => hbefore (heq ▸ hold)
        rw [View.intents, if_neg hne, Intent.written_append, written_retraction_of_ne hne]
    rw [hafter, hwritten]
    exact .entered hbefore hafter
  · have hother : ∀ i ∈ v.intents (v.rowKey? d.before now) (v.rowKey? d.after now) d, i.row ≠ id := by
      rintro i hi rfl
      exact (row_of_mem_intents hi).elim hbefore hafter
    rw [Intent.written_of_forall_ne hother]
    exact .absent hbefore hafter

/-- What a transition does to a view row. -/
theorem Transition.outcome (h : v.Transition now before after intents) (id : ViewKey) {stored : Row}
    (hstored : stored.Canonical) :
    v.Outcome now id stored before after (Intent.written intents id stored) := by
  cases h with
  | merged d hnow => exact outcome_of_merged hnow id hstored
  | untouched => exact .untouched
  | covered hrow x =>
    by_cases hid : v.rowKey? before now = some id
    · have hwritten : Intent.written [.deleteRow id x.markedAt .regular] id stored =
          stored.join (.ofDeletion id.base (some x)) := Intent.written_singleton rfl stored
      rw [hid, Option.toList_some, List.map_singleton, hwritten]
      exact .covered hid
    · have hnone : ∀ i ∈ (v.rowKey? before now).toList.map
          (Intent.deleteRow · x.markedAt .regular), i.row ≠ id := by
        intro i hi
        obtain ⟨old, hold, rfl⟩ := List.mem_map.mp hi
        rintro rfl
        exact hid (Option.mem_toList.mp hold)
      rw [Intent.written_of_forall_ne hnone]
      exact .absent hid fun hafter => hid (rowKey?_of_shadow hafter)

section Retraction

variable {d : Delta} {id : ViewKey} {stored : Row}

theorem written_deleteRow (hstored : stored.Canonical) (x : Option Deletion) :
    Intent.written (x.toList.map fun x => Intent.deleteRow id x.markedAt .regular) id stored =
      stored.join (.ofDeletion id.base x) := by
  cases x with
  | none => exact (hstored.join_empty id.base).symm
  | some x => exact Intent.written_singleton rfl stored

/-- A view row of a view without promoted column is taken back by the scoped changes. -/
theorem written_retraction_of_not_isStrict (hstrict : v.isStrict = false)
    (hstored : stored.Canonical) :
    Intent.written (v.retraction d id) id stored = stored.join
      ({ v.scopedChanges d d.newDeletion? with deletion := d.newDeletion? }.fragment id.base) := by
  have hpromoted : v.promoted = none := by simpa [isStrict] using hstrict
  have hoverlay : (Row.ofDeletion id.base d.newDeletion?).overlay
      ((v.scopedChanges d d.newDeletion?).fragment id.base) =
        { v.scopedChanges d d.newDeletion? with deletion := d.newDeletion? }.fragment id.base := by
    refine Row.ext_cell? rfl (latest?_none_left _) (latest?_none_right _) fun c => ?_
    rw [Row.cell?_overlay]
    exact latest?_none_left _
  simp only [retraction, hpromoted]
  rw [Intent.written_append, written_deleteRow hstored,
    Changes.written_intents plain_scopedChanges (Row.canonical_join _ _), Row.join_join, hoverlay]

/-- A view row of a view with promoted column is taken back by the row deletion and, where this does
    not reach the change of the promoted column, by the withdrawal of the marker. -/
theorem written_retraction_of_promoted {p : String} (hp : v.promoted = some p)
    (hstored : stored.Canonical) :
    Intent.written (v.retraction d id) id stored =
      match d.column? p with
      | some change =>
        if Deletion.covers d.newDeletion? change.time then
          stored.join (.ofDeletion id.base d.newDeletion?)
        else (stored.join (.ofDeletion id.base d.newDeletion?)).join
          ((Row.empty id.base).withMarker (.withdrawn change.time))
      | none => stored.join (.ofDeletion id.base d.newDeletion?) := by
  simp only [retraction, hp]
  rw [Intent.written_append, written_deleteRow hstored]
  cases d.column? p with
  | none => rfl
  | some change =>
    simp only
    split
    · rfl
    · exact Intent.written_singleton rfl _

@[simp]
theorem unmarked_ofDeletion (key : RowKey) (x : Option Deletion) :
    v.unmarked (.ofDeletion key x) = .ofDeletion key x := by
  simp [unmarked, Row.ofDeletion, Row.empty]

/-- Apart from the marker, taking back a strict view row writes the row deletion only. -/
theorem unmarked_written_retraction {p : String} (hp : v.promoted = some p)
    (hstored : stored.Canonical) :
    v.unmarked (Intent.written (v.retraction d id) id stored) =
      (v.unmarked stored).join (.ofDeletion id.base d.newDeletion?) := by
  have hstrict : v.isStrict = true := by simp [isStrict, hp]
  have hwithdrawn (time : Timestamp) :
      v.unmarked ((Row.empty id.base).withMarker (.withdrawn time)) = .empty id.base := by
    simp [unmarked, Row.withMarker, Row.empty, hstrict]
  rw [written_retraction_of_promoted hp hstored]
  split
  · split
    · rw [unmarked_join, unmarked_ofDeletion]
    · rw [unmarked_join, unmarked_join, unmarked_ofDeletion, hwithdrawn,
        (Row.canonical_join _ _).join_empty]
  · rw [unmarked_join, unmarked_ofDeletion]

end Retraction

theorem absorbs_newDeletion? {d : Delta} (hcanonical : d.after.Canonical) (key : RowKey) :
    (v.image d.after).Absorbs (.ofDeletion key d.newDeletion?) := by
  have hle : latest? d.newDeletion? d.after.deletion = d.after.deletion := by
    rcases d.newDeletion?_eq with h | h <;> simp [h]
  exact (v.canonical_image hcanonical).absorbs_ofDeletion key hle

theorem absorbs_image {a b : Row} (h : a.Absorbs b) : (v.image a).Absorbs (v.image b) := by
  rw [Row.Absorbs, ← image_join, show a.join b = a from h]

/-- What a transition writes to a view row is absorbed by the new state of the base row. -/
theorem Transition.exists_fragment (h : v.Transition now before after intents) {id : ViewKey}
    {stored : Row} (hstored : stored.Canonical) :
    v.unmarked (Intent.written intents id stored) = v.unmarked stored ∨
      ∃ f, v.unmarked (Intent.written intents id stored) = (v.unmarked stored).join f ∧
        (v.image after).Absorbs f := by
  have hafter : (v.image after).Canonical := v.canonical_image h.canonical_after
  have hcanonical := h.canonical_after
  have habsorbs := h.absorbs
  have houtcome := h.outcome id hstored
  clear h
  generalize Intent.written intents id stored = stored' at houtcome ⊢
  cases houtcome with
  | untouched | absent => exact .inl rfl
  | entered =>
    refine .inr ⟨_, v.unmarked_join _ _, ?_⟩
    exact (v.carries_fullImage now before after id.base).absorbs hafter
  | stayed =>
    refine .inr ⟨_, v.unmarked_join _ _, ?_⟩
    exact (carries_scopedChanges hcanonical habsorbs (.inl rfl) id.base).absorbs hafter
  | @left d =>
    cases hp : v.promoted with
    | some p =>
      exact .inr ⟨_, unmarked_written_retraction hp hstored, absorbs_newDeletion? hcanonical id.base⟩
    | none =>
      have hstrict : v.isStrict = false := by simp [isStrict, hp]
      rw [written_retraction_of_not_isStrict hstrict hstored]
      refine .inr ⟨_, v.unmarked_join _ _, ?_⟩
      exact (carries_scopedChanges hcanonical habsorbs d.newDeletion?_eq id.base).absorbs hafter
  | @covered _ x =>
    refine .inr ⟨_, v.unmarked_join _ _, ?_⟩
    rw [unmarked_ofDeletion, image_shadow]
    exact Row.absorbs_ofDeletion_shadow _ _ _

/-- No view row comes to hold what its base row would not absorb. -/
theorem Transition.absorbs_unmarked (h : v.Transition now before after intents) {id : ViewKey}
    {stored : Row} (hstored : stored.Canonical) (hkey : stored.key = before.key)
    (hbacked : (v.image before).Absorbs (v.unmarked stored)) :
    (v.image after).Absorbs (v.unmarked (Intent.written intents id stored)) := by
  have hold : (v.image after).Absorbs (v.unmarked stored) :=
    (absorbs_image h.absorbs).trans hbacked h.key_eq
  rcases h.exists_fragment hstored with hsame | ⟨f, hwritten, hf⟩
  · rw [hsame]
    exact hold
  · rw [hwritten]
    exact hold.join_right hf (h.key_eq.trans hkey.symm)

end View

end ViewMaintenance
