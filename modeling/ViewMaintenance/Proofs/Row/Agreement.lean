import ViewMaintenance.Proofs.Row.Join

namespace ViewMaintenance

namespace Write

variable {α : Type} [Ord α] [Write α]

theorem surviving_of_le {d e : Option Deletion} (hle : latest? d e = e) {w : Option α}
    (hw : surviving e w = w) : surviving d w = w := by
  rw [← hw, surviving_surviving, latest?_comm, hle]

/-- What is written for one place of a row that has changed from `before` to `after` and then has
    the deletion `deletion`. The deletion `along` goes along. -/
inductive Emission (now : Timestamp) (deletion along : Option Deletion) (before after : Option α) :
    Option α → Prop
  /-- The same is live before and after. -/
  | kept (h : live now before = live now after) : Emission now deletion along before after none
  /-- The place has a write, and this write is written. -/
  | written {x : α} (h : after = some x) : Emission now deletion along before after (some x)
  /-- The row deletion has emptied the place, and a removal of its time is written. -/
  | removed {d : Deletion} (hd : deletion = some d) (h : after = none) :
      Emission now deletion along before after (some (removal d.markedAt))
  /-- The row deletion has emptied the place and goes along. -/
  | covered (hd : along = deletion) (h : after = none) :
      Emission now deletion along before after none
  /-- The deletion that goes along is all that has changed the place. -/
  | deleted (h : after = surviving along before) : Emission now deletion along before after none

section Emission

variable {now : Timestamp} {deletion along : Option Deletion} {before after w : Option α}

/-- What is written for a place is the write that it has, or a removal if it has none. -/
theorem Emission.of_some {x : α} (h : Emission now deletion along before after (some x)) :
    after = some x ∨ after = none ∧ ∃ d, deletion = some d ∧ x = removal d.markedAt := by
  cases h with
  | written h => exact .inl h
  | removed hd h => exact .inr ⟨h, _, hd, rfl⟩

/-- What is written for a place is absorbed by the place. -/
theorem Emission.absorbed (h : Emission now deletion along before after w)
    (hafter : surviving deletion after = after) :
    surviving deletion (latest? after w) = after := by
  cases h with
  | kept | covered | deleted => rwa [latest?_none_right]
  | written h => rw [h, latest?_self, ← h, hafter]
  | @removed d hd h =>
    rw [h, latest?_none_left]
    refine surviving_of_covers ?_
    rw [hd, Deletion.covers_some, time_removal]
    exact Int64.le_refl _

/-- A copy of a place that showed the same as the place before shows the same after the write. -/
theorem Emission.live_eq (h : Emission now deletion along before after w)
    {stored : Option α} {reached : Option Deletion} {t : Timestamp} (hle : now ≤ t)
    (hafter : surviving deletion after = after) (hreached : latest? reached deletion = deletion)
    (halong : latest? along deletion = deletion)
    (habsorbed : surviving deletion (latest? after stored) = after)
    (hbefore : live t stored = live t before) :
    live t (surviving (latest? reached along) (latest? stored w)) = live t after := by
  have hboth : latest? (latest? reached along) deletion = deletion := by
    rw [latest?_assoc, halong, hreached]
  have hkeep : surviving (latest? reached along) after = after := surviving_of_le hboth hafter
  cases h with
  | kept h =>
    have hlive : live t stored = live t after := hbefore.trans (live_eq_of_le hle h)
    rw [latest?_none_right, live_surviving, hlive, ← live_surviving, hkeep]
  | @written x h =>
    have hwins : latest? stored (some x) = some x := by
      rw [h] at habsorbed
      exact latest?_eq_of_absorbed habsorbed
    rw [hwins, ← h, hkeep]
  | @removed d hd h =>
    have hstored : surviving deletion stored = none := by
      rwa [h, latest?_none_left] at habsorbed
    have hwins : latest? stored (some (removal d.markedAt)) = some (removal d.markedAt) := by
      cases stored with
      | none => rfl
      | some y =>
        have hy : time y ≤ d.markedAt := by
          rw [← Deletion.covers_some, ← hd]
          exact covers_of_surviving_eq_none hstored
        rw [latest?_some_some, latest_removal hy]
    rw [hwins, h, live_none]
    refine live_eq_none fun x hx => ?_
    obtain rfl := Option.some.inj (surviving_eq_some.mp hx).1
    exact isLive_removal _ _
  | covered hd h =>
    have hstored : surviving deletion stored = none := by
      rwa [h, latest?_none_left] at habsorbed
    rw [latest?_none_right, hd, hreached, hstored, h]
  | deleted h =>
    have hdropped : surviving reached after = after := surviving_of_le hreached hafter
    rw [latest?_none_right, live_surviving, hbefore, latest?_comm, ← surviving_surviving,
      ← live_surviving along, ← h, ← live_surviving, hdropped]

end Emission

end Write

namespace Row

open Write

/-- Both rows show the same at a reference time. They need not hold the same. -/
structure Agrees (t : Timestamp) (a b : Row) : Prop where
  marker : live t a.marker = live t b.marker
  cell : ∀ c, live t (a.cell? c) = live t (b.cell? c)

theorem Agrees.refl (t : Timestamp) (a : Row) : a.Agrees t a := ⟨rfl, fun _ => rfl⟩

theorem Agrees.of_le {a b : Row} {now t : Timestamp} (h : a.Agrees now b) (hle : now ≤ t) :
    a.Agrees t b := ⟨live_eq_of_le hle h.marker, fun c => live_eq_of_le hle (h.cell c)⟩

/-- A fragment is what has to be written for the change of a row. -/
structure Carries (now : Timestamp) (before after f : Row) : Prop where
  deletion : latest? f.deletion after.deletion = after.deletion
  marker : Emission now after.deletion f.deletion before.marker after.marker f.marker
  cell : ∀ c, Emission now after.deletion f.deletion (before.cell? c) (after.cell? c) (f.cell? c)

/-- A row absorbs what is written for its change. -/
theorem Carries.absorbs {now : Timestamp} {before after f : Row}
    (h : Carries now before after f) (hafter : after.Canonical) : after.Absorbs f :=
  absorbs_of_places h.deletion (h.marker.absorbed hafter.marker) fun c =>
    (h.cell c).absorbed (hafter.cell? c)

/-- A copy that agrees with a row, and holds nothing that the row would not absorb, agrees with the
    changed row once the fragment is written. -/
theorem Carries.agrees {now t : Timestamp} {before after f copy : Row}
    (h : Carries now before after f) (hle : now ≤ t) (habsorbs : after.Absorbs copy)
    (hcopy : copy.Agrees t before) : (copy.join f).Agrees t after := by
  have hafter : after.Canonical := habsorbs.canonical
  constructor
  · exact h.marker.live_eq hle hafter.marker habsorbs.deletion h.deletion habsorbs.marker hcopy.marker
  · intro c
    rw [cell?_join_eq]
    exact (h.cell c).live_eq hle (hafter.cell? c) habsorbs.deletion h.deletion (habsorbs.cell? c)
      (hcopy.cell c)

/-- If a deletion is all that has changed a row, it is enough to write this deletion. -/
theorem carries_shadow {before : Row} (now : Timestamp) (key : RowKey)
    (d : Option Deletion) (hbefore : before.Canonical) :
    Carries now before (before.shadow d) (ofDeletion key d) where
  deletion := by
    change latest? d (latest? before.deletion d) = latest? before.deletion d
    rw [latest?_comm before.deletion, ← latest?_assoc, latest?_self]
  marker := by
    refine .deleted ?_
    change surviving (latest? before.deletion d) before.marker = surviving d before.marker
    rw [← surviving_surviving, hbefore.marker]
  cell c := by
    refine .deleted ?_
    rw [cell?_shadow]
    change surviving (latest? before.deletion d) (before.cell? c) = surviving d (before.cell? c)
    rw [← surviving_surviving, hbefore.cell?]

end Row

end ViewMaintenance
