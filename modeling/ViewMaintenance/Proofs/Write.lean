import ViewMaintenance.Deletion
import ViewMaintenance.Marker

namespace ViewMaintenance

section Latest

variable {α : Type} [Ord α]

theorem latest_eq_right_iff [Std.OrientedOrd α] [Std.LawfulEqOrd α] {a b : α} :
    latest a b = b ↔ (compare a b).isLE := by
  unfold latest
  cases h : compare a b with
  | lt => simp
  | eq => simpa using Std.LawfulEqCmp.eq_of_compare h
  | gt =>
    simp only [reduceCtorEq, if_false, Ordering.isLE_gt, Bool.false_eq_true, iff_false]
    rintro rfl
    simp [Std.ReflCmp.compare_self] at h

theorem latest_eq_left_of_isLE [Std.OrientedOrd α] [Std.LawfulEqOrd α] {a b : α}
    (h : (compare b a).isLE) : latest a b = a := by
  rw [latest_comm]
  exact latest_eq_right_iff.mpr h

theorem latest?_eq_some {a b : Option α} {x : α} (h : latest? a b = some x) :
    a = some x ∨ b = some x := by
  cases a with
  | none => exact .inr (by simpa using h)
  | some u => cases b with
    | none => exact .inl (by simpa using h)
    | some w =>
      obtain rfl : latest u w = x := by simpa using h
      rcases latest_eq_or u w with hu | hw
      · exact .inl (by rw [hu])
      · exact .inr (by rw [hw])

end Latest

namespace Deletion

@[simp]
theorem covers_none (ts : Timestamp) : covers none ts = false := rfl

@[simp]
theorem covers_some (d : Deletion) (ts : Timestamp) :
    covers (some d) ts = true ↔ ts ≤ d.markedAt := by simp [covers, deletes]

theorem covers_of_le {d : Option Deletion} {a b : Timestamp} (hle : a ≤ b)
    (h : covers d b = true) : covers d a = true := by
  cases d with
  | none => simp at h
  | some x => exact (covers_some x a).mpr (Int64.le_trans hle ((covers_some x b).mp h))

theorem covers_eq_false_iff {d : Option Deletion} {ts : Timestamp} :
    covers d ts = false ↔ ∀ x, d = some x → x.markedAt < ts := by
  cases d with
  | none => simp
  | some x => simp [← Bool.not_eq_true]

theorem latest_markedAt (d e : Deletion) :
    latest d e = e ∧ d.markedAt ≤ e.markedAt ∨ latest d e = d ∧ e.markedAt ≤ d.markedAt := by
  rcases Int64.le_total d.markedAt e.markedAt with h | h
  · refine .inl ⟨latest_eq_right_iff.mpr ?_, h⟩
    exact (Std.LawfulOrderOrd.isLE_compare d.markedAt e.markedAt).mpr h
  · refine .inr ⟨latest_eq_left_of_isLE ?_, h⟩
    exact (Std.LawfulOrderOrd.isLE_compare e.markedAt d.markedAt).mpr h

/-- Two deletions together delete what either of them does. -/
theorem covers_latest? (d e : Option Deletion) (ts : Timestamp) :
    covers (latest? d e) ts = true ↔ covers d ts = true ∨ covers e ts = true := by
  cases d with
  | none => simp
  | some x => cases e with
    | none => simp
    | some y =>
      simp only [latest?_some_some, covers_some]
      rcases latest_markedAt x y with ⟨h, hle⟩ | ⟨h, hle⟩ <;> rw [h]
      · exact ⟨.inr, fun hor => hor.elim (fun hx => Int64.le_trans hx hle) id⟩
      · exact ⟨.inl, fun hor => hor.elim id (fun hy => Int64.le_trans hy hle)⟩

theorem covers_of_absorbed {d e : Option Deletion} {ts : Timestamp} (h : latest? d e = e)
    (hd : covers d ts = true) : covers e ts = true := by
  rw [← h]
  exact (covers_latest? d e ts).mpr (.inl hd)

end Deletion

/-- A kind of write to one place of a row, as a cell is to a column and a marker to the row. Of
    two writes the greater one stays. -/
class Write (α : Type) [Ord α] extends Std.TransOrd α, Std.LawfulEqOrd α where
  /-- When the write was made. -/
  time : α → Timestamp
  /-- Whether the write shows at a reference time. -/
  isLive : α → Timestamp → Bool
  /-- The write that takes back everything up to its time. -/
  removal : Timestamp → α
  time_le_of_isLE : ∀ {a b : α}, (compare a b).isLE → time a ≤ time b
  time_removal : ∀ ts, time (removal ts) = ts
  isLive_removal : ∀ ts now, isLive (removal ts) now = false
  isLE_removal : ∀ {a : α} {ts}, time a ≤ ts → (compare a (removal ts)).isLE
  isLive_of_le : ∀ {a : α} {now later}, now ≤ later → isLive a later = true → isLive a now = true

namespace Write

variable {α : Type} [Ord α] [Write α]

theorem time_le_of_latest {a b : α} (h : latest a b = b) : time a ≤ time b :=
  time_le_of_isLE (latest_eq_right_iff.mp h)

theorem latest_eq_right_of_time_lt {a b : α} (h : time a < time b) : latest a b = b := by
  refine (latest_eq_or a b).resolve_left fun ha => ?_
  rw [latest_comm] at ha
  exact Int64.not_le.mpr h (time_le_of_latest ha)

theorem latest_removal {a : α} {ts : Timestamp} (h : time a ≤ ts) :
    latest a (removal ts) = removal ts := latest_eq_right_iff.mpr (isLE_removal h)

/-- What a deletion leaves of a place. -/
def surviving (d : Option Deletion) (w : Option α) : Option α :=
  w.filter fun x => !Deletion.covers d (time x)

/-- What of a place is live at a reference time. -/
def live (now : Timestamp) (w : Option α) : Option α := w.filter (isLive · now)

theorem surviving_eq_some {d : Option Deletion} {w : Option α} {x : α} :
    surviving d w = some x ↔ w = some x ∧ Deletion.covers d (time x) = false := by
  simp [surviving, Option.filter_eq_some_iff]

theorem live_eq_some {now : Timestamp} {w : Option α} {x : α} :
    live now w = some x ↔ w = some x ∧ isLive x now = true := by
  simp [live, Option.filter_eq_some_iff]

@[simp]
theorem surviving_none (d : Option Deletion) : surviving d (none : Option α) = none := rfl

@[simp]
theorem live_none (now : Timestamp) : live now (none : Option α) = none := rfl

theorem surviving_eq_self_iff {d : Option Deletion} {w : Option α} :
    surviving d w = w ↔ ∀ x, w = some x → Deletion.covers d (time x) = false := by
  constructor
  · rintro h x rfl
    exact (surviving_eq_some.mp h).2
  · intro h
    cases w with
    | none => rfl
    | some x => exact surviving_eq_some.mpr ⟨rfl, h x rfl⟩

theorem surviving_of_covers {d : Option Deletion} {x : α}
    (h : Deletion.covers d (time x) = true) : surviving d (some x) = none := by
  cases hs : surviving d (some x) with
  | none => rfl
  | some y =>
    obtain ⟨hy, hcov⟩ := surviving_eq_some.mp hs
    obtain rfl := Option.some.inj hy
    rw [h] at hcov
    cases hcov

theorem covers_of_surviving_eq_none {d : Option Deletion} {x : α}
    (h : surviving d (some x) = none) : Deletion.covers d (time x) = true := by
  cases hx : Deletion.covers d (time x) with
  | true => rfl
  | false =>
    have hkeep : surviving d (some x) = some x := surviving_eq_some.mpr ⟨rfl, hx⟩
    rw [hkeep] at h
    cases h

theorem live_eq_none {now : Timestamp} {w : Option α} (h : ∀ x, w = some x → isLive x now = false) :
    live now w = none := by
  refine Option.eq_none_iff_forall_ne_some.mpr fun x hx => ?_
  obtain ⟨hw, hlive⟩ := live_eq_some.mp hx
  rw [h x hw] at hlive
  cases hlive

theorem live_surviving (d : Option Deletion) (now : Timestamp) (w : Option α) :
    live now (surviving d w) = surviving d (live now w) := by
  apply Option.ext
  intro x
  rw [live_eq_some, surviving_eq_some, surviving_eq_some, live_eq_some, and_right_comm]

/-- A write that is not deleted wins against everything that its place absorbs. -/
theorem latest?_eq_of_absorbed {d : Option Deletion} {x : α} {w : Option α}
    (h : surviving d (latest? (some x) w) = some x) :
    latest? w (some x) = some x := by
  rw [latest?_comm]
  exact (surviving_eq_some.mp h).1

theorem surviving_surviving (d e : Option Deletion) (w : Option α) :
    surviving e (surviving d w) = surviving (latest? d e) w := by
  apply Option.ext
  intro x
  simp only [surviving_eq_some]
  have hiff := Deletion.covers_latest? d e (time x)
  cases hd : Deletion.covers d (time x) <;> cases he : Deletion.covers e (time x) <;>
    cases hde : Deletion.covers (latest? d e) (time x) <;> simp_all

/-- A loser that an early deletion drops would not have survived the later one either, so dropping
    it early changes nothing. -/
theorem surviving_latest?_surviving {d e : Option Deletion} (hde : latest? d e = e)
    (a b : Option α) :
    surviving e (latest? (surviving d a) b) = surviving e (latest? a b) := by
  cases a with
  | none => rfl
  | some x =>
    cases hx : Deletion.covers d (time x) with
    | false =>
      have hkeep : surviving d (some x) = some x := surviving_eq_some.mpr ⟨rfl, hx⟩
      rw [hkeep]
    | true =>
      have hxe : Deletion.covers e (time x) = true := Deletion.covers_of_absorbed hde hx
      rw [surviving_of_covers hx, latest?_none_left]
      cases b with
      | none => rw [latest?_none_right, surviving_of_covers hxe, surviving_none]
      | some y =>
        rw [latest?_some_some]
        rcases latest_eq_or x y with hxy | hxy
        · -- The loser `y` is no later than `x` and is deleted with it.
          have hle : time y ≤ time x := time_le_of_latest (by rw [latest_comm]; exact hxy)
          rw [hxy, surviving_of_covers hxe, surviving_of_covers (Deletion.covers_of_le hle hxe)]
        · rw [hxy]

/-- What is live later is the live part of what is live now. -/
theorem live_live {now later : Timestamp} (hle : now ≤ later) (w : Option α) :
    live later (live now w) = live later w := by
  apply Option.ext
  intro x
  simp only [live_eq_some]
  exact ⟨fun h => ⟨h.1.1, h.2⟩, fun h => ⟨⟨h.1, isLive_of_le hle h.2⟩, h.2⟩⟩

theorem live_eq_of_le {now later : Timestamp} (hle : now ≤ later) {a b : Option α}
    (h : live now a = live now b) : live later a = live later b := by
  rw [← live_live hle a, h, live_live hle]

theorem surviving_map {f : α → α} (hf : ∀ x, time (f x) = time x) (d : Option Deletion)
    (w : Option α) : surviving d (w.map f) = (surviving d w).map f := by
  cases w with
  | none => rfl
  | some x => cases hx : Deletion.covers d (time x) <;> simp [surviving, Option.filter, hf, hx]

theorem live_map {f : α → α} {now : Timestamp} (hf : ∀ x, isLive (f x) now = isLive x now)
    (w : Option α) : live now (w.map f) = (live now w).map f := by
  cases w with
  | none => rfl
  | some x => cases hx : isLive x now <;> simp [live, Option.filter, hf, hx]

end Write

theorem latest?_map {α β : Type} [Ord α] [Ord β] {f : α → β}
    (hf : ∀ x y, f (latest x y) = latest (f x) (f y)) (a b : Option α) :
    latest? (a.map f) (b.map f) = (latest? a b).map f := by
  cases a <;> cases b <;> simp [hf]

/-- A map that keeps the order of two writes keeps the winner. -/
theorem latest_map_of_isLE {α β : Type} [Ord α] [Std.OrientedOrd α] [Std.LawfulEqOrd α] [Ord β]
    [Std.OrientedOrd β] [Std.LawfulEqOrd β] {f : α → β} {a b : α}
    (hab : (compare a b).isLE → (compare (f a) (f b)).isLE)
    (hba : (compare b a).isLE → (compare (f b) (f a)).isLE) :
    f (latest a b) = latest (f a) (f b) := by
  rcases latest_eq_or a b with h | h
  · have hle : (compare b a).isLE := latest_eq_right_iff.mp (by rw [latest_comm, h])
    rw [h, latest_eq_left_of_isLE (hba hle)]
  · have hle : (compare a b).isLE := latest_eq_right_iff.mp h
    rw [h, latest_eq_right_iff.mpr (hab hle)]

theorem Expiry.any_isExpired_of_le {e : Option Expiry} {now later : Timestamp} (hle : now ≤ later)
    (h : e.any (·.isExpired now) = true) : e.any (·.isExpired later) = true := by
  cases e with
  | none => cases h
  | some x =>
    simp only [Option.any_some, isExpired, decide_eq_true_eq] at h ⊢
    exact Int64.le_trans h hle

theorem isLE_of_isLE_compareLex {α : Type} {first rest : α → α → Ordering} {a b : α}
    (h : (compareLex first rest a b).isLE) : (first a b).isLE := by
  rw [compareLex, Ordering.isLE_then_iff_or] at h
  rcases h with h | ⟨h, _⟩ <;> simp [h]

/-- What decides between two writes of one time is asked only if their times are equal. -/
theorem isLE_compareLex_timestamp {α : Type} {time : α → Timestamp} {rest : α → α → Ordering}
    {a b : α} (hle : time a ≤ time b) (h : time a = time b → (rest a b).isLE) :
    (compareLex (compareOn time) rest a b).isLE := by
  have hfirst : (compare (time a) (time b)).isLE :=
    (Std.LawfulOrderOrd.isLE_compare (time a) (time b)).mpr hle
  rw [compareLex, Ordering.isLE_then_iff_or]
  rcases Ordering.isLE_iff_eq_lt_or_eq_eq.mp hfirst with hlt | heq
  · exact .inl hlt
  · exact .inr ⟨heq, h (Std.LawfulEqCmp.eq_of_compare heq)⟩

instance : Write Cell where
  time := Cell.timestamp
  isLive := Cell.isLive
  removal := Cell.tombstone
  time_le_of_isLE {a b} h := by
    have hfirst : (compareOn Cell.timestamp a b).isLE := isLE_of_isLE_compareLex h
    exact (Std.LawfulOrderOrd.isLE_compare a.timestamp b.timestamp).mp hfirst
  time_removal _ := rfl
  isLive_removal _ _ := rfl
  isLE_removal {a ts} h := by
    refine isLE_compareLex_timestamp h fun _ => ?_
    obtain ⟨time, value, expiry⟩ := a
    cases value with
    | some v => rfl
    | none => cases expiry <;> rfl
  isLive_of_le {a now later} hle h := by
    simp only [Cell.isLive, Bool.and_eq_true, Bool.not_eq_true', ← Bool.not_eq_true] at h ⊢
    exact ⟨h.1, fun hnow => h.2 (Expiry.any_isExpired_of_le hle hnow)⟩

instance : Write Marker where
  time := Marker.timestamp
  isLive := Marker.isLive
  removal := Marker.withdrawn
  time_le_of_isLE {a b} h := by
    have hfirst : (compareOn Marker.timestamp a b).isLE := isLE_of_isLE_compareLex h
    exact (Std.LawfulOrderOrd.isLE_compare a.timestamp b.timestamp).mp hfirst
  time_removal _ := rfl
  isLive_removal _ _ := rfl
  isLE_removal {a ts} h := by
    refine isLE_compareLex_timestamp h fun _ => ?_
    cases a with
    | live time expiry => rfl
    | withdrawn time => rfl
  isLive_of_le {a now later} hle h := by
    simp only [Marker.isLive, Bool.and_eq_true, Bool.not_eq_true', ← Bool.not_eq_true] at h ⊢
    exact ⟨h.1, fun hnow => h.2 (Expiry.any_isExpired_of_le hle hnow)⟩

end ViewMaintenance
