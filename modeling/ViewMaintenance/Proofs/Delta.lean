import ViewMaintenance.Delta
import ViewMaintenance.Proofs.Row.Join

namespace ViewMaintenance

namespace Write

variable {α γ : Type} [Ord α] [Write α] [DecidableEq α]

/-- The change of a place. A loss has the time of the write that took the place of the lost one, or of
    the row deletion that dropped it. -/
def change (gained lost : Timestamp → γ) (replaced : Timestamp → Timestamp → γ)
    (deletion : Option Deletion) (now : Timestamp) (before after : Option α) : Option γ :=
  match live now before, live now after with
  | none, none => none
  | none, some a => some (gained (time a))
  | some b, none =>
    some (lost (((after.map time).or (deletion.map Deletion.markedAt)).getD (time b)))
  | some b, some a => if b = a then none else some (replaced (time b) (time a))

/-- What is reported of a place says which of its live writes has come and which is gone, and of a
    write that has come it says the time. -/
structure Classified (gained lost : Timestamp → γ) (replaced : Timestamp → Timestamp → γ)
    (reported : Option γ) (before after : Option α) : Prop where
  unchanged : before = after → reported = none
  gained : ∀ a, before = none → after = some a → reported = some (gained (time a))
  lost : ∀ b, before = some b → after = none → ∃ since, reported = some (lost since)
  replaced : ∀ b a, before = some b → after = some a → b ≠ a →
    reported = some (replaced (time b) (time a))

variable (gained lost : Timestamp → γ) (replaced : Timestamp → Timestamp → γ)
  (deletion : Option Deletion) (now : Timestamp) (before after : Option α)

theorem change_cases :
    change gained lost replaced deletion now before after = none ∧ live now before = live now after ∨
    (∃ a, live now after = some a ∧
      (change gained lost replaced deletion now before after = some (gained (time a)) ∧
          live now before = none ∨
        ∃ b, change gained lost replaced deletion now before after = some (replaced (time b) (time a)) ∧
          live now before = some b ∧ b ≠ a)) ∨
    ∃ b, live now before = some b ∧ live now after = none ∧
      change gained lost replaced deletion now before after = some (lost
        (((after.map time).or (deletion.map Deletion.markedAt)).getD (time b))) := by
  unfold change
  cases hb : live now before with
  | none =>
    cases ha : live now after with
    | none => exact .inl ⟨rfl, rfl⟩
    | some a => exact .inr (.inl ⟨a, rfl, .inl ⟨rfl, rfl⟩⟩)
  | some b =>
    cases ha : live now after with
    | none => exact .inr (.inr ⟨b, rfl, rfl, rfl⟩)
    | some a =>
      by_cases heq : b = a
      · exact .inl ⟨if_pos heq, by rw [heq]⟩
      · exact .inr (.inl ⟨a, rfl, .inr ⟨b, if_neg heq, rfl, heq⟩⟩)

/-- A place has not changed if the same is live before and after. -/
theorem change_eq_none_iff : change gained lost replaced deletion now before after = none ↔
    live now before = live now after := by
  rcases change_cases gained lost replaced deletion now before after with
    ⟨hnone, hlive⟩ | ⟨a, ha, ⟨hchange, hb⟩ | ⟨b, hchange, hb, hne⟩⟩ | ⟨b, hb, ha, hchange⟩
  · simp [hnone, hlive]
  · simp [hchange, ha, hb]
  · simp [hchange, ha, hb, hne]
  · simp [hchange, ha, hb]

theorem classified_change : Classified gained lost replaced
    (change gained lost replaced deletion now before after) (live now before) (live now after) where
  unchanged := (change_eq_none_iff gained lost replaced deletion now before after).mpr
  gained a hb ha := by
    rw [change, hb, ha]
  lost b hb ha := by
    rw [change, hb, ha]
    exact ⟨_, rfl⟩
  replaced b a hb ha hne := by
    rw [change, hb, ha]
    exact if_neg hne

/-- A write that a place has lost without another one was reached by the row deletion. -/
theorem exists_deletion_of_dropped {α : Type} [Ord α] [Write α] {deletion : Option Deletion} {b : α}
    (hslot : surviving deletion (latest? none (some b)) = none) :
    ∃ x, deletion = some x ∧ time b ≤ x.markedAt := by
  rw [latest?_none_left] at hslot
  have hcovers := covers_of_surviving_eq_none hslot
  cases deletion with
  | none => cases hcovers
  | some x => exact ⟨x, rfl, (Deletion.covers_some x _).mp hcovers⟩

end Write

open Write

theorem ColumnChange.between_eq (deletion : Option Deletion) (now : Timestamp)
    (before after : Option Cell) : between deletion now before after =
      change .becameLive .becameDead .valueChanged deletion now before after := by
  have hlive (w : Option Cell) : w.filter (·.isLive now) = live now w := rfl
  rw [between, change, hlive, hlive]
  cases live now before <;> cases live now after <;> rfl

theorem MarkerChange.between_eq (deletion : Option Deletion) (now : Timestamp)
    (before after : Option Marker) : between deletion now before after =
      change .appeared .disappeared .timestampChanged deletion now before after := by
  have hlive (w : Option Marker) : w.filter (·.isLive now) = live now w := rfl
  rw [between, change, hlive, hlive]
  cases live now before <;> cases live now after <;> rfl

namespace Delta

/-- The columns of a delta are its changes column by column. -/
theorem get?_columns (d : Delta) (column : String) : d.columns.get? column = d.column? column :=
  SortedMap.get?_combine (fun _ => rfl) _ _ _

section Cases

variable (d : Delta) (column : String)

theorem column?_eq : d.column? column = change .becameLive .becameDead .valueChanged
    d.after.deletion d.now (d.before.cell? column) (d.after.cell? column) :=
  ColumnChange.between_eq _ _ _ _

theorem marker?_eq : d.marker? = change .appeared .disappeared .timestampChanged
    d.after.deletion d.now d.before.marker d.after.marker := MarkerChange.between_eq _ _ _ _

theorem column?_cases :
    d.column? column = none ∧
        live d.now (d.before.cell? column) = live d.now (d.after.cell? column) ∨
    (∃ a, live d.now (d.after.cell? column) = some a ∧
      (d.column? column = some (.becameLive a.timestamp) ∧
          live d.now (d.before.cell? column) = none ∨
        ∃ b, d.column? column = some (.valueChanged b.timestamp a.timestamp) ∧
          live d.now (d.before.cell? column) = some b ∧ b ≠ a)) ∨
    ∃ b, live d.now (d.before.cell? column) = some b ∧ live d.now (d.after.cell? column) = none ∧
      d.column? column = some (.becameDead ((((d.after.cell? column).map Cell.timestamp).or
        (d.after.deletion.map Deletion.markedAt)).getD b.timestamp)) := by
  rw [column?_eq]
  exact change_cases _ _ _ _ _ _ _

theorem marker?_cases :
    d.marker? = none ∧ live d.now d.before.marker = live d.now d.after.marker ∨
    (∃ a, live d.now d.after.marker = some a ∧
      (d.marker? = some (.appeared a.timestamp) ∧ live d.now d.before.marker = none ∨
        ∃ b, d.marker? = some (.timestampChanged b.timestamp a.timestamp) ∧
          live d.now d.before.marker = some b ∧ b ≠ a)) ∨
    ∃ b, live d.now d.before.marker = some b ∧ live d.now d.after.marker = none ∧
      d.marker? = some (.disappeared (((d.after.marker.map Marker.timestamp).or
        (d.after.deletion.map Deletion.markedAt)).getD b.timestamp)) := by
  rw [marker?_eq]
  exact change_cases _ _ _ _ _ _ _

end Cases

theorem column?_eq_none_iff {d : Delta} {column : String} : d.column? column = none ↔
    live d.now (d.before.cell? column) = live d.now (d.after.cell? column) := by
  rw [column?_eq]
  exact change_eq_none_iff _ _ _ _ _ _ _

theorem marker?_eq_none_iff {d : Delta} : d.marker? = none ↔
    live d.now d.before.marker = live d.now d.after.marker := by
  rw [marker?_eq]
  exact change_eq_none_iff _ _ _ _ _ _ _

/-- A column that has the same cell before and after has not changed. -/
theorem column?_of_eq {d : Delta} {column : String}
    (h : d.before.cell? column = d.after.cell? column) : d.column? column = none :=
  column?_eq_none_iff.mpr (congrArg _ h)

theorem marker?_of_eq {d : Delta} (h : d.before.marker = d.after.marker) : d.marker? = none :=
  marker?_eq_none_iff.mpr (congrArg _ h)

theorem mem_keys_columns_iff {d : Delta} {column : String} : column ∈ d.columns.keys ↔
    live d.now (d.before.cell? column) ≠ live d.now (d.after.cell? column) := by
  rw [SortedMap.mem_keys_iff, get?_columns, Option.isSome_iff_ne_none, ne_eq, column?_eq_none_iff]

theorem isUnchanged_iff {d : Delta} : d.isUnchanged = true ↔
    (∀ column, live d.now (d.before.cell? column) = live d.now (d.after.cell? column)) ∧
      live d.now d.before.marker = live d.now d.after.marker := by
  have hcolumns : d.columns.isEmpty = true ↔ ∀ column, d.column? column = none := by
    rw [SortedMap.isEmpty_iff, SortedMap.eq_empty_iff]
    simp only [get?_columns]
  rw [isUnchanged, Bool.and_eq_true, hcolumns, Option.isNone_iff_eq_none, marker?_eq_none_iff]
  simp only [column?_eq_none_iff]

/-- A new row deletion is the row deletion after the mutation. -/
theorem newDeletion?_eq (d : Delta) :
    d.newDeletion? = none ∨ d.newDeletion? = d.after.deletion := by
  unfold newDeletion?
  split
  · exact .inr rfl
  · exact .inl rfl

/-- A change has the time of the cell that the column then has, or of the row deletion if it then has
    none. -/
theorem column?_time {d : Delta} (habsorbs : d.after.Absorbs d.before) {p : String}
    {change : ColumnChange} (h : d.column? p = some change) :
    (∃ a, d.after.cell? p = some a ∧ change.time = a.timestamp) ∨
      d.after.cell? p = none ∧ ∃ b x, d.before.cell? p = some b ∧ d.after.deletion = some x ∧
        change.time = x.markedAt ∧ b.timestamp ≤ x.markedAt := by
  rcases d.column?_cases p with ⟨hnone, _⟩ | ⟨a, ha, hvalue⟩ | ⟨b, hb, _, hdead⟩
  · rw [hnone] at h
    cases h
  · refine .inl ⟨a, (live_eq_some.mp ha).1, ?_⟩
    rcases hvalue with ⟨hvalue, _⟩ | ⟨_, hvalue, _⟩ <;>
    · rw [hvalue] at h
      rw [← Option.some.inj h, ColumnChange.time]
  · rw [hdead] at h
    rw [← Option.some.inj h, ColumnChange.time]
    cases hafter : d.after.cell? p with
    | some a => exact .inl ⟨a, rfl, rfl⟩
    | none =>
      have hcell : d.before.cell? p = some b := (live_eq_some.mp hb).1
      have hslot := habsorbs.cell? p
      rw [hafter, hcell] at hslot
      obtain ⟨x, hx, hle⟩ := exists_deletion_of_dropped hslot
      rw [hx]
      exact .inr ⟨rfl, b, x, hcell, rfl, rfl, hle⟩

/-- The new row deletion is that of the fragment, if it is later than the one before. -/
theorem newDeletion?_eq_some_iff {d : Delta} {deletion : Option Deletion} {x : Deletion}
    (hafter : d.after.deletion = latest? d.before.deletion deletion) : d.newDeletion? = some x ↔
      deletion = some x ∧ ∀ y, d.before.deletion = some y → y.markedAt < x.markedAt := by
  have hlater (y z : Deletion) : compare y z = .lt ↔ y.markedAt < z.markedAt :=
    Std.compare_eq_lt (a := y.markedAt) (b := z.markedAt)
  have hsame (o : Option Deletion) : compare o o ≠ .lt := by simp [Std.ReflCmp.compare_self]
  have hfirst (y : Deletion) : compare none (some y) = .lt := rfl
  rw [newDeletion?, hafter]
  cases hbefore : d.before.deletion with
  | none =>
    rw [latest?_none_left]
    cases deletion with
    | none => simp
    | some z => simp [hfirst]
  | some y =>
    cases deletion with
    | none => simp
    | some z =>
      have hraised : compare (some y) (latest? (some y) (some z)) = .lt ↔ compare y z = .lt := by
        rw [latest?_some_some, latest]
        split
        · rfl
        next hnot => exact iff_of_false (hsame _) hnot
      simp only [hraised]
      split
      next hlt =>
        rw [latest?_some_some, latest, if_pos hlt]
        refine ⟨fun h => ⟨h, fun w hw => ?_⟩, And.left⟩
        obtain rfl := Option.some.inj h
        obtain rfl := Option.some.inj hw
        exact (hlater y z).mp hlt
      next hnot =>
        refine iff_of_false (Option.some_ne_none x).symm ?_
        rintro ⟨hz, hlt⟩
        obtain rfl := Option.some.inj hz
        exact hnot ((hlater y z).mpr (hlt y rfl))

/-- A row deletion that reaches what was not covered before is new. -/
theorem newDeletion?_of_covers {d : Delta} (habsorbs : d.after.Absorbs d.before) {ts : Timestamp}
    (hkept : Deletion.covers d.before.deletion ts = false)
    (hcovers : Deletion.covers d.after.deletion ts = true) : d.newDeletion? = d.after.deletion := by
  cases hx : d.after.deletion with
  | none =>
    rw [hx] at hcovers
    cases hcovers
  | some x =>
    rw [hx, Deletion.covers_some] at hcovers
    refine (newDeletion?_eq_some_iff habsorbs.deletion.symm).mpr ⟨hx, fun y hy => ?_⟩
    exact Int64.lt_of_lt_of_le (Deletion.covers_eq_false_iff.mp hkept y hy) hcovers

/-- A change that the new row deletion does not reach has the time of the cell that the column then
    has. -/
theorem exists_cell_of_not_covers {d : Delta} (hbefore : d.before.Canonical)
    (habsorbs : d.after.Absorbs d.before) {p : String} {change : ColumnChange}
    (hchange : d.column? p = some change)
    (hnot : Deletion.covers d.newDeletion? change.time = false) :
    ∃ a, d.after.cell? p = some a ∧ a.timestamp = change.time := by
  rcases column?_time habsorbs hchange with ⟨a, ha, htime⟩ | ⟨_, b, x, hb, hx, htime, hle⟩
  · exact ⟨a, ha, htime.symm⟩
  · have hcovers : Deletion.covers d.after.deletion b.timestamp = true := by
      rw [hx, Deletion.covers_some]
      exact hle
    rw [newDeletion?_of_covers habsorbs (hbefore.not_covers_cell hb) hcovers, hx, htime,
      ← Bool.not_eq_true, Deletion.covers_some] at hnot
    exact absurd (Int64.le_refl _) hnot

section Reports

variable {α : Type} [Ord α] [Write α]

/-- Something live was lost at the time of the write that is in its place now or, if there is none, of
    the row deletion, which is then a new one. -/
def LostAt (d : Delta) (since : Timestamp) (before after : Option α) : Prop :=
  ∃ old, live d.now before = some old ∧ live d.now after = none ∧ time old ≤ since ∧
    match after with
    | some new => since = time new
    | none => ∃ x, d.after.deletion = some x ∧ d.newDeletion? = some x ∧ since = x.markedAt

/-- Something live was replaced by another live write that is no earlier. -/
def ReplacedAt (d : Delta) (old new : Timestamp) (before after : Option α) : Prop :=
  ∃ b a, live d.now before = some b ∧ live d.now after = some a ∧ b ≠ a ∧
    old = time b ∧ new = time a ∧ old ≤ new

/-- The columns that a delta lists are those whose live cells differ, once each and in order, and
    what it reports of a column or of the marker says how the live write there has changed. -/
structure Reports (d : Delta) : Prop where
  increasing : d.columns.keys.Pairwise fun a b => compare a b = .lt
  mem_keys_iff : ∀ column, column ∈ d.columns.keys ↔
    d.before.liveCell? column d.now ≠ d.after.liveCell? column d.now
  get?_columns : ∀ column, d.columns.get? column = d.column? column
  isUnchanged_iff : d.isUnchanged = true ↔
    (∀ column, d.before.liveCell? column d.now = d.after.liveCell? column d.now) ∧
      d.before.liveMarker? d.now = d.after.liveMarker? d.now
  column : ∀ column, Classified .becameLive .becameDead .valueChanged (d.column? column)
    (d.before.liveCell? column d.now) (d.after.liveCell? column d.now)
  marker : Classified .appeared .disappeared .timestampChanged d.marker?
    (d.before.liveMarker? d.now) (d.after.liveMarker? d.now)

/-- No change is reported at an earlier time than that of what it has taken away. -/
structure Dominates (d : Delta) : Prop where
  cell_lost : ∀ {column since}, d.column? column = some (.becameDead since) →
    d.LostAt since (d.before.cell? column) (d.after.cell? column)
  cell_replaced : ∀ {column old new}, d.column? column = some (.valueChanged old new) →
    d.ReplacedAt old new (d.before.cell? column) (d.after.cell? column)
  marker_lost : ∀ {since}, d.marker? = some (.disappeared since) →
    d.LostAt since d.before.marker d.after.marker
  marker_replaced : ∀ {old new}, d.marker? = some (.timestampChanged old new) →
    d.ReplacedAt old new d.before.marker d.after.marker

/-- What is reported of a place that was not covered before and absorbs what it held. -/
theorem change_accounted {γ : Type} [DecidableEq α] {d : Delta} {before after : Option α}
    {gained lost : Timestamp → γ} {replaced : Timestamp → Timestamp → γ} {reported : γ}
    (hkept : surviving d.before.deletion before = before) (habsorbs : d.after.Absorbs d.before)
    (hslot : surviving d.after.deletion (latest? after before) = after)
    (h : change gained lost replaced d.after.deletion d.now before after = some reported) :
    (∃ a, reported = gained (time a) ∧ live d.now before = none ∧ live d.now after = some a) ∨
      (∃ old new, reported = replaced old new ∧ d.ReplacedAt old new before after) ∨
      ∃ since, reported = lost since ∧ d.LostAt since before after := by
  rcases change_cases gained lost replaced d.after.deletion d.now before after with
    ⟨hchange, _⟩ | ⟨a, ha, ⟨hchange, hnone⟩ | ⟨b, hchange, hb, hne⟩⟩ | ⟨b, hb, hnone, hchange⟩ <;>
    rw [hchange] at h <;> cases h
  · exact .inl ⟨a, rfl, hnone, ha⟩
  · obtain ⟨rfl, _⟩ := live_eq_some.mp hb
    obtain ⟨rfl, _⟩ := live_eq_some.mp ha
    have hlatest : latest b a = a := Option.some.inj (latest?_eq_of_absorbed hslot)
    exact .inr (.inl ⟨_, _, rfl, b, a, hb, ha, hne, rfl, rfl, time_le_of_latest hlatest⟩)
  · obtain ⟨rfl, _⟩ := live_eq_some.mp hb
    refine .inr (.inr ⟨_, rfl, b, hb, hnone, ?_⟩)
    cases after with
    | some a =>
      have hlatest : latest b a = a := Option.some.inj (latest?_eq_of_absorbed hslot)
      exact ⟨time_le_of_latest hlatest, rfl⟩
    | none =>
      -- The earlier state kept the write, so the deletion that reaches it is a new one.
      obtain ⟨x, hx, hle⟩ := exists_deletion_of_dropped hslot
      have hcovers : Deletion.covers d.after.deletion (time b) = true := by
        rw [hx, Deletion.covers_some]
        exact hle
      have hnew := newDeletion?_of_covers habsorbs (surviving_eq_some.mp hkept).2 hcovers
      rw [hx] at hnew ⊢
      exact ⟨hle, x, rfl, hnew, rfl⟩

theorem reports (d : Delta) : d.Reports where
  increasing := d.columns.pairwise_keys
  mem_keys_iff _ := mem_keys_columns_iff
  get?_columns := d.get?_columns
  isUnchanged_iff := isUnchanged_iff
  column column := by
    rw [column?_eq]
    exact classified_change _ _ _ _ _ _ _
  marker := by
    rw [marker?_eq]
    exact classified_change _ _ _ _ _ _ _

theorem dominates {d : Delta} (hbefore : d.before.Canonical) (habsorbs : d.after.Absorbs d.before) :
    d.Dominates := by
  have hcolumn {column : String} {reported : ColumnChange} (h : d.column? column = some reported) :=
    change_accounted (hbefore.cell? column) habsorbs (habsorbs.cell? column)
      ((d.column?_eq column).symm.trans h)
  have hmarker {reported : MarkerChange} (h : d.marker? = some reported) :=
    change_accounted hbefore.marker habsorbs habsorbs.marker
      (d.marker?_eq.symm.trans h)
  refine ⟨fun h => ?_, fun h => ?_, fun h => ?_, fun h => ?_⟩
  · rcases hcolumn h with ⟨_, hc, _⟩ | ⟨_, _, hc, _⟩ | ⟨_, hc, hlost⟩ <;> cases hc
    exact hlost
  · rcases hcolumn h with ⟨_, hc, _⟩ | ⟨_, _, hc, hreplaced⟩ | ⟨_, hc, _⟩ <;> cases hc
    exact hreplaced
  · rcases hmarker h with ⟨_, hc, _⟩ | ⟨_, _, hc, _⟩ | ⟨_, hc, hlost⟩ <;> cases hc
    exact hlost
  · rcases hmarker h with ⟨_, hc, _⟩ | ⟨_, _, hc, hreplaced⟩ | ⟨_, hc, _⟩ <;> cases hc
    exact hreplaced

end Reports

theorem between_of_key_eq {before after : Row} (hkey : before.key = after.key) (now : Timestamp) :
    between before after now = .ok ⟨before, after, now, hkey⟩ := dif_pos hkey

/-- The delta of two states of a row reports what has changed of it, and if the later state is the merge
    of a fragment into the earlier one, which kept nothing that its own deletion reaches, then no
    change is reported at an earlier time than that of what it has taken away. -/
theorem between_reports {before after : Row} (hkey : before.key = after.key) (now : Timestamp) :
    ∃ d, between before after now = .ok d ∧ d.before = before ∧ d.after = after ∧ d.now = now ∧
      d.Reports ∧ ∀ fragment, before.Canonical → before.merge fragment = .ok after → d.Dominates := by
  refine ⟨_, between_of_key_eq hkey now, rfl, rfl, rfl, reports _, fun fragment hbefore hmerge => ?_⟩
  obtain ⟨hsame, rfl⟩ := Row.merge_eq_ok_iff.mp hmerge
  exact dominates hbefore (hbefore.absorbs_self.join hsame rfl)

section Order

/-- An order with a note and a status. -/
def placed : Row :=
  (((Row.empty (.ofPartition [0])).withMarker (.live 2 none)).withCell "note" (.new 3 [1])).withCell
    "status" (.new 4 [2])

/-- The deletion of the order at the time of its note, with a tombstone for its status. -/
def cancellation : Row :=
  ((Row.empty (.ofPartition [0])).withDeletion ⟨3⟩).withCell "status" (.tombstone 5)

/-- The marker and the note are lost at the time of the deletion, and the status at that of its
    tombstone. -/
theorem between_reports_of_cancellation :
    ∃ d, between placed (placed.join cancellation) 9 = .ok d ∧ d.Reports ∧ d.Dominates ∧
      d.columns.entries = [("note", .becameDead 3), ("status", .becameDead 5)] ∧
      d.marker? = some (.disappeared 3) ∧ d.newDeletion? = some ⟨3⟩ := by
  have hcanonical : placed.Canonical := by
    change placed.purge = placed
    decide
  obtain ⟨d, hd, hbefore, hafter, hnow, hreports, hdominates⟩ :=
    between_reports (show placed.key = (placed.join cancellation).key from rfl) 9
  refine ⟨d, hd, hreports, hdominates cancellation hcanonical (Row.merge_eq_ok rfl), ?_⟩
  obtain rfl : (⟨placed, placed.join cancellation, 9, rfl⟩ : Delta) = d := Except.ok.inj hd
  exact ⟨by decide, by decide, by decide⟩

end Order

end Delta

end ViewMaintenance
