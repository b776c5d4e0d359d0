import ViewMaintenance.Sequencer
import ViewMaintenance.SortedMap.Lemmas

namespace ViewMaintenance.Sequencer

variable {Task : Type} {s : Sequencer Task} {task other : Task} {partition : Bytes}

/-- All tickets are for the lock in the slot of their partition, and a lock has one holder at most. -/
structure Exclusive (s : Sequencer Task) : Prop where
  slot : ∀ t ∈ s.tickets, s.slots.get? t.partition = some t.lock
  holder : ∀ t ∈ s.tickets, ∀ u ∈ s.tickets, t.holds = true → u.holds = true → t.lock = u.lock →
    t.task = u.task

/-- A task holds the lock of a partition. -/
def HasLock (s : Sequencer Task) (task : Task) (partition : Bytes) : Prop :=
  ∃ t ∈ s.tickets, t.task = task ∧ t.partition = partition ∧ t.holds = true

/-- At most one task has the lock of a partition. -/
theorem Exclusive.eq_of_hasLock (h : s.Exclusive) (htask : s.HasLock task partition)
    (hother : s.HasLock other partition) : task = other := by
  obtain ⟨t, ht, rfl, rfl, hholds⟩ := htask
  obtain ⟨u, hu, rfl, hpartition, hholds'⟩ := hother
  have hlock := h.slot u hu
  rw [hpartition, h.slot t ht] at hlock
  exact h.holder t ht u hu hholds hholds' (Option.some.inj hlock)

theorem exclusive_empty : (∅ : Sequencer Task).Exclusive :=
  ⟨fun _ ht => absurd ht List.not_mem_nil, fun _ ht => absurd ht List.not_mem_nil⟩

theorem isHeld_iff {lock : Nat} :
    s.isHeld lock = true ↔ ∃ t ∈ s.tickets, t.lock = lock ∧ t.holds = true := by
  simp [isHeld]

theorem isInUse_iff {lock : Nat} : s.isInUse lock = true ↔ ∃ t ∈ s.tickets, t.lock = lock := by
  simp [isInUse]

/-- A slot is not dropped while there is a ticket for its lock. -/
theorem Exclusive.prune (h : s.Exclusive) : s.prune.Exclusive := by
  refine ⟨fun t ht => ?_, h.holder⟩
  change (s.slots.filter fun _ lock => s.isInUse lock).get? t.partition = some t.lock
  rw [SortedMap.get?_filter, h.slot t ht]
  have huse : s.isInUse t.lock = true := isInUse_iff.mpr ⟨t, ht, rfl⟩
  simp [huse]

variable [DecidableEq Task]

theorem holds_iff : s.holds task = true ↔ ∃ t ∈ s.tickets, t.task = task ∧ t.holds = true := by
  simp [holds]

section Enter

theorem mem_enter {t : Ticket Task} (ht : t ∈ (s.enter task partition).tickets) :
    t ∈ s.tickets ∨ t.task = task ∧ t.partition = partition ∧ t.holds = false := by
  unfold enter at ht
  split at ht
  · exact .inl ht
  · split at ht
    all_goals
      refine (List.mem_append.mp ht).imp_right fun hnew => ?_
      obtain rfl := List.mem_singleton.mp hnew
      exact ⟨rfl, rfl, rfl⟩

theorem tickets_subset_enter : s.tickets ⊆ (s.enter task partition).tickets := by
  unfold enter
  split
  · exact List.Subset.refl _
  · split
    all_goals exact List.subset_append_left _ _

/-- A new ticket is for the lock in the slot, which is a new one if the partition had no slot. -/
theorem Exclusive.enter (h : s.Exclusive) : (s.enter task partition).Exclusive := by
  refine ⟨fun t ht => ?_, fun t ht u hu hholds hholds' hlock => ?_⟩
  · unfold Sequencer.enter at ht ⊢
    split at ht
    next hidle => rw [if_pos hidle]; exact h.slot t ht
    next hidle =>
      rw [if_neg hidle]
      cases hslot : s.slots.get? partition with
      | some lock =>
        rw [hslot] at ht
        rcases List.mem_append.mp ht with ht | hnew
        · exact h.slot t ht
        · obtain rfl := List.mem_singleton.mp hnew
          exact hslot
      | none =>
        rw [hslot] at ht
        rcases List.mem_append.mp ht with ht | hnew
        · have hold := h.slot t ht
          have hne : t.partition ≠ partition := by
            intro heq
            rw [heq, hslot] at hold
            cases hold
          exact (SortedMap.get?_insert_of_ne hne).trans hold
        · obtain rfl := List.mem_singleton.mp hnew
          exact SortedMap.get?_insert_self _ _ _
  · rcases mem_enter ht with ht | ⟨_, _, hwaits⟩
    · rcases mem_enter hu with hu | ⟨_, _, hwaits⟩
      · exact h.holder t ht u hu hholds hholds' hlock
      · rw [hwaits] at hholds'
        cases hholds'
    · rw [hwaits] at hholds
      cases hholds

theorem HasLock.enter (h : s.HasLock other partition) (task : Task) (q : Bytes) :
    (s.enter task q).HasLock other partition := by
  obtain ⟨t, ht, hticket⟩ := h
  exact ⟨t, tickets_subset_enter ht, hticket⟩

end Enter

section Poll

/-- A poll changes no ticket, except that the task takes a lock that nobody holds. -/
theorem mem_poll {t : Ticket Task} (ht : t ∈ (s.poll task).tickets) :
    ∃ u ∈ s.tickets, t.task = u.task ∧ t.partition = u.partition ∧ t.lock = u.lock ∧
      (t.holds = true → u.holds = true ∨ u.task = task ∧ s.isHeld u.lock = false) := by
  obtain ⟨u, hu, rfl⟩ := List.mem_map.mp ht
  refine ⟨u, hu, ?_⟩
  by_cases htake : (decide (u.task = task) && !s.isHeld u.lock) = true
  · rw [if_pos htake]
    exact ⟨rfl, rfl, rfl, fun _ => .inr (by simpa using htake)⟩
  · rw [if_neg htake]
    exact ⟨rfl, rfl, rfl, .inl⟩

theorem Exclusive.poll (h : s.Exclusive) : (s.poll task).Exclusive := by
  refine ⟨fun t ht => ?_, fun t ht u hu hholds hholds' hlock => ?_⟩
  · obtain ⟨u, hu, _, hpartition, hlock, _⟩ := mem_poll ht
    rw [hpartition, hlock]
    exact h.slot u hu
  · obtain ⟨x, hx, htask, _, hxlock, htaken⟩ := mem_poll ht
    obtain ⟨y, hy, htask', _, hylock, htaken'⟩ := mem_poll hu
    have hsame : x.lock = y.lock := by rw [← hxlock, ← hylock, hlock]
    rw [htask, htask']
    -- A task that takes the lock now found it free.
    rcases htaken hholds with hheld | ⟨hx', hfree⟩
    · rcases htaken' hholds' with hheld' | ⟨_, hfree'⟩
      · exact h.holder x hx y hy hheld hheld' hsame
      · have hbusy := isHeld_iff.mpr ⟨x, hx, hsame, hheld⟩
        rw [hfree'] at hbusy
        cases hbusy
    · rcases htaken' hholds' with hheld' | ⟨hy', _⟩
      · have hbusy := isHeld_iff.mpr ⟨y, hy, hsame.symm, hheld'⟩
        rw [hfree] at hbusy
        cases hbusy
      · rw [hx', hy']

theorem HasLock.poll (h : s.HasLock other partition) (task : Task) :
    (s.poll task).HasLock other partition := by
  obtain ⟨t, ht, htask, hpartition, hholds⟩ := h
  refine ⟨_, List.mem_map_of_mem ht, ?_⟩
  split
  · exact ⟨htask, hpartition, rfl⟩
  · exact ⟨htask, hpartition, hholds⟩

end Poll

theorem Exclusive.release (h : s.Exclusive) : (s.release task).Exclusive :=
  ⟨fun t ht => h.slot t (List.mem_filter.mp ht).1, fun t ht u hu =>
    h.holder t (List.mem_filter.mp ht).1 u (List.mem_filter.mp hu).1⟩

theorem HasLock.release (h : s.HasLock other partition) (hne : other ≠ task) :
    (s.release task).HasLock other partition := by
  obtain ⟨t, ht, rfl, hticket⟩ := h
  exact ⟨t, List.mem_filter.mpr ⟨ht, by simpa using hne⟩, rfl, hticket⟩

end ViewMaintenance.Sequencer
