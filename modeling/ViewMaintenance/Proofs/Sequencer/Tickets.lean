import Mathlib.Data.List.Dedup
import ViewMaintenance.Proofs.Sequencer

namespace ViewMaintenance.Sequencer

variable {Task : Type} {s : Sequencer Task} {task other : Task} {p q : Bytes} {b : Bool} {lock : Nat}

/-- A task has a ticket for a partition, with or without the lock. -/
def HasTicket (s : Sequencer Task) (task : Task) (partition : Bytes) (holds : Bool) : Prop :=
  ∃ t ∈ s.tickets, t.task = task ∧ t.partition = partition ∧ t.holds = holds

/-- How often a lock is referred to, by slots and by tickets. -/
def references (s : Sequencer Task) (lock : Nat) : Nat :=
  s.slots.values.count lock + (s.tickets.map Ticket.lock).count lock

/-- All tickets are for the lock in the slot of their partition and a lock has one holder at most,
    each task has one ticket at most, and each lock one slot at most, once it is made. -/
structure Consistent (s : Sequencer Task) : Prop extends s.Exclusive where
  tasks : (s.tickets.map Ticket.task).Nodup
  made : ∀ p lock, s.slots.get? p = some lock → lock < s.made
  slots : ∀ p q lock, s.slots.get? p = some lock → s.slots.get? q = some lock → p = q

theorem consistent_empty : (∅ : Sequencer Task).Consistent where
  toExclusive := exclusive_empty
  tasks := List.nodup_nil
  made _ _ h := by cases h
  slots _ _ _ h := by cases h

namespace Consistent

theorem eq_of_task (h : s.Consistent) {t u : Ticket Task} (ht : t ∈ s.tickets) (hu : u ∈ s.tickets)
    (htask : t.task = u.task) : t = u := List.inj_on_of_nodup_map h.tasks ht hu htask

theorem partition_eq_of_lock (h : s.Consistent) {t : Ticket Task} (ht : t ∈ s.tickets)
    (hslot : s.slots.get? p = some t.lock) : t.partition = p := h.slots _ _ _ (h.slot t ht) hslot

/-- The lock of a ticket is held if and only if some task has the lock of its partition. -/
theorem isHeld_iff (h : s.Consistent) {t : Ticket Task} (ht : t ∈ s.tickets) :
    s.isHeld t.lock = true ↔ ∃ u, s.HasLock u t.partition := by
  rw [Sequencer.isHeld_iff]
  constructor
  · rintro ⟨u, hu, hlock, hholds⟩
    have hslot := h.slot t ht
    rw [← hlock] at hslot
    exact ⟨u.task, u, hu, rfl, h.partition_eq_of_lock hu hslot, hholds⟩
  · rintro ⟨_, u, hu, _, hpartition, hholds⟩
    have hslot := h.slot u hu
    rw [hpartition, h.slot t ht] at hslot
    exact ⟨u, hu, (Option.some.inj hslot).symm, hholds⟩

/-- One task at most holds the lock of a partition. -/
theorem length_holders_le (h : s.Consistent) (p : Bytes) :
    (s.tickets.filter fun t => t.partition = p ∧ t.holds = true).length ≤ 1 := by
  have hnodup := (List.Nodup.of_map _ h.tasks).filter fun t =>
    decide (t.partition = p ∧ t.holds = true)
  have hsame : ∀ t ∈ s.tickets.filter (fun t => t.partition = p ∧ t.holds = true),
      ∀ u ∈ s.tickets.filter (fun t => t.partition = p ∧ t.holds = true), t = u := by
    intro t ht u hu
    obtain ⟨ht, hheld⟩ := List.mem_filter.mp ht
    obtain ⟨hu, hheld'⟩ := List.mem_filter.mp hu
    obtain ⟨htp, hholds⟩ := of_decide_eq_true hheld
    obtain ⟨hup, hholds'⟩ := of_decide_eq_true hheld'
    exact h.eq_of_task ht hu (h.eq_of_hasLock ⟨t, ht, rfl, htp, hholds⟩ ⟨u, hu, rfl, hup, hholds'⟩)
  generalize s.tickets.filter (fun t => t.partition = p ∧ t.holds = true) = holders at hnodup hsame
  match holders with
  | [] => exact Nat.zero_le 1
  | [_] => exact Nat.le_refl 1
  | t :: u :: rest =>
    have heq : t = u := hsame t List.mem_cons_self u (List.mem_cons_of_mem t List.mem_cons_self)
    rw [heq] at hnodup
    exact absurd List.mem_cons_self (List.nodup_cons.mp hnodup).1

section Prune

theorem get?_slots_prune (s : Sequencer Task) (p : Bytes) :
    s.prune.slots.get? p = (s.slots.get? p).filter s.isInUse := SortedMap.get?_filter _ _ _

theorem prune (h : s.Consistent) : s.prune.Consistent where
  toExclusive := h.toExclusive.prune
  tasks := h.tasks
  made p lock hp := by
    rw [get?_slots_prune] at hp
    exact h.made p lock (Option.filter_eq_some_iff.mp hp).1
  slots p q lock hp hq := by
    rw [get?_slots_prune] at hp hq
    exact h.slots p q lock (Option.filter_eq_some_iff.mp hp).1 (Option.filter_eq_some_iff.mp hq).1

/-- A lock in a slot is referred to once more for each ticket. -/
theorem references_eq (h : s.Consistent) (hslot : s.slots.get? p = some lock) :
    s.references lock = (s.tickets.map Ticket.lock).count lock + 1 := by
  have hmem : lock ∈ s.slots.values := SortedMap.mem_values_iff.mpr ⟨p, hslot⟩
  have hone : s.slots.values.count lock = 1 :=
    List.count_eq_one_of_mem (SortedMap.nodup_values h.slots) hmem
  rw [references, hone, Nat.add_comm]

/-- A slot stays if and only if its lock is referred to from elsewhere. -/
theorem get?_prune_iff (h : s.Consistent) :
    s.prune.slots.get? p = some lock ↔ s.slots.get? p = some lock ∧ 1 < s.references lock := by
  rw [get?_slots_prune, Option.filter_eq_some_iff]
  refine and_congr_right fun hslot => ?_
  have hcount : 0 < (s.tickets.map Ticket.lock).count lock ↔ ∃ t ∈ s.tickets, t.lock = lock := by
    rw [List.count_pos_iff, List.mem_map]
  rw [isInUse_iff, ← hcount, h.references_eq hslot]
  omega

/-- Exactly the slots of partitions with tickets stay. -/
theorem get?_prune (h : s.Consistent) (p : Bytes) : s.prune.slots.get? p =
    if ∃ t ∈ s.tickets, t.partition = p then s.slots.get? p else none := by
  rw [get?_slots_prune]
  split
  next hused =>
    obtain ⟨t, ht, rfl⟩ := hused
    have huse : s.isInUse t.lock = true := isInUse_iff.mpr ⟨t, ht, rfl⟩
    rw [h.slot t ht]
    simp [huse]
  next hidle =>
    refine Option.filter_eq_none_iff.mpr fun lock hslot huse => ?_
    obtain ⟨t, ht, rfl⟩ := isInUse_iff.mp huse
    exact hidle ⟨t, ht, h.partition_eq_of_lock ht hslot⟩

/-- After idle slots are dropped there are as many as there are partitions with tickets. -/
theorem size_prune (h : s.Consistent) :
    s.prune.size = (s.tickets.map Ticket.partition).dedup.length := by
  have hperm : s.prune.slots.keys.Perm (s.tickets.map Ticket.partition).dedup := by
    refine (List.perm_ext_iff_of_nodup (SortedMap.nodup_keys _) (List.nodup_dedup _)).mpr fun p => ?_
    rw [SortedMap.mem_keys_iff, List.mem_dedup, List.mem_map, h.get?_prune]
    split
    next hused =>
      obtain ⟨t, ht, rfl⟩ := hused
      rw [h.slot t ht]
      simp only [Option.isSome_some, true_iff]
      exact ⟨t, ht, rfl⟩
    next hidle => simpa using hidle
  rw [← hperm.length_eq, SortedMap.keys, List.length_map]
  rfl

end Prune

end Consistent

variable [DecidableEq Task]

theorem holds_iff_hasLock : s.holds task = true ↔ ∃ p, s.HasLock task p := by
  rw [holds_iff]
  constructor
  · rintro ⟨t, ht, htask, hholds⟩
    exact ⟨t.partition, t, ht, htask, rfl, hholds⟩
  · rintro ⟨_, t, ht, htask, _, hholds⟩
    exact ⟨t, ht, htask, hholds⟩

section Enter

theorem waits_or_holds_iff :
    (s.waits task || s.holds task) = true ↔ ∃ q b, s.HasTicket task q b := by
  simp only [waits, holds, Bool.or_eq_true, List.any_eq_true, Bool.and_eq_true, beq_iff_eq]
  constructor
  · intro hbusy
    cases hbusy with
    | inl hwaits =>
      obtain ⟨t, ht, htask, _⟩ := hwaits
      exact ⟨_, _, t, ht, htask, rfl, rfl⟩
    | inr hholds =>
      obtain ⟨t, ht, htask, _⟩ := hholds
      exact ⟨_, _, t, ht, htask, rfl, rfl⟩
  · rintro ⟨_, b, t, ht, htask, _, hholds⟩
    cases b with
    | false => exact .inl ⟨t, ht, htask, by rw [hholds]; rfl⟩
    | true => exact .inr ⟨t, ht, htask, hholds⟩

theorem enter_of_hasTicket (h : s.HasTicket task q b) : s.enter task p = s :=
  if_pos (waits_or_holds_iff.mpr ⟨q, b, h⟩)

/-- A task without ticket gets one for the lock in the slot, or for a new lock in a new slot. -/
theorem enter_cases (hnone : ∀ q b, ¬ s.HasTicket task q b) (p : Bytes) :
    (∃ lock, s.slots.get? p = some lock ∧
      s.enter task p = { s with tickets := s.tickets ++ [⟨task, p, lock, false⟩] }) ∨
    s.slots.get? p = none ∧
      s.enter task p = ⟨s.slots.insert p s.made, s.tickets ++ [⟨task, p, s.made, false⟩], s.made + 1⟩ := by
  have hidle : ¬ (s.waits task || s.holds task) = true := by
    intro hbusy
    obtain ⟨q, b, hticket⟩ := waits_or_holds_iff.mp hbusy
    exact hnone q b hticket
  unfold enter
  rw [if_neg hidle]
  cases hslot : s.slots.get? p with
  | some lock => exact .inl ⟨lock, rfl, rfl⟩
  | none => exact .inr ⟨rfl, rfl⟩

theorem hasTicket_enter_iff (hnone : ∀ q b, ¬ s.HasTicket task q b) :
    (s.enter task p).HasTicket other q b ↔
      s.HasTicket other q b ∨ other = task ∧ q = p ∧ b = false := by
  obtain ⟨lock, htickets⟩ :
      ∃ lock, (s.enter task p).tickets = s.tickets ++ [⟨task, p, lock, false⟩] := by
    obtain ⟨lock, _, henter⟩ | ⟨_, henter⟩ := enter_cases hnone p
    · exact ⟨lock, by rw [henter]⟩
    · exact ⟨s.made, by rw [henter]⟩
  simp only [HasTicket, htickets, List.mem_append, List.mem_singleton, or_and_right, exists_or,
    exists_eq_left, eq_comm]

/-- Only the partition at which a task arrives can get a slot. -/
theorem get?_slots_enter_of_ne (hne : q ≠ p) :
    (s.enter task p).slots.get? q = s.slots.get? q := by
  unfold enter
  split
  · rfl
  · split
    · rfl
    · exact SortedMap.get?_insert_of_ne hne

theorem Consistent.enter (h : s.Consistent) (task : Task) (p : Bytes) :
    (s.enter task p).Consistent := by
  by_cases hticket : ∃ q b, s.HasTicket task q b
  · obtain ⟨q, b, hticket⟩ := hticket
    rw [enter_of_hasTicket hticket]
    exact h
  have hnone : ∀ q b, ¬ s.HasTicket task q b := fun q b hq => hticket ⟨q, b, hq⟩
  have htasks (lock : Nat) :
      ((s.tickets ++ [Ticket.mk task p lock false]).map Ticket.task).Nodup := by
    rw [List.map_append]
    refine List.nodup_append.mpr ⟨h.tasks, List.nodup_singleton _, fun t ht u hu heq => ?_⟩
    obtain ⟨ticket, hmem, htask⟩ := List.mem_map.mp ht
    have hu : u = task := List.mem_singleton.mp hu
    exact hnone _ _ ⟨ticket, hmem, htask.trans (heq.trans hu), rfl, rfl⟩
  have hexclusive : (s.enter task p).Exclusive := h.toExclusive.enter
  obtain ⟨lock, _, henter⟩ | ⟨_, henter⟩ := enter_cases hnone p
  · rw [henter] at hexclusive ⊢
    exact ⟨hexclusive, htasks lock, h.made, h.slots⟩
  · rw [henter] at hexclusive ⊢
    refine ⟨hexclusive, htasks s.made, fun q lock hq => ?_, fun q r lock hq hr => ?_⟩
    · change (s.slots.insert p s.made).get? q = some lock at hq
      change lock < s.made + 1
      rw [SortedMap.get?_insert_eq_ite] at hq
      split at hq
      · have hlock := Option.some.inj hq
        omega
      · have hlock := h.made q lock hq
        omega
    · -- The new lock is in no other slot, since it was not made before.
      change (s.slots.insert p s.made).get? q = some lock at hq
      change (s.slots.insert p s.made).get? r = some lock at hr
      rw [SortedMap.get?_insert_eq_ite] at hq hr
      split at hq
      next hqp =>
        have hlock := Option.some.inj hq
        split at hr
        next hrp => exact hqp.symm.trans hrp
        next => have hold := h.made r lock hr; omega
      next =>
        have hold := h.made q lock hq
        split at hr
        next => have hlock := Option.some.inj hr; omega
        next => exact h.slots q r lock hq hr

end Enter

section Poll

theorem hasTicket_poll : (s.poll task).HasTicket other q b ↔ ∃ t ∈ s.tickets, t.task = other ∧
    t.partition = q ∧ (t.holds || decide (t.task = task) && !s.isHeld t.lock) = b := by
  unfold HasTicket poll
  simp only [List.mem_map, exists_exists_and_eq_and]
  refine exists_congr fun t => and_congr_right fun _ => ?_
  cases decide (t.task = task) && !s.isHeld t.lock <;> simp

/-- A waiting task takes its lock if no task has it. The others stay as they are. -/
theorem Consistent.hasTicket_poll_iff (h : s.Consistent) (hwaits : s.HasTicket task p false)
    (other : Task) (q : Bytes) (b : Bool) :
    (s.poll task).HasTicket other q b ↔
      if other = task then q = p ∧ (b = true ↔ ∀ u, ¬ s.HasLock u p) else s.HasTicket other q b := by
  rw [hasTicket_poll]
  split
  next hother =>
    obtain ⟨t, ht, rfl, rfl, hholds⟩ := hwaits
    have hown {u : Ticket Task} (hu : u ∈ s.tickets) (htask : u.task = other) : u = t :=
      h.eq_of_task hu ht (htask.trans hother)
    have hfree : (!s.isHeld t.lock) = true ↔ ∀ u, ¬ s.HasLock u t.partition := by
      rw [Bool.not_eq_true', ← Bool.not_eq_true, h.isHeld_iff ht, not_exists]
    rw [← hfree]
    constructor
    · rintro ⟨u, hu, htask, hpartition, hb⟩
      obtain rfl := hown hu htask
      have hb : (!s.isHeld u.lock) = b := by simpa [hholds] using hb
      exact ⟨hpartition.symm, by rw [hb]⟩
    · rintro ⟨hq, hb⟩
      refine ⟨t, ht, hother.symm, hq.symm, ?_⟩
      simpa [hholds] using (Bool.eq_iff_iff.mpr hb).symm
  next hother =>
    refine exists_congr fun t => and_congr_right fun _ => and_congr_right fun htask => ?_
    have hne : t.task ≠ task := fun heq => hother (htask.symm.trans heq)
    simp [hne]

theorem Consistent.poll (h : s.Consistent) (task : Task) : (s.poll task).Consistent := by
  refine ⟨h.toExclusive.poll, ?_, h.made, h.slots⟩
  have hsame : ((s.poll task).tickets.map Ticket.task) = s.tickets.map Ticket.task := by
    unfold Sequencer.poll
    rw [List.map_map]
    refine List.map_congr_left fun t _ => ?_
    simp only [Function.comp_apply]
    split <;> rfl
  rw [hsame]
  exact h.tasks

end Poll

theorem hasTicket_release_iff :
    (s.release task).HasTicket other q b ↔ other ≠ task ∧ s.HasTicket other q b := by
  simp only [HasTicket, release, List.mem_filter, bne_iff_ne]
  constructor
  · rintro ⟨t, ⟨ht, hne⟩, htask, hrest⟩
    exact ⟨htask ▸ hne, t, ht, htask, hrest⟩
  · rintro ⟨hne, t, ht, htask, hrest⟩
    exact ⟨t, ⟨ht, htask ▸ hne⟩, htask, hrest⟩

theorem Consistent.release (h : s.Consistent) (task : Task) : (s.release task).Consistent where
  toExclusive := h.toExclusive.release
  tasks := h.tasks.sublist (List.filter_sublist.map _)
  made := h.made
  slots := h.slots

/-- The states of a sequencer: tasks arrive, take their locks, let go or give up, and idle slots are
    dropped, in any order. -/
inductive Reachable : Sequencer Task → Prop
  | empty : Reachable ∅
  | enter {s : Sequencer Task} (h : Reachable s) (task : Task) (partition : Bytes) :
      Reachable (s.enter task partition)
  | poll {s : Sequencer Task} (h : Reachable s) (task : Task) : Reachable (s.poll task)
  | release {s : Sequencer Task} (h : Reachable s) (task : Task) : Reachable (s.release task)
  | prune {s : Sequencer Task} (h : Reachable s) : Reachable s.prune

theorem Reachable.consistent (h : s.Reachable) : s.Consistent := by
  induction h with
  | empty => exact consistent_empty
  | enter _ task partition ih => exact ih.enter task partition
  | poll _ task ih => exact ih.poll task
  | release _ task ih => exact ih.release task
  | prune _ ih => exact ih.prune

end ViewMaintenance.Sequencer
