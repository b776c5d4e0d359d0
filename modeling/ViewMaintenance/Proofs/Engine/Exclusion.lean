import ViewMaintenance.Proofs.Engine.Attempts

namespace ViewMaintenance

namespace Phase

/-- Whether a call has started and not finished. -/
def isRunning : Phase → Bool
  | waiting | locked | planned _ | viewsWritten _ | decided _ | released _ => true
  | notStarted | finished _ => false

theorem isRunning_of_ticket? {phase : Phase} {b : Bool} (h : phase.ticket? = some b) :
    phase.isRunning = true := by
  cases phase with
  | waiting | locked | planned | viewsWritten | decided => rfl
  | notStarted | released | finished => cases h

end Phase

namespace Concurrent

variable {Task : Type} [DecidableEq Task] {e : Engine} {calls : Task → Call} {c c' : Concurrent Task}
  {task : Task}

/-- A partition has a call that has started and not finished. -/
def IsActive (calls : Task → Call) (c : Concurrent Task) (p : Bytes) : Prop :=
  ∃ t, (calls t).partition = p ∧ (c.phase t).isRunning = true

/-- Slots are for partitions with running calls only. -/
def Occupied (calls : Task → Call) (c : Concurrent Task) : Prop :=
  ∀ p, (c.sequencer.slots.get? p).isSome = true → IsActive calls c p

theorem IsActive.enterPhase {p : Bytes} (h : IsActive calls c p) {phase : Phase}
    (hphase : c'.phase = (c.enterPhase task phase).phase) (hrunning : phase.isRunning = true) :
    IsActive calls c' p := by
  obtain ⟨t, hpartition, ht⟩ := h
  refine ⟨t, hpartition, ?_⟩
  rw [hphase]
  by_cases hne : t = task
  · rw [hne, phase_enterPhase_self]
    exact hrunning
  · rw [phase_enterPhase_of_ne hne]
    exact ht

/-- A step of a call that prunes at its end leaves slots for partitions with running calls only. -/
theorem Occupied.steps (h : Occupied calls c) (hqueued : Queued calls c)
    (hprune : e.config.pruneIdlePartitions = true) (hsteps : Steps e calls c task c') :
    Occupied calls c' := by
  cases hsteps with
  | rest => exact h
  | arrive hphase =>
    intro p hslot
    by_cases hp : p = (calls task).partition
    · refine ⟨task, hp.symm, ?_⟩
      rw [phase_enterPhase_self]
      rfl
    · change ((c.sequencer.enter task (calls task).partition).slots.get? p).isSome = true at hslot
      rw [Sequencer.get?_slots_enter_of_ne hp] at hslot
      exact (h p hslot).enterPhase rfl rfl
  | lock hphase => exact fun p hslot => (h p hslot).enterPhase rfl rfl
  | @advance phase store hopen hadvances =>
    have hrunning : phase.isRunning = true := by
      generalize c.phase task = old at hadvances
      cases hadvances <;> rfl
    exact fun p hslot => (h p hslot).enterPhase rfl hrunning
  | release hphase => exact fun p hslot => (h p hslot).enterPhase rfl rfl
  | finish hphase hpruned =>
    -- What stays has a ticket, and the task that finishes has none.
    intro p hslot
    rw [if_pos hprune] at hpruned
    subst hpruned
    change (c.sequencer.prune.slots.get? p).isSome = true at hslot
    rw [hqueued.reachable.consistent.get?_prune] at hslot
    split at hslot
    next hused =>
      obtain ⟨ticket, hmem, hpartition⟩ := hused
      obtain ⟨hp, hticket⟩ :=
        (hqueued.ticket ticket.task p ticket.holds).mp ⟨ticket, hmem, rfl, hpartition, rfl⟩
      have hne : ticket.task ≠ task := by
        intro heq
        rw [heq, hphase] at hticket
        cases hticket
      refine ⟨ticket.task, hp.symm, ?_⟩
      rw [phase_enterPhase_of_ne hne]
      exact Phase.isRunning_of_ticket? hticket
    next => cases hslot

theorem Occupied.runMoves (h : Occupied calls c) (hqueued : Queued calls c)
    (hprune : e.config.pruneIdlePartitions = true) {moves : List (Move Task)}
    (hmoves : ∀ move ∈ moves, move.isDrop = false) : Occupied calls (c.runMoves e calls moves) := by
  induction moves generalizing c with
  | nil => exact h
  | cons move moves ih =>
    have hrest : ∀ move ∈ moves, move.isDrop = false := fun m hm =>
      hmoves m (List.mem_cons_of_mem move hm)
    refine ih ?_ (hqueued.perform move) hrest
    cases move with
    | step task f => exact h.steps hqueued hprune (steps_stepWith e calls f c task)
    | drop task =>
      have hnot := hmoves (.drop task) List.mem_cons_self
      cases hnot

/-- In every state of a sequencer, whatever tasks do and whenever idle slots are dropped, the lock of a
    partition has one holder at most, all tasks that wait for it or hold it use the lock in the slot,
    and dropping idle slots drops exactly those that no task uses, which are those whose lock nothing
    else refers to. Calls go through such states only, and if they prune and all of them have run to
    their ends, no slot is left. -/
theorem exclusive_and_empty_at_end :
    (∀ s : Sequencer Task, s.Reachable → ∀ p,
      (s.tickets.filter fun t => t.partition = p ∧ t.holds = true).length ≤ 1 ∧
      (∀ t ∈ s.tickets, t.partition = p → s.slots.get? p = some t.lock) ∧
      s.prune.slots.get? p = (if ∃ t ∈ s.tickets, t.partition = p then s.slots.get? p else none) ∧
      (∀ lock, s.prune.slots.get? p = some lock ↔
        s.slots.get? p = some lock ∧ 1 < s.references lock) ∧
      s.prune.tickets = s.tickets ∧
      s.prune.size = (s.tickets.map Ticket.partition).dedup.length) ∧
    ∀ (e : Engine) (calls : Task → Call) (store : Store) (moves : List (Move Task)),
      ((Concurrent.start store).runMoves e calls moves).sequencer.Reachable ∧
      (e.config.pruneIdlePartitions = true → (∀ move ∈ moves, move.isDrop = false) →
        (∀ t, (((Concurrent.start store).runMoves e calls moves).phase t).isRunning = false) →
        ((Concurrent.start store).runMoves e calls moves).sequencer.isEmpty = true) := by
  constructor
  · intro s hs p
    have h := hs.consistent
    refine ⟨h.length_holders_le p, fun t ht hpartition => ?_, h.get?_prune p,
      fun lock => h.get?_prune_iff, rfl, h.size_prune⟩
    rw [← hpartition]
    exact h.slot t ht
  · intro e calls store moves
    have hstart : Queued calls (Concurrent.start store : Concurrent Task) := queued_start store
    refine ⟨(hstart.runMoves moves).reachable, fun hprune hmoves hidle => ?_⟩
    have hempty : Occupied calls (Concurrent.start store : Concurrent Task) := by
      intro p hslot
      cases hslot
    have hoccupied := hempty.runMoves hstart hprune hmoves
    have hslots : ((Concurrent.start store).runMoves e calls moves).sequencer.slots = ∅ := by
      refine SortedMap.eq_empty_iff.mpr fun p => Option.not_isSome_iff_eq_none.mp fun hslot => ?_
      obtain ⟨t, _, hrunning⟩ := hoccupied p hslot
      rw [hidle t] at hrunning
      cases hrunning
    rw [Sequencer.isEmpty, hslots]
    rfl

/-- Idle slots are dropped while one task has a lock and another waits for it, and the second task gets
    the same lock. Two calls of which one fails leave no slot. -/
theorem empty_of_two_tasks :
    let s := (((∅ : Sequencer Bool).acquire false [0]).prune).acquire true [0]
    let broken : Faults := { Faults.none with baseWrite := some (.failed "disk") }
    (s.tickets.filter fun t => t.partition = [0] ∧ t.holds = true).length ≤ 1 ∧
      (∀ t ∈ s.tickets, s.slots.get? [0] = some t.lock) ∧ s.tickets.length = 2 ∧ s.prune.size = 1 ∧
      ((Concurrent.start (.ofViews Engine.ordersEngine.views)).runMoves Engine.ordersEngine statusCalls
        (List.replicate 12 [.step false broken, .step true .none]).flatten).sequencer.isEmpty = true := by
  intro s broken
  obtain ⟨hstates, hruns⟩ := @exclusive_and_empty_at_end Bool _
  have hs : s.Reachable :=
    .poll (.enter (.prune (.poll (.enter .empty false [0]) false)) true [0]) true
  obtain ⟨hone, hslot, _, _, _, hsize⟩ := hstates s hs [0]
  refine ⟨hone, fun t ht => hslot t ht ?_, by decide, hsize.trans (by decide), ?_⟩
  · have hpartition : s.tickets.all (fun t => t.partition = [0]) = true := by decide
    exact of_decide_eq_true (List.all_eq_true.mp hpartition t ht)
  · exact (hruns Engine.ordersEngine statusCalls _ _).2 rfl (by decide) (by decide +kernel)

end Concurrent

end ViewMaintenance
