import ViewMaintenance.Proofs.Engine.Attempts

namespace ViewMaintenance

namespace Phase

/-- Whether a call has written its updates to the views, for good or until it writes the base table. -/
def hasWritten : Phase → Bool
  | viewsWritten _ | decided (.ok _) | released (.ok _) | finished (.ok _) => true
  | notStarted | waiting | locked | planned _ => false
  | decided (.error _) | released (.error _) | finished (.error _) => false

end Phase

namespace Store

/-- Two stores with one base table. The views of the first are those of the second, or have the updates
    of a call besides. -/
structure Leads (e : Engine) (call : Call) (s s' : Store) : Prop where
  base : s.base = s'.base
  views : s.views = s'.views ∨ ∃ updates,
    e.updates s.base.reader call.mutation call.now = .ok updates ∧ s'.views.apply updates = .ok s.views

variable {e : Engine} {call other : Call} {s s' : Store} {phase phase' : Phase} {updates : List ViewUpdate}

theorem Leads.refl (e : Engine) (call : Call) (s : Store) : s.Leads e call s := ⟨rfl, .inl rfl⟩

/-- The views of both stores refuse a batch, or both take it. -/
theorem Leads.applyViews (h : s.Leads e call s') (hs' : s'.views.WellFormed)
    (updates : List ViewUpdate) :
    Alike (fun views views' => Leads e call { s with views } { s' with views := views' })
      (s.views.apply updates) (s'.views.apply updates) := by
  cases htaken : s'.views.apply updates with
  | error err =>
    -- What the views have besides did not add views to them.
    have hrefused : s.views.apply updates = .error err := by
      obtain heq | ⟨_, _, hahead⟩ := h.views
      · rw [heq, htaken]
      · exact hs'.apply_eq_error
          (fun name => ((hs'.receives_of_apply hahead).isSome_get? hs' name).symm) htaken
    rw [hrefused]
    exact .error err
  | ok views' =>
    obtain heq | ⟨planned, hplanned, hahead⟩ := h.views
    · rw [heq, htaken]
      exact .ok ⟨h.base, .inl rfl⟩
    · obtain ⟨both, hfirst, hsecond⟩ := hs'.apply_comm hahead htaken
      rw [hfirst]
      exact .ok ⟨h.base, .inr ⟨planned, hplanned, hsecond⟩⟩

theorem Leads.writeViews (h : s.Leads e call s') (hs' : s'.views.WellFormed) (f : Faults)
    (updates : List ViewUpdate) :
    Alike (Leads e call) (s.writeViews f updates) (s'.writeViews f updates) := by
  have htaken := h.applyViews hs' updates
  unfold Store.writeViews
  split
  · exact .ok h
  · cases f.viewWrite with
    | some err => exact .error err
    | none =>
      simp only [Faults.call]
      generalize s.views.apply updates = r at htaken ⊢
      generalize s'.views.apply updates = r' at htaken ⊢
      cases htaken with
      | error err => exact .error err
      | ok hleads => exact .ok hleads

/-- The views absorb the updates of the call if they have them already. -/
theorem Leads.writeViews_eq (h : s.Leads e call s') (hs' : s'.views.WellFormed) (f : Faults)
    (hplanned : e.updates s.base.reader call.mutation call.now = .ok updates) :
    s.writeViews f updates = s'.writeViews f updates := by
  have halike := h.writeViews hs' f updates
  generalize hw : s.writeViews f updates = r at halike ⊢
  generalize hw' : s'.writeViews f updates = r' at halike ⊢
  cases halike with
  | error err => rfl
  | ok =>
    obtain ⟨views, htaken, rfl⟩ := writeViews_eq_ok hw
    obtain ⟨views', htaken', rfl⟩ := writeViews_eq_ok hw'
    have hviews : views = views' := by
      obtain heq | ⟨first, hfirst, hahead⟩ := h.views
      · rw [heq, htaken'] at htaken
        exact (Except.ok.inj htaken).symm
      · obtain rfl : first = updates := Except.ok.inj (hfirst.symm.trans hplanned)
        rw [hs'.apply_again hahead] at htaken
        rw [hahead] at htaken'
        exact (Except.ok.inj htaken).symm.trans (Except.ok.inj htaken')
    rw [hviews, h.base]

/-- A write of another partition to the base tables does not matter for the updates of the call. -/
theorem Leads.writeBase (h : s.Leads e call s') (hbase : ∃ h, s.base.Represents h) {m : Mutation}
    (hne : m.partition ≠ call.mutation.partition) (f : Faults) :
    Alike (Leads e call) (s.writeBase f m) (s'.writeBase f m) := by
  obtain ⟨history, hrepresents⟩ := hbase
  obtain ⟨base, happly, hafter⟩ := hrepresents.apply m
  have happly' : s'.base.apply m = .ok base := h.base ▸ happly
  have hsame : e.updates s.base.reader call.mutation call.now =
      e.updates base.reader call.mutation call.now := Engine.updates_eq_of_agreeOn
    (hrepresents.agreeOn hafter (History.agreeOn_append_singleton history hne))
  unfold Store.writeBase
  rw [happly, happly']
  cases f.baseWrite with
  | some err => exact .error err
  | none => exact .ok ⟨rfl, hsame ▸ h.views⟩

/-- A call of another partition does the same on both stores. -/
theorem Leads.advance_of_ne (h : s.Leads e call s') (hs' : s'.views.WellFormed)
    (hbase : ∃ h, s.base.Represents h) (hne : other.mutation.partition ≠ call.mutation.partition)
    (f : Faults) (hopen : phase.isOpen = true) :
    (other.advance e f s phase).1 = (other.advance e f s' phase).1 ∧
      (other.advance e f s phase).2.Leads e call (other.advance e f s' phase).2 := by
  cases phase with
  | locked =>
    simp only [Call.advance, ← h.base]
    cases e.updates (f.reader s.base.reader) other.mutation other.now with
    | error err => exact ⟨rfl, h⟩
    | ok updates => exact ⟨rfl, h⟩
  | planned updates =>
    have halike := h.writeViews hs' f updates
    simp only [Call.advance]
    generalize s.writeViews f updates = r at halike ⊢
    generalize s'.writeViews f updates = r' at halike ⊢
    cases halike with
    | error err => exact ⟨rfl, h⟩
    | ok hleads => exact ⟨rfl, hleads⟩
  | viewsWritten updates =>
    have halike := h.writeBase hbase hne f
    simp only [Call.advance]
    generalize s.writeBase f other.mutation = r at halike ⊢
    generalize s'.writeBase f other.mutation = r' at halike ⊢
    cases halike with
    | error err => exact ⟨rfl, h⟩
    | ok hleads => exact ⟨rfl, hleads⟩
  | notStarted | waiting | decided | released | finished => cases hopen

/-- The call itself does the same on both stores, and once it has written its updates to the views the
    stores are the same. -/
theorem Leads.advance_self (h : s.Leads e call s') (hs' : s'.views.WellFormed) (f : Faults)
    (hopen : phase.isOpen = true)
    (hplanned : ∀ updates, phase.planned? = some updates →
      e.updates s.base.reader call.mutation call.now = .ok updates)
    (hwritten : phase.hasWritten = true → s = s') :
    (call.advance e f s phase).1 = (call.advance e f s' phase).1 ∧
      (call.advance e f s phase).2.Leads e call (call.advance e f s' phase).2 ∧
      ((call.advance e f s phase).1.hasWritten = true →
        (call.advance e f s phase).2 = (call.advance e f s' phase).2) := by
  cases phase with
  | locked =>
    simp only [Call.advance, ← h.base]
    cases e.updates (f.reader s.base.reader) call.mutation call.now with
    | error err => exact ⟨rfl, h, fun hdone => by cases hdone⟩
    | ok updates => exact ⟨rfl, h, fun hdone => by cases hdone⟩
  | planned updates =>
    simp only [Call.advance, h.writeViews_eq hs' f (hplanned updates rfl)]
    cases s'.writeViews f updates with
    | error err => exact ⟨rfl, h, fun hdone => by cases hdone⟩
    | ok written => exact ⟨rfl, .refl e call written, fun _ => rfl⟩
  | viewsWritten updates =>
    obtain rfl := hwritten rfl
    exact ⟨rfl, .refl e call _, fun _ => rfl⟩
  | notStarted | waiting | decided | released | finished => cases hopen

/-- An attempt that does not succeed changes the views only, and by the updates of the call. -/
theorem Leads.of_advances (h : s.Leads e call s') (hs' : s'.views.WellFormed) {after : Store}
    (hadvances : call.Advances e s phase phase' after)
    (hplanned : ∀ updates, phase.planned? = some updates →
      e.updates s.base.reader call.mutation call.now = .ok updates)
    (hfailed : ∀ updates, phase'.result? ≠ some (.ok updates)) : after.Leads e call s' := by
  cases hadvances with
  | refuse | plan => exact h
  | @writeViews updates views htaken =>
    refine ⟨h.base, .inr ⟨updates, hplanned updates rfl, ?_⟩⟩
    obtain heq | ⟨first, hfirst, hahead⟩ := h.views
    · rw [← heq]
      exact htaken
    · obtain rfl : first = updates := Except.ok.inj (hfirst.symm.trans (hplanned updates rfl))
      rw [hs'.apply_again hahead] at htaken
      rw [hahead, Except.ok.inj htaken]
  | @writeBase updates => exact absurd rfl (hfailed updates)

end Store

namespace Concurrent

variable {Task : Type} {e : Engine} {calls : Task → Call} {c c' : Concurrent Task} {task last : Task}
  {f : Faults} {move : Move Task} {moves : List (Move Task)}

/-- Whether a move is of the partition of a task. -/
def Concerns (calls : Task → Call) (task : Task) (move : Move Task) : Prop :=
  (calls move.task).partition = (calls task).partition

instance (task : Task) : DecidablePred (Concerns calls task) := fun move =>
  inferInstanceAs (Decidable ((calls move.task).partition = (calls task).partition))

/-- No other task has the lock of the partition of a task. -/
def IsFreeFor (calls : Task → Call) (task : Task) (c : Concurrent Task) : Prop :=
  ∀ t, t ≠ task → (calls t).partition = (calls task).partition → (c.phase t).hasLock = false

theorem ne_task (hmove : move.task = last ∨ ¬ Concerns calls last move) {t : Task} (hne : t ≠ last)
    (hpartition : (calls t).partition = (calls last).partition) : t ≠ move.task := by
  intro heq
  subst heq
  cases hmove with
  | inl hlast => exact hne hlast
  | inr hother => exact hother hpartition

theorem phase_of_result? {result : Call.Result} (h : c.result? task = some result) :
    c.phase task = .finished result := by
  unfold result? at h
  split at h
  next hphase => rw [hphase, Option.some.inj h]
  next => cases h

variable [DecidableEq Task]

section Alike

theorem phase_drop_eq (hphase : c.phase task = c'.phase task) :
    (c.drop task).phase task = (c'.drop task).phase task := by
  simp only [drop, ← hphase]
  cases hold : c.phase task with
  | waiting | locked | planned | viewsWritten => simp only [phase_enterPhase_self]
  | notStarted | decided | released | finished => rw [← hphase, hold]

/-- A call that waits for its lock or lets go of it does the same in two states in which the same tasks
    have the lock. -/
theorem phase_stepWith_eq (hqueued : Queued calls c) (hqueued' : Queued calls c')
    (hphase : c.phase task = c'.phase task) (hclosed : (c.phase task).isOpen = false)
    (hlocks : ∀ t, (calls t).partition = (calls task).partition →
      (c.phase t).hasLock = (c'.phase t).hasLock) :
    (c.stepWith e calls f task).phase task = (c'.stepWith e calls f task).phase task := by
  cases hold : c.phase task with
  | notStarted | decided | released =>
    simp only [stepWith, ← hphase, hold, phase_enterPhase_self]
  | waiting =>
    have hholds : (c.sequencer.poll task).holds task = (c'.sequencer.poll task).holds task := by
      rw [Bool.eq_iff_iff, hqueued.holds_poll_iff hold, hqueued'.holds_poll_iff (hphase ▸ hold)]
      refine forall_congr' fun t => forall_congr' fun ht => ?_
      rw [hlocks t ht]
    simp only [stepWith, ← hphase, hold, ← hholds]
    split
    · simp only [phase_enterPhase_self]
    · rw [← hphase]
  | finished => simp only [stepWith, ← hphase, hold]
  | locked | planned | viewsWritten =>
    rw [hold] at hclosed
    cases hclosed

theorem hasWritten_perform {t : Task} (h : t ≠ move.task ∨ (c.phase t).isOpen = false) :
    ((c.perform e calls move).phase t).hasWritten = (c.phase t).hasWritten := by
  by_cases hne : t = move.task
  · subst hne
    have hclosed := h.resolve_left fun hne => hne rfl
    obtain hsteps | ⟨hnone, hdrop⟩ := perform_cases e calls c move
    · generalize c.perform e calls move = c₁ at hsteps
      cases hsteps with
      | rest => rfl
      | arrive hphase | lock hphase =>
        rw [phase_enterPhase_self, hphase]
        rfl
      | advance hopen =>
        rw [hclosed] at hopen
        cases hopen
      | @release result hphase | @finish result _ hphase =>
        rw [phase_enterPhase_self, hphase]
        cases result <;> rfl
    · rw [hdrop, phase_enterPhase_self]
      generalize c.phase move.task = phase at hclosed hnone
      cases phase with
      | notStarted | waiting => rfl
      | locked | planned | viewsWritten => cases hclosed
      | decided | released | finished => cases hnone
  · rw [phase_perform_of_ne hne]

end Alike

theorem IsFreeFor.perform (h : IsFreeFor calls last c)
    (hmove : move.task = last ∨ ¬ Concerns calls last move) :
    IsFreeFor calls last (c.perform e calls move) := by
  intro t hne hpartition
  rw [phase_perform_of_ne (ne_task hmove hne hpartition)]
  exact h t hne hpartition

/-- In the first state there may have been attempts of the call of a task that did not succeed. In the
    second state there were none, and all else has happened alike. -/
structure Attempted (e : Engine) (calls : Task → Call) (last : Task) (c c' : Concurrent Task) :
    Prop where
  sound : Sound e calls c
  sound' : Sound e calls c'
  isFree' : IsFreeFor calls last c'
  phase : ∀ t, t = last ∨ (calls t).partition ≠ (calls last).partition → c.phase t = c'.phase t
  leads : c.store.Leads e (calls last) c'.store
  written : (c.phase last).hasWritten = true → c.store = c'.store

namespace Attempted

theorem refl (hsound : Sound e calls c) (hfree : IsFreeFor calls last c) :
    Attempted e calls last c c :=
  ⟨hsound, hsound, hfree, fun _ _ => rfl, .refl _ _ _, fun _ => rfl⟩

/-- An attempt goes on that does not succeed. -/
theorem attempt (h : Attempted e calls last c c') (hne : move.task ≠ last)
    (hcall : calls move.task = calls last) (hidle : c.phase last = .notStarted)
    (hfailed : ∀ updates, ((c.perform e calls move).phase move.task).result? ≠ some (.ok updates)) :
    Attempted e calls last (c.perform e calls move) c' := by
  have hlast : (c.perform e calls move).phase last = .notStarted := by
    rw [phase_perform_of_ne hne.symm, hidle]
  refine ⟨h.sound.perform move, h.sound', h.isFree', fun t ht => ?_, ?_, fun hwritten => ?_⟩
  · have hne' : t ≠ move.task := by
      intro heq
      subst heq
      exact ht.elim hne fun hpartition => hpartition (by rw [hcall])
    rw [phase_perform_of_ne hne']
    exact h.phase t ht
  · have hplanned := h.sound.planned move.task
    obtain hsteps | ⟨_, hdrop⟩ := perform_cases e calls c move
    · generalize c.perform e calls move = c₁ at hsteps hfailed
      cases hsteps with
      | rest | arrive | lock | release | finish => exact h.leads
      | advance hopen hadvances =>
        rw [phase_enterPhase_self] at hfailed
        rw [hcall] at hadvances hplanned
        exact h.leads.of_advances h.sound'.views hadvances hplanned hfailed
    · rw [hdrop]
      exact h.leads
  · rw [hlast] at hwritten
    cases hwritten

/-- A move of both states, by the last attempt or in another partition. -/
theorem shared (h : Attempted e calls last c c')
    (hmove : move.task = last ∨ ¬ Concerns calls last move)
    (hphase : (c.perform e calls move).phase move.task = (c'.perform e calls move).phase move.task)
    (hleads : (c.perform e calls move).store.Leads e (calls last) (c'.perform e calls move).store)
    (hwritten : ((c.perform e calls move).phase last).hasWritten = true →
      (c.perform e calls move).store = (c'.perform e calls move).store) :
    Attempted e calls last (c.perform e calls move) (c'.perform e calls move) := by
  refine ⟨h.sound.perform move, h.sound'.perform move, h.isFree'.perform hmove, fun t ht => ?_,
    hleads, hwritten⟩
  by_cases heq : t = move.task
  · rw [heq]
    exact hphase
  · rw [phase_perform_of_ne heq, phase_perform_of_ne heq]
    exact h.phase t ht

/-- A step of both states. The task finds its lock alike, and it does the same on both stores. -/
theorem step (h : Attempted e calls last c c')
    (hmove : task = last ∨ ¬ Concerns calls last (.step task f))
    (hlocks : ∀ t, (calls t).partition = (calls task).partition →
      (c.phase t).hasLock = (c'.phase t).hasLock)
    (hadvance : (c.phase task).isOpen = true →
      ((calls task).advance e f c.store (c.phase task)).1 =
          ((calls task).advance e f c'.store (c.phase task)).1 ∧
        ((calls task).advance e f c.store (c.phase task)).2.Leads e (calls last)
          ((calls task).advance e f c'.store (c.phase task)).2 ∧
        (((c.perform e calls (.step task f)).phase last).hasWritten = true →
          ((calls task).advance e f c.store (c.phase task)).2 =
            ((calls task).advance e f c'.store (c.phase task)).2)) :
    Attempted e calls last (c.perform e calls (.step task f)) (c'.perform e calls (.step task f)) := by
  have hphase : c.phase task = c'.phase task := h.phase task hmove
  cases hopen : (c.phase task).isOpen with
  | true =>
    have hstep : c.perform e calls (.step task f) = _ := stepWith_of_isOpen hopen
    have hstep' : c'.perform e calls (.step task f) = _ := stepWith_of_isOpen (hphase ▸ hopen)
    rw [← hphase] at hstep'
    obtain ⟨hnext, hleads, hsame⟩ := hadvance hopen
    refine h.shared hmove ?_ ?_ fun hwritten => ?_
    · rw [hstep, hstep']
      change (enterPhase _ task _).phase task = (enterPhase _ task _).phase task
      rw [phase_enterPhase_self, phase_enterPhase_self, hnext]
    · rw [hstep, hstep']
      exact hleads
    · have hstores := hsame hwritten
      rw [hstep, hstep']
      exact hstores
  | false =>
    have hstore : (c.perform e calls (.step task f)).store = c.store := store_perform hopen
    have hstore' : (c'.perform e calls (.step task f)).store = c'.store :=
      store_perform (hphase ▸ hopen)
    have hlast : last ≠ task ∨ (c.phase last).isOpen = false := by
      by_cases heq : last = task
      · exact .inr (heq ▸ hopen)
      · exact .inl heq
    have hkeep : ((c.perform e calls (.step task f)).phase last).hasWritten =
        (c.phase last).hasWritten := hasWritten_perform hlast
    refine h.shared hmove ?_ ?_ fun hwritten => ?_
    · exact phase_stepWith_eq h.sound.toQueued h.sound'.toQueued hphase hopen hlocks
    · rw [hstore, hstore']
      exact h.leads
    · rw [hkeep] at hwritten
      rw [hstore, hstore', h.written hwritten]

/-- A call of another partition goes on. -/
theorem other (h : Attempted e calls last c c') (hother : ¬ Concerns calls last move) :
    Attempted e calls last (c.perform e calls move) (c'.perform e calls move) := by
  have hphase := h.phase move.task (.inr hother)
  have hne : last ≠ move.task := by
    intro heq
    subst heq
    exact hother rfl
  cases move with
  | step task f =>
    refine h.step (.inr hother) (fun t ht => ?_) fun hopen => ?_
    · rw [h.phase t (.inr fun heq => hother (ht.symm.trans heq))]
    · obtain ⟨hnext, hleads⟩ := h.leads.advance_of_ne h.sound'.views h.sound.base hother f hopen
      refine ⟨hnext, hleads, fun hwritten => ?_⟩
      rw [hasWritten_perform (.inl hne)] at hwritten
      rw [h.written hwritten]
  | drop task =>
    have hstore : (c.perform e calls (.drop task)).store = c.store := c.store_drop task
    have hstore' : (c'.perform e calls (.drop task)).store = c'.store := c'.store_drop task
    refine h.shared (.inr hother) (phase_drop_eq hphase) ?_ fun hwritten => ?_
    · rw [hstore, hstore']
      exact h.leads
    · rw [hasWritten_perform (.inl hne)] at hwritten
      rw [hstore, hstore', h.written hwritten]

/-- The last attempt goes on. -/
theorem own (h : Attempted e calls last c c') (hfree : IsFreeFor calls last c) (f : Faults) :
    Attempted e calls last (c.perform e calls (.step last f)) (c'.perform e calls (.step last f)) := by
  refine h.step (.inl rfl) (fun t ht => ?_) fun hopen => ?_
  · by_cases hne : t = last
    · rw [hne, h.phase last (.inl rfl)]
    · rw [hfree t hne ht, h.isFree' t hne ht]
  · obtain ⟨hnext, hleads, hsame⟩ := h.leads.advance_self h.sound'.views f hopen
      (h.sound.planned last) h.written
    refine ⟨hnext, hleads, fun hwritten => hsame ?_⟩
    have hstep : c.perform e calls (.step last f) = _ := stepWith_of_isOpen hopen
    rw [hstep, phase_enterPhase_self] at hwritten
    exact hwritten

/-- Attempts that do not succeed go on, and calls of other partitions do. -/
theorem before (h : Attempted e calls last c c') (hidle : c.phase last = .notStarted)
    (hattempts : ∀ move ∈ moves, Concerns calls last move → move.task ≠ last ∧
      calls move.task = calls last ∧
      ∀ updates, ((c.runMoves e calls moves).phase move.task).result? ≠ some (.ok updates)) :
    Attempted e calls last (c.runMoves e calls moves)
        (c'.runMoves e calls (moves.filter fun move => ¬ Concerns calls last move)) ∧
      (c.runMoves e calls moves).phase last = .notStarted := by
  induction moves generalizing c c' with
  | nil => exact ⟨h, hidle⟩
  | cons move moves ih =>
    have hrest := fun m hm => hattempts m (List.mem_cons_of_mem move hm)
    by_cases hconcerns : Concerns calls last move
    · obtain ⟨hne, hcall, hfailed⟩ := hattempts move List.mem_cons_self hconcerns
      have hfailed' : ∀ updates,
          ((c.perform e calls move).phase move.task).result? ≠ some (.ok updates) :=
        fun updates hok => hfailed updates (result?_runMoves hok moves)
      have hlast : (c.perform e calls move).phase last = .notStarted := by
        rw [phase_perform_of_ne hne.symm, hidle]
      rw [List.filter_cons_of_neg (by simpa using hconcerns)]
      exact ih (h.attempt hne hcall hidle hfailed') hlast hrest
    · have hlast : (c.perform e calls move).phase last = .notStarted := by
        rw [phase_perform_of_ne fun heq => hconcerns (congrArg (fun t => (calls t).partition) heq.symm),
          hidle]
      rw [List.filter_cons_of_pos (by simpa using hconcerns)]
      exact ih (h.other hconcerns) hlast hrest

/-- The last attempt goes on, and calls of other partitions do. -/
theorem after (h : Attempted e calls last c c') (hfree : IsFreeFor calls last c)
    (hmoves : ∀ move ∈ moves, Concerns calls last move → ∃ f, move = .step last f) :
    Attempted e calls last (c.runMoves e calls moves) (c'.runMoves e calls moves) := by
  induction moves generalizing c c' with
  | nil => exact h
  | cons move moves ih =>
    have hrest := fun m hm => hmoves m (List.mem_cons_of_mem move hm)
    by_cases hconcerns : Concerns calls last move
    · obtain ⟨f, rfl⟩ := hmoves move List.mem_cons_self hconcerns
      exact ih (h.own hfree f) (hfree.perform (.inl rfl)) hrest
    · exact ih (h.other hconcerns) (hfree.perform (.inr hconcerns)) hrest

end Attempted

/-- The last attempt gets no further than the queue while an attempt before it keeps the lock. -/
theorem waits_of_not_free (hqueued : Queued calls c) {holder : Task} (hne : holder ≠ last)
    (hpartition : (calls holder).partition = (calls last).partition)
    (hlock : (c.phase holder).hasLock = true)
    (hidle : c.phase last = .notStarted ∨ c.phase last = .waiting)
    (hmoves : ∀ move ∈ moves, Concerns calls last move → move.task = last) :
    (c.runMoves e calls moves).phase last = .notStarted ∨
      (c.runMoves e calls moves).phase last = .waiting := by
  induction moves generalizing c with
  | nil => exact hidle
  | cons move moves ih =>
    have hmove : move.task = last ∨ ¬ Concerns calls last move :=
      or_not_of_imp (hmoves move List.mem_cons_self)
    have hlock' : ((c.perform e calls move).phase holder).hasLock = true := by
      rw [phase_perform_of_ne (ne_task hmove hne hpartition)]
      exact hlock
    refine ih (hqueued.perform move) hlock' ?_ fun m hm => hmoves m (List.mem_cons_of_mem move hm)
    by_cases hlast : last = move.task
    · subst hlast
      obtain hsteps | ⟨_, hdrop⟩ := perform_cases e calls c move
      · generalize c.perform e calls move = c₁ at hsteps
        cases hsteps with
        | rest => exact hidle
        | arrive => exact .inr (phase_enterPhase_self _ _ _)
        | lock hwaiting hholds =>
          have hfree := (hqueued.holds_poll_iff hwaiting).mp hholds holder hpartition
          rw [hlock] at hfree
          cases hfree
        | advance hopen =>
          obtain hphase | hphase := hidle
          · rw [hphase] at hopen
            cases hopen
          · rw [hphase] at hopen
            cases hopen
        | release hphase | finish hphase =>
          rw [hphase] at hidle
          obtain heq | heq := hidle
          · cases heq
          · cases heq
      · rw [hdrop]
        exact .inl (phase_enterPhase_self _ _ _)
    · rw [phase_perform_of_ne hlast]
      exact hidle

/-- Attempts of a call that fail or are dropped, at any step and with calls of other partitions
    in between, and then one that succeeds, return and leave what the last attempt alone does:
    the same updates, the same stores, and the same phases of all calls of other partitions. The
    last attempt computes the updates from the same rows, and the views absorb what they have of
    them already. -/
theorem runMoves_eq_of_attempts {s : Store} (hbase : s.base.Reachable) (hviews : s.views.Reachable)
    {earlier before after : List (Move Task)} {updates : List ViewUpdate}
    (hfree : ∀ t, (calls t).partition = (calls last).partition →
      (((start s).runMoves e calls earlier).phase t).hasLock = false)
    (hstart : ((start s).runMoves e calls earlier).phase last = .notStarted)
    (hattempts : ∀ move ∈ before, Concerns calls last move → move.task ≠ last ∧
      calls move.task = calls last ∧ ∀ updates,
        ((((start s).runMoves e calls earlier).runMoves e calls before).phase move.task).result? ≠
          some (.ok updates))
    (hlast : ∀ move ∈ after, Concerns calls last move → ∃ f, move = .step last f)
    (hok : (((start s).runMoves e calls earlier).runMoves e calls (before ++ after)).result? last =
      some (.ok updates)) :
    let attempted := ((start s).runMoves e calls earlier).runMoves e calls (before ++ after)
    let alone := ((start s).runMoves e calls earlier).runMoves e calls
      (before.filter (fun move => ¬ Concerns calls last move) ++ after)
    alone.result? last = some (.ok updates) ∧ alone.store = attempted.store ∧
      ∀ t, (calls t).partition ≠ (calls last).partition → alone.phase t = attempted.phase t := by
  have hsound : Sound e calls ((start s).runMoves e calls earlier) :=
    (sound_start hbase hviews).runMoves earlier
  generalize (start s).runMoves e calls earlier = c₀ at hfree hstart hattempts hok hsound ⊢
  intro attempted alone
  obtain ⟨hbefore, hidle⟩ := (Attempted.refl hsound fun t _ => hfree t).before hstart hattempts
  have hfinished : attempted.phase last = .finished (.ok updates) := phase_of_result? hok
  have hfree' : IsFreeFor calls last (c₀.runMoves e calls before) := by
    intro t hne hpartition
    -- With the lock left behind by an earlier attempt, the last one would not have come to its end.
    refine Bool.eq_false_iff.mpr fun hlock => ?_
    have hwaits := waits_of_not_free (e := e) hbefore.sound.toQueued hne hpartition hlock (.inl hidle)
      fun move hmove hconcerns => by
        obtain ⟨f, rfl⟩ := hlast move hmove hconcerns
        rfl
    rw [← runMoves_append, hfinished] at hwaits
    obtain heq | heq := hwaits
    · cases heq
    · cases heq
  have hafter : Attempted e calls last attempted alone := by
    change Attempted e calls last (c₀.runMoves e calls (before ++ after)) (c₀.runMoves e calls (_ ++ after))
    rw [runMoves_append, runMoves_append]
    exact hbefore.after hfree' hlast
  refine ⟨?_, (hafter.written (by rw [hfinished]; rfl)).symm, fun t ht => (hafter.phase t (.inr ht)).symm⟩
  rw [result?, ← hafter.phase last (.inl rfl), hfinished]

/-- Calls that write the status of one order, and one that writes another order. -/
def orderCalls (task : Fin 4) : Call :=
  ⟨((RowWrite.insert (if task = 3 then .ofPartition [1] else Engine.order) 5).set "status" [2]).toMutation,
    1⟩

/-- The other order is being written. -/
def otherOrder : Concurrent (Fin 4) :=
  (start (.ofViews Engine.ordersEngine.views)).runMoves Engine.ordersEngine orderCalls
    (List.replicate 3 (.step 3 .none))

/-- One attempt fails at the base table after it has written the views, another one is dropped there,
    and the other order is written in the meantime. -/
def failedAttempts : List (Move (Fin 4)) :=
  List.replicate 4 (.step 0 .none) ++
    [.step 3 .none, .step 0 { Faults.none with baseWrite := some (.failed "disk") }, .step 0 .none,
      .step 3 .none] ++
    List.replicate 4 (.step 1 .none) ++ [.drop 1, .step 3 .none]

/-- The third attempt succeeds. -/
theorem runMoves_eq_of_failedAttempts :
    let attempted := otherOrder.runMoves Engine.ordersEngine orderCalls
      (failedAttempts ++ List.replicate 7 (.step 2 .none))
    let alone := otherOrder.runMoves Engine.ordersEngine orderCalls
      (failedAttempts.filter (fun move => ¬ Concerns orderCalls 2 move) ++
        List.replicate 7 (.step 2 .none))
    ∃ updates, attempted.result? 2 = some (.ok updates) ∧ alone.result? 2 = some (.ok updates) ∧
      alone.store = attempted.store := by
  intro attempted alone
  have hviews : (ViewTables.ofViews Engine.ordersEngine.views).Reachable := .add (.add .empty _) _
  have hother : (orderCalls 3).partition ≠ (orderCalls 2).partition := by decide
  have hlocks : ∀ t, (otherOrder.phase t).hasLock = true → t = 3 := by decide +kernel
  have hfree : ∀ t, (orderCalls t).partition = (orderCalls 2).partition →
      (otherOrder.phase t).hasLock = false := by
    intro t ht
    refine Bool.eq_false_iff.mpr fun hlock => hother ?_
    rw [← hlocks t hlock, ht]
  have hfailed : ∀ t, t ≠ 3 → ((otherOrder.runMoves Engine.ordersEngine orderCalls failedAttempts).phase
      t).result?.all (fun result => !result.isOk) = true := by decide +kernel
  have htasks : failedAttempts.all (fun move => move.task = 3 ∨ move.task = 0 ∨ move.task = 1) = true := by
    decide
  have hattempts : ∀ move ∈ failedAttempts, Concerns orderCalls 2 move → move.task ≠ 2 ∧
      orderCalls move.task = orderCalls 2 ∧ ∀ updates, ((otherOrder.runMoves Engine.ordersEngine
        orderCalls failedAttempts).phase move.task).result? ≠ some (.ok updates) := by
    intro move hmove hconcerns
    have hne : move.task ≠ 3 := fun heq => hother (heq ▸ hconcerns)
    have htask : move.task = 0 ∨ move.task = 1 :=
      (of_decide_eq_true (List.all_eq_true.mp htasks move hmove)).resolve_left hne
    have hnot := hfailed move.task hne
    refine ⟨?_, ?_, fun updates hresult => ?_⟩
    · obtain heq | heq := htask <;> rw [heq] <;> decide
    · obtain heq | heq := htask <;> rw [heq] <;> rfl
    · rw [hresult] at hnot
      cases hnot
  have hlast : ∀ move ∈ List.replicate 7 (Move.step 2 Faults.none), Concerns orderCalls 2 move →
      ∃ f, move = .step 2 f := fun move hmove _ => ⟨.none, List.eq_of_mem_replicate hmove⟩
  have hdone : (attempted.result? 2).any Except.isOk = true := by decide +kernel
  obtain ⟨updates, hok⟩ : ∃ updates, attempted.result? 2 = some (.ok updates) := by
    generalize attempted.result? 2 = result at hdone
    match result with
    | some (.ok updates) => exact ⟨updates, rfl⟩
  obtain ⟨halone, hstore, _⟩ := runMoves_eq_of_attempts BaseTable.Reachable.empty hviews hfree rfl
    hattempts hlast hok
  exact ⟨updates, hok, halone, hstore⟩

end Concurrent

end ViewMaintenance
