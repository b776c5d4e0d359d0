import ViewMaintenance.Engine.Attempts
import ViewMaintenance.Proofs.Engine.Serializability
import ViewMaintenance.Proofs.Sequencer.Tickets
import ViewMaintenance.Proofs.Store.Batches
import ViewMaintenance.Proofs.Store.BrokenScan

namespace ViewMaintenance

namespace Phase

/-- Whether a call with a ticket holds its lock; a call that is not in the queue has no ticket. -/
def ticket? : Phase → Option Bool
  | waiting => some false
  | locked | planned _ | viewsWritten _ | decided _ => some true
  | notStarted | released _ | finished _ => none

/-- The updates that a call has planned and has not finished writing. -/
def planned? : Phase → Option (List ViewUpdate)
  | planned updates | viewsWritten updates => some updates
  | notStarted | waiting | locked | decided _ | released _ | finished _ => none

theorem hasLock_iff {phase : Phase} : phase.hasLock = true ↔ phase.ticket? = some true := by
  cases phase <;> simp [hasLock, ticket?]

end Phase

/-- What the next step of a call with its lock can do. -/
inductive Call.Advances (call : Call) (e : Engine) (s : Store) : Phase → Phase → Store → Prop
  | refuse {phase : Phase} (err : EngineError) : Advances call e s phase (.decided (.error err)) s
  | plan {updates : List ViewUpdate}
      (hupdates : e.updates s.base.reader call.mutation call.now = .ok updates) :
      Advances call e s .locked (.planned updates) s
  | writeViews {updates : List ViewUpdate} {views : ViewTables}
      (hviews : s.views.apply updates = .ok views) :
      Advances call e s (.planned updates) (.viewsWritten updates) { s with views }
  | writeBase {updates : List ViewUpdate} {base : BaseTable}
      (hbase : s.base.apply call.mutation = .ok base) :
      Advances call e s (.viewsWritten updates) (.decided (.ok updates)) { s with base }

namespace Faults

theorem call_eq_ok {α : Type} {fault : Option StoreError} {result : Except StoreError α} {a : α}
    (h : call fault result = .ok a) : result = .ok a := by
  cases fault with
  | none => exact h
  | some err => cases h

/-- A scan that is read to its end has met no fault. -/
theorem mapM_cut_eq_ok {f : Faults} {items : List RowResult} {rows : List Row}
    (h : (f.cut items).mapM id = .ok rows) : items.mapM id = .ok rows := by
  unfold cut at h
  split at h
  next n err _ =>
    have hmem : .error err ∈ items.take n ++ [.error err] :=
      List.mem_append_right _ (List.mem_singleton_self _)
    obtain ⟨err', herror⟩ := Scan.mapM_id_fails_iff.mpr ⟨err, hmem⟩
    rw [herror] at h
    cases h
  next => exact h

end Faults

namespace Engine

variable {e : Engine} {f : Faults} {base : BaseReader} {m : Mutation} {now : Timestamp}
  {updates : List ViewUpdate}

/-- Faults of the base table change nothing for the updates, or fail them with an error of the store. -/
theorem updates_reader_cases (e : Engine) (f : Faults) (base : BaseReader) (m : Mutation)
    (now : Timestamp) : e.updates (f.reader base) m now = e.updates base m now ∨
      ∃ err, e.updates (f.reader base) m now = .error (.store err) := by
  have hmap {r r' : Except EngineError (List ViewUpdate)}
      (hr : r = r' ∨ ∃ err, r = .error (.store err)) :
      (r.map fun us => us.filter fun u => !u.isEmpty) =
          (r'.map fun us => us.filter fun u => !u.isEmpty) ∨
        ∃ err, (r.map fun us => us.filter fun u => !u.isEmpty) = .error (.store err) := by
    obtain rfl | ⟨err, rfl⟩ := hr
    · exact .inl rfl
    · exact .inr ⟨err, rfl⟩
  have hdeletion (partition : Bytes) (range : ClusteringRange) (x : Deletion) :
      e.deletionUpdates (f.reader base) partition range x now =
          e.deletionUpdates base partition range x now ∨
        ∃ err, e.deletionUpdates (f.reader base) partition range x now = .error (.store err) := by
    simp only [deletionUpdates, Faults.reader]
    cases f.scan with
    | some err => exact .inr ⟨err, rfl⟩
    | none =>
      cases base.scan partition range with
      | error err => exact .inl rfl
      | ok items =>
        cases hrows : (f.cut items).mapM id with
        | error err =>
          refine .inr ⟨err, ?_⟩
          simp only [Faults.call, Except.map, Except.mapError, bind, Except.bind, hrows]
        | ok rows =>
          have hall := Faults.mapM_cut_eq_ok hrows
          refine .inl ?_
          simp only [Faults.call, Except.map, Except.mapError, bind, Except.bind, hrows, hall]
  have hrow (fragment : Row) :
      e.rowUpdates (f.reader base) fragment now = e.rowUpdates base fragment now ∨
        ∃ err, e.rowUpdates (f.reader base) fragment now = .error (.store err) := by
    simp only [rowUpdates, Faults.reader]
    cases f.read with
    | some err => exact .inr ⟨err, rfl⟩
    | none => exact .inl rfl
  cases m with
  | row fragment => exact hmap (hrow fragment)
  | deleteRange partition range x => exact hmap (hdeletion partition range x)
  | deletePartition partition x => exact hmap (hdeletion partition .full x)

/-- Updates that were computed in spite of faults are those that are computed without them. -/
theorem updates_of_reader (h : e.updates (f.reader base) m now = .ok updates) :
    e.updates base m now = .ok updates := by
  rcases e.updates_reader_cases f base m now with hsame | ⟨err, herr⟩
  · rwa [hsame] at h
  · rw [herr] at h
    cases h

end Engine

namespace Store

variable {s s' : Store} {f : Faults}

/-- A write to the views that succeeds is a batch that the views take, if there are updates or not. -/
theorem writeViews_eq_ok {updates : List ViewUpdate} (h : s.writeViews f updates = .ok s') :
    ∃ views, s.views.apply updates = .ok views ∧ s' = { s with views } := by
  unfold writeViews at h
  split at h
  next hempty =>
    rw [List.isEmpty_iff.mp hempty]
    exact ⟨s.views, rfl, (Except.ok.inj h).symm⟩
  next =>
    cases hviews : Faults.call f.viewWrite (s.views.apply updates) with
    | error err =>
      rw [hviews] at h
      cases h
    | ok views =>
      rw [hviews] at h
      exact ⟨views, Faults.call_eq_ok hviews, (Except.ok.inj h).symm⟩

theorem writeBase_eq_ok {m : Mutation} (h : s.writeBase f m = .ok s') :
    ∃ base, s.base.apply m = .ok base ∧ s' = { s with base } := by
  unfold writeBase at h
  cases hbase : Faults.call f.baseWrite (s.base.apply m) with
  | error err =>
    rw [hbase] at h
    cases h
  | ok base =>
    rw [hbase] at h
    exact ⟨base, Faults.call_eq_ok hbase, (Except.ok.inj h).symm⟩

end Store

namespace Engine

variable {e : Engine} {f : Faults} {m : Mutation} {now : Timestamp} {s : Store}

/-- Whatever fails, a mutation leaves the stores as they were, or the views take the updates and after
    them perhaps the base table the mutation. -/
theorem apply_leaves (e : Engine) (f : Faults) (m : Mutation) (now : Timestamp) (s : Store) :
    (e.apply f m now s).2 = s ∨ ∃ updates views, e.updates s.base.reader m now = .ok updates ∧
      s.views.apply updates = .ok views ∧ ((e.apply f m now s).2 = { s with views } ∨
        ∃ base, s.base.apply m = .ok base ∧ (e.apply f m now s).2 = ⟨base, views⟩) := by
  rw [apply]
  cases hupdates : e.updates (f.reader s.base.reader) m now with
  | error err => exact .inl rfl
  | ok updates =>
    simp only [commit]
    cases hwrite : s.writeViews f updates with
    | error err => exact .inl rfl
    | ok written =>
      obtain ⟨views, hviews, rfl⟩ := Store.writeViews_eq_ok hwrite
      refine .inr ⟨updates, views, updates_of_reader hupdates, hviews, ?_⟩
      simp only
      cases hdone : Store.writeBase { s with views } f m with
      | error err => exact .inl rfl
      | ok done =>
        obtain ⟨base, hbase, rfl⟩ := Store.writeBase_eq_ok hdone
        exact .inr ⟨base, hbase, rfl⟩

/-- Only the updates of a mutation can fail for an unknown column. -/
theorem updates_of_unknownColumn {u : UnknownColumn}
    (h : (e.apply f m now s).1 = .error (.unknownColumn u)) :
    e.updates s.base.reader m now = .error (.unknownColumn u) := by
  rw [apply] at h
  cases hupdates : e.updates (f.reader s.base.reader) m now with
  | error err =>
    rw [hupdates] at h
    obtain rfl : err = .unknownColumn u := Except.error.inj h
    rcases e.updates_reader_cases f s.base.reader m now with hsame | ⟨err, herr⟩
    · rw [← hsame, hupdates]
    · rw [herr] at hupdates
      cases hupdates
  | ok updates =>
    rw [hupdates] at h
    simp only [commit] at h
    split at h
    · cases h
    · split at h <;> cases h

end Engine

namespace Call

variable {call : Call} {e : Engine} {f : Faults} {s : Store}

theorem advances {phase : Phase} (hopen : phase.isOpen = true) :
    call.Advances e s phase (call.advance e f s phase).1 (call.advance e f s phase).2 := by
  cases phase with
  | locked =>
    simp only [advance]
    cases hupdates : e.updates (f.reader s.base.reader) call.mutation call.now with
    | error err => exact .refuse err
    | ok updates => exact .plan (Engine.updates_of_reader hupdates)
  | planned updates =>
    simp only [advance]
    cases hwrite : s.writeViews f updates with
    | error err => exact .refuse (.store err)
    | ok written =>
      obtain ⟨views, hviews, rfl⟩ := Store.writeViews_eq_ok hwrite
      exact .writeViews hviews
  | viewsWritten updates =>
    simp only [advance]
    cases hwrite : s.writeBase f call.mutation with
    | error err => exact .refuse (.store err)
    | ok written =>
      obtain ⟨base, hbase, rfl⟩ := Store.writeBase_eq_ok hwrite
      exact .writeBase hbase
  | notStarted | waiting | decided | released | finished => cases hopen

/-- A call with its lock that goes on alone applies its mutation. -/
theorem advance_advance_advance (call : Call) (e : Engine) (f : Faults) (s : Store) :
    let first := call.advance e f s .locked
    let second := call.advance e f first.2 first.1
    call.advance e f second.2 second.1 =
      (.decided (e.apply f call.mutation call.now s).1, (e.apply f call.mutation call.now s).2) := by
  simp only [advance, Engine.apply]
  cases e.updates (f.reader s.base.reader) call.mutation call.now with
  | error err => rfl
  | ok updates =>
    simp only [Engine.commit]
    cases s.writeViews f updates with
    | error err => rfl
    | ok written =>
      simp only
      cases written.writeBase f call.mutation with
      | error err => rfl
      | ok done => rfl

end Call

namespace Concurrent

variable {Task : Type} [DecidableEq Task] {e : Engine} {calls : Task → Call} {c c' : Concurrent Task}
  {task : Task} {f : Faults}

/-- What the next step of a task can do. -/
inductive Steps (e : Engine) (calls : Task → Call) (c : Concurrent Task) (task : Task) :
    Concurrent Task → Prop
  | rest : Steps e calls c task c
  | arrive (hphase : c.phase task = .notStarted) :
      Steps e calls c task ({ c with
        sequencer := c.sequencer.enter task (calls task).partition }.enterPhase task .waiting)
  | lock (hphase : c.phase task = .waiting) (hholds : (c.sequencer.poll task).holds task = true) :
      Steps e calls c task ({ c with
        sequencer := c.sequencer.poll task
        locked := c.locked ++ [task] }.enterPhase task .locked)
  | advance {phase : Phase} {store : Store} (hopen : (c.phase task).isOpen = true)
      (hadvances : (calls task).Advances e c.store (c.phase task) phase store) :
      Steps e calls c task ({ c with store }.enterPhase task phase)
  | release {result : Call.Result} (hphase : c.phase task = .decided result) :
      Steps e calls c task ({ c with
        sequencer := c.sequencer.release task }.enterPhase task (.released result))
  | finish {result : Call.Result} {sequencer : Sequencer Task} (hphase : c.phase task = .released result)
      (hpruned : sequencer = if e.config.pruneIdlePartitions then c.sequencer.prune else c.sequencer) :
      Steps e calls c task ({ c with sequencer }.enterPhase task (.finished result))

theorem steps_stepWith (e : Engine) (calls : Task → Call) (f : Faults) (c : Concurrent Task)
    (task : Task) : Steps e calls c task (c.stepWith e calls f task) := by
  have hadvance (hopen : (c.phase task).isOpen = true) : Steps e calls c task
      ({ c with store := ((calls task).advance e f c.store (c.phase task)).2 }.enterPhase task
        ((calls task).advance e f c.store (c.phase task)).1) :=
    .advance hopen ((calls task).advances hopen)
  cases hphase : c.phase task with
  | notStarted =>
    simp only [stepWith, hphase]
    exact .arrive hphase
  | waiting =>
    simp only [stepWith, hphase]
    split
    next hholds => exact .lock hphase hholds
    next => exact .rest
  | locked | planned | viewsWritten =>
    simp only [stepWith, hphase]
    rw [hphase] at hadvance
    exact hadvance rfl
  | decided =>
    simp only [stepWith, hphase]
    exact .release hphase
  | released =>
    simp only [stepWith, hphase]
    exact .finish hphase rfl
  | finished =>
    simp only [stepWith, hphase]
    exact .rest

/-- A move is a step, or it drops a call that has no result yet. -/
theorem perform_cases (e : Engine) (calls : Task → Call) (c : Concurrent Task) (move : Move Task) :
    Steps e calls c move.task (c.perform e calls move) ∨
      (c.phase move.task).result? = none ∧ c.perform e calls move =
        { c with sequencer := c.sequencer.release move.task }.enterPhase move.task .notStarted := by
  cases move with
  | step task f => exact .inl (steps_stepWith e calls f c task)
  | drop task =>
    simp only [Move.task, perform, drop]
    cases hphase : c.phase task with
    | waiting | locked | planned | viewsWritten => exact .inr ⟨rfl, rfl⟩
    | notStarted | decided | released | finished => exact .inl .rest

theorem store_drop (c : Concurrent Task) (task : Task) : (c.drop task).store = c.store := by
  unfold drop
  split
  all_goals rfl

theorem stepWith_of_isOpen (hopen : (c.phase task).isOpen = true) :
    c.stepWith e calls f task =
      { c with store := ((calls task).advance e f c.store (c.phase task)).2 }.enterPhase task
        ((calls task).advance e f c.store (c.phase task)).1 := by
  cases hphase : c.phase task with
  | locked | planned | viewsWritten => simp only [stepWith, hphase]
  | notStarted | waiting | decided | released | finished =>
    rw [hphase] at hopen
    cases hopen

theorem runMoves_append (c : Concurrent Task) (moves others : List (Move Task)) :
    c.runMoves e calls (moves ++ others) = (c.runMoves e calls moves).runMoves e calls others :=
  List.foldl_append

section Perform

variable {move : Move Task}

theorem phase_perform_of_ne {t : Task} (hne : t ≠ move.task) (e : Engine) (calls : Task → Call)
    (c : Concurrent Task) : (c.perform e calls move).phase t = c.phase t := by
  obtain hsteps | ⟨_, hdrop⟩ := perform_cases e calls c move
  · generalize c.perform e calls move = c' at hsteps
    cases hsteps with
    | rest => rfl
    | arrive | lock | advance | release | finish => exact phase_enterPhase_of_ne hne _ _
  · rw [hdrop]
    exact phase_enterPhase_of_ne hne _ _

/-- Only a call with its lock and without a result changes the stores. -/
theorem store_perform (hclosed : (c.phase move.task).isOpen = false) :
    (c.perform e calls move).store = c.store := by
  obtain hsteps | ⟨_, hdrop⟩ := perform_cases e calls c move
  · generalize c.perform e calls move = c' at hsteps
    cases hsteps with
    | rest | arrive | lock | release | finish => rfl
    | advance hopen =>
      rw [hclosed] at hopen
      cases hopen
  · rw [hdrop]
    rfl

/-- A call that has a result keeps it. -/
theorem result?_perform {t : Task} {result : Call.Result} (h : (c.phase t).result? = some result) :
    ((c.perform e calls move).phase t).result? = some result := by
  by_cases hne : t = move.task
  · subst hne
    obtain hsteps | ⟨hnone, _⟩ := perform_cases e calls c move
    · generalize c.perform e calls move = c' at hsteps
      cases hsteps with
      | rest => exact h
      | arrive hphase | lock hphase =>
        rw [hphase] at h
        cases h
      | advance hopen =>
        rw [Phase.result?_of_isOpen hopen] at h
        cases h
      | release hphase | finish hphase =>
        rw [phase_enterPhase_self]
        rw [hphase] at h
        exact h
    · rw [hnone] at h
      cases h
  · rw [phase_perform_of_ne hne]
    exact h

theorem result?_runMoves {t : Task} {result : Call.Result} (h : (c.phase t).result? = some result)
    (moves : List (Move Task)) : ((c.runMoves e calls moves).phase t).result? = some result := by
  induction moves generalizing c with
  | nil => exact h
  | cons move moves ih => exact ih (result?_perform h)

end Perform

section Queued

/-- The tickets of the sequencer are those of the calls in the queues and with locks. -/
structure Queued (calls : Task → Call) (c : Concurrent Task) : Prop where
  reachable : c.sequencer.Reachable
  ticket : ∀ t p b, c.sequencer.HasTicket t p b ↔
    p = (calls t).partition ∧ (c.phase t).ticket? = some b

theorem queued_start (s : Store) : Queued calls (.start s) := by
  refine ⟨.empty, fun t p b => ⟨?_, ?_⟩⟩
  · rintro ⟨_, ht, _⟩
    cases ht
  · rintro ⟨_, hticket⟩
    cases hticket

namespace Queued

/-- A task has the lock of its partition if its phase says so. -/
theorem hasLock_iff (h : Queued calls c) {t : Task} {p : Bytes} :
    c.sequencer.HasLock t p ↔ p = (calls t).partition ∧ (c.phase t).hasLock = true := by
  rw [Phase.hasLock_iff]
  exact h.ticket t p true

/-- Two tasks that have the lock of one partition are one. -/
theorem eq_of_hasLock (h : Queued calls c) {t u : Task} (ht : (c.phase t).hasLock = true)
    (hu : (c.phase u).hasLock = true) (hpartition : (calls t).partition = (calls u).partition) :
    t = u := by
  have hlock := h.hasLock_iff.mpr ⟨rfl, ht⟩
  rw [hpartition] at hlock
  exact h.reachable.consistent.eq_of_hasLock hlock (h.hasLock_iff.mpr ⟨rfl, hu⟩)

theorem hasTicket_of_waiting (h : Queued calls c) (hphase : c.phase task = .waiting) :
    c.sequencer.HasTicket task (calls task).partition false :=
  (h.ticket task _ false).mpr ⟨rfl, by rw [hphase]; rfl⟩

/-- A waiting task gets its lock if no task of its partition has it. -/
theorem holds_poll_iff (h : Queued calls c) (hphase : c.phase task = .waiting) :
    (c.sequencer.poll task).holds task = true ↔
      ∀ t, (calls t).partition = (calls task).partition → (c.phase t).hasLock = false := by
  have hpoll (p : Bytes) := h.reachable.consistent.hasTicket_poll_iff
    (h.hasTicket_of_waiting hphase) task p true
  simp only [if_true, true_iff] at hpoll
  rw [Sequencer.holds_iff_hasLock]
  constructor
  · rintro ⟨p, hlock⟩ t ht
    have hfree := ((hpoll p).mp hlock).2 t
    rw [h.hasLock_iff, not_and] at hfree
    simpa using hfree ht.symm
  · intro hfree
    refine ⟨(calls task).partition, (hpoll _).mpr ⟨rfl, fun t hlock => ?_⟩⟩
    obtain ⟨hpartition, hheld⟩ := h.hasLock_iff.mp hlock
    rw [hfree t hpartition.symm] at hheld
    cases hheld

/-- A task changes its phase and its own ticket. -/
theorem move (h : Queued calls c) {phase : Phase}
    (hphase : c'.phase = (c.enterPhase task phase).phase) (hreachable : c'.sequencer.Reachable)
    (hown : ∀ p b, c'.sequencer.HasTicket task p b ↔
      p = (calls task).partition ∧ phase.ticket? = some b)
    (hothers : ∀ t p b, t ≠ task → (c'.sequencer.HasTicket t p b ↔ c.sequencer.HasTicket t p b)) :
    Queued calls c' := by
  refine ⟨hreachable, fun t p b => ?_⟩
  by_cases ht : t = task
  · rw [ht, hphase, phase_enterPhase_self]
    exact hown p b
  · rw [hphase, phase_enterPhase_of_ne ht, hothers t p b ht]
    exact h.ticket t p b

theorem release (h : Queued calls c) {phase : Phase} (hnone : phase.ticket? = none) :
    Queued calls ({ c with sequencer := c.sequencer.release task }.enterPhase task phase) := by
  refine h.move rfl (h.reachable.release task) (fun p b => ?_) fun t p b ht => ?_
  · change (c.sequencer.release task).HasTicket task p b ↔ _
    rw [Sequencer.hasTicket_release_iff, hnone]
    simp
  · change (c.sequencer.release task).HasTicket t p b ↔ _
    rw [Sequencer.hasTicket_release_iff]
    exact and_iff_right ht

theorem steps (h : Queued calls c) (hsteps : Steps e calls c task c') : Queued calls c' := by
  have hold (p : Bytes) (b : Bool) := h.ticket task p b
  cases hsteps with
  | rest => exact h
  | arrive hphase =>
    have hnone (p : Bytes) (b : Bool) : ¬ c.sequencer.HasTicket task p b := by
      rw [hold, hphase]
      simp [Phase.ticket?]
    refine h.move rfl (h.reachable.enter task _) (fun p b => ?_) fun t p b ht => ?_
    · refine (Sequencer.hasTicket_enter_iff hnone).trans ?_
      simp [hnone, Phase.ticket?, eq_comm]
    · refine (Sequencer.hasTicket_enter_iff hnone).trans ?_
      simp [ht]
  | lock hphase hholds =>
    -- The step is taken only when the lock was free, so the ticket turns into a held one.
    have hfree := (h.holds_poll_iff hphase).mp hholds
    have hpoll := h.reachable.consistent.hasTicket_poll_iff (h.hasTicket_of_waiting hphase)
    have hnolock : ∀ u, ¬ c.sequencer.HasLock u (calls task).partition := by
      intro u hlock
      obtain ⟨hpartition, hheld⟩ := h.hasLock_iff.mp hlock
      rw [hfree u hpartition.symm] at hheld
      cases hheld
    refine h.move rfl (h.reachable.poll task) (fun p b => ?_) fun t p b ht => ?_
    · refine (hpoll task p b).trans ?_
      rw [if_pos rfl, iff_true_right hnolock, Phase.ticket?, Option.some.injEq]
      exact and_congr_right fun _ => eq_comm
    · refine (hpoll t p b).trans ?_
      rw [if_neg ht]
  | @advance phase store hopen hadvances =>
    refine h.move rfl h.reachable (fun p b => ?_) fun t p b _ => Iff.rfl
    refine (hold p b).trans (and_congr_right fun _ => ?_)
    have hbefore : (c.phase task).ticket? = some true :=
      Phase.hasLock_iff.mp (Phase.hasLock_of_isOpen hopen)
    have hafter : phase.ticket? = some true := by
      generalize c.phase task = old at hadvances
      cases hadvances <;> rfl
    rw [hbefore, hafter]
  | release hphase => exact h.release rfl
  | @finish result sequencer hphase hpruned =>
    have htickets : sequencer.tickets = c.sequencer.tickets := by
      rw [hpruned]
      split <;> rfl
    have hreachable : sequencer.Reachable := by
      rw [hpruned]
      split
      · exact h.reachable.prune
      · exact h.reachable
    have hsame (t : Task) (p : Bytes) (b : Bool) :
        sequencer.HasTicket t p b ↔ c.sequencer.HasTicket t p b := by
      unfold Sequencer.HasTicket
      rw [htickets]
    refine h.move rfl hreachable (fun p b => ?_) fun t p b _ => hsame t p b
    refine (hsame task p b).trans ((hold p b).trans ?_)
    rw [hphase]
    rfl

theorem perform (h : Queued calls c) (move : Move Task) : Queued calls (c.perform e calls move) := by
  obtain hsteps | ⟨_, hdrop⟩ := perform_cases e calls c move
  · exact h.steps hsteps
  · rw [hdrop]
    exact h.release rfl

theorem runMoves (h : Queued calls c) (moves : List (Move Task)) :
    Queued calls (c.runMoves e calls moves) := by
  induction moves generalizing c with
  | nil => exact h
  | cons move moves ih => exact ih (h.perform move)

end Queued

end Queued

section Sound

/-- The base table has a history, the view tables are well-formed, and what a call has planned is what
    it would plan now. -/
structure Sound (e : Engine) (calls : Task → Call) (c : Concurrent Task) : Prop
    extends Queued calls c where
  base : ∃ h, c.store.base.Represents h
  views : c.store.views.WellFormed
  planned : ∀ t updates, (c.phase t).planned? = some updates →
    e.updates c.store.base.reader (calls t).mutation (calls t).now = .ok updates

theorem sound_start {s : Store} (hbase : s.base.Reachable) (hviews : s.views.Reachable) :
    Sound e calls (.start s) where
  toQueued := queued_start s
  base := hbase.exists_represents
  views := hviews.wellFormed
  planned _ _ h := by cases h

namespace Sound

/-- A task changes its phase, and the base table stays. -/
theorem move (h : Sound e calls c) {phase : Phase} (hqueued : Queued calls c')
    (hphase : c'.phase = (c.enterPhase task phase).phase) (hbase : c'.store.base = c.store.base)
    (hviews : c'.store.views.WellFormed)
    (hplanned : ∀ updates, phase.planned? = some updates →
      e.updates c.store.base.reader (calls task).mutation (calls task).now = .ok updates) :
    Sound e calls c' := by
  refine ⟨hqueued, ?_, hviews, fun t updates ht => ?_⟩
  · rw [hbase]
    exact h.base
  · rw [hbase]
    rw [hphase] at ht
    by_cases hne : t = task
    · rw [hne, phase_enterPhase_self] at ht
      rw [hne]
      exact hplanned updates ht
    · rw [phase_enterPhase_of_ne hne] at ht
      exact h.planned t updates ht

theorem quiet (h : Sound e calls c) {phase : Phase} (hqueued : Queued calls c')
    (hphase : c'.phase = (c.enterPhase task phase).phase) (hstore : c'.store = c.store)
    (hplanned : phase.planned? = none) : Sound e calls c' := by
  refine h.move hqueued hphase (congrArg Store.base hstore) ?_ fun updates hsome => ?_
  · rw [hstore]
    exact h.views
  · rw [hplanned] at hsome
    cases hsome

/-- A write to the base table leaves the plans of the other calls, which are for other partitions. -/
theorem writeBase (h : Sound e calls c) (hlock : (c.phase task).hasLock = true) {base : BaseTable}
    (hbase : c.store.base.apply (calls task).mutation = .ok base) {result : Call.Result}
    (hqueued : Queued calls
      ({ c with store := { c.store with base } }.enterPhase task (.decided result))) :
    Sound e calls ({ c with store := { c.store with base } }.enterPhase task (.decided result)) := by
  obtain ⟨history, hrepresents⟩ := h.base
  obtain ⟨_, happly, hafter⟩ := hrepresents.apply (calls task).mutation
  obtain rfl := Except.ok.inj (hbase.symm.trans happly)
  refine ⟨hqueued, ⟨_, hafter⟩, h.views, fun t updates ht => ?_⟩
  by_cases hne : t = task
  · rw [hne, phase_enterPhase_self] at ht
    cases ht
  · rw [phase_enterPhase_of_ne hne] at ht
    have hlock' : (c.phase t).hasLock = true := by
      generalize c.phase t = phase at ht
      cases phase with
      | planned | viewsWritten => rfl
      | notStarted | waiting | locked | decided | released | finished => cases ht
    have hpartition : (calls task).mutation.partition ≠ (calls t).mutation.partition :=
      fun heq => hne (h.eq_of_hasLock hlock' hlock heq.symm)
    have hagree := hrepresents.agreeOn hafter (History.agreeOn_append_singleton history hpartition)
    exact (Engine.updates_eq_of_agreeOn hagree).symm.trans (h.planned t updates ht)

theorem steps (h : Sound e calls c) (hsteps : Steps e calls c task c') : Sound e calls c' := by
  have hqueued := h.toQueued.steps hsteps
  cases hsteps with
  | rest => exact h
  | arrive | lock | release | finish => exact h.quiet hqueued rfl rfl rfl
  | @advance phase store hopen hadvances =>
    have hplanned := h.planned task
    have hlock := Phase.hasLock_of_isOpen hopen
    generalize hold : c.phase task = old at hadvances hplanned
    cases hadvances with
    | refuse => exact h.quiet hqueued rfl rfl rfl
    | plan hupdates =>
      refine h.move hqueued rfl rfl h.views fun updates hsome => ?_
      obtain rfl := Option.some.inj hsome
      exact hupdates
    | writeViews hviews =>
      have hwritten := (h.views.receives_of_apply hviews).wellFormed h.views
      exact h.move hqueued rfl rfl hwritten hplanned
    | writeBase hbase => exact h.writeBase hlock hbase hqueued

theorem perform (h : Sound e calls c) (move : Move Task) : Sound e calls (c.perform e calls move) := by
  have hqueued := h.toQueued.perform (e := e) move
  obtain hsteps | ⟨_, hdrop⟩ := perform_cases e calls c move
  · exact h.steps hsteps
  · rw [hdrop] at hqueued ⊢
    exact h.quiet hqueued rfl rfl rfl

theorem runMoves (h : Sound e calls c) (moves : List (Move Task)) :
    Sound e calls (c.runMoves e calls moves) := by
  induction moves generalizing c with
  | nil => exact h
  | cons move moves ih => exact ih (h.perform move)

end Sound

end Sound

end Concurrent

end ViewMaintenance
