import ViewMaintenance.Engine.Concurrent
import ViewMaintenance.Proofs.Engine.Partition
import ViewMaintenance.Proofs.Engine.Run
import ViewMaintenance.Proofs.Sequencer

namespace ViewMaintenance

namespace Phase

/-- The result of a call that has one. -/
def result? : Phase → Option Call.Result
  | decided result | released result | finished result => some result
  | notStarted | waiting | locked | planned _ | viewsWritten _ => none

/-- Whether a call has its lock and no result yet. -/
def isOpen : Phase → Bool
  | locked | planned _ | viewsWritten _ => true
  | notStarted | waiting | decided _ | released _ | finished _ => false

/-- Whether a call has its lock. -/
def hasLock : Phase → Bool
  | locked | planned _ | viewsWritten _ | decided _ => true
  | notStarted | waiting | released _ | finished _ => false

theorem hasLock_of_isOpen {phase : Phase} (h : phase.isOpen = true) : phase.hasLock = true := by
  cases phase with
  | locked | planned | viewsWritten => rfl
  | notStarted | waiting | decided | released | finished => cases h

theorem result?_of_isOpen {phase : Phase} (h : phase.isOpen = true) : phase.result? = none := by
  cases phase with
  | locked | planned | viewsWritten => rfl
  | notStarted | waiting | decided | released | finished => cases h

end Phase

/-- The partition of the mutation of a call. -/
def Call.partition (call : Call) : Bytes := call.mutation.partition

/-- The call as an event of a run. -/
def Call.event (call : Call) : Event := .apply call.mutation call.now

theorem Engine.results_append_singleton (e : Engine) (s : Store) (events : List Event) (call : Call) :
    e.results s (events ++ [call.event]) =
      e.results s events ++ [(e.apply .none call.mutation call.now (e.run s events)).1] := by
  induction events generalizing s with
  | nil => rfl
  | cons ev events ih =>
    cases ev with
    | apply m now => exact congrArg _ (ih _)
    | flush => exact ih _

namespace Concurrent

variable {Task : Type}

/-- The tasks of a partition. -/
def inPartition (calls : Task → Call) (partition : Bytes) (tasks : List Task) : List Task :=
  tasks.filter fun t => (calls t).partition = partition

/-- The stores after calls one after another. -/
def serial (e : Engine) (calls : Task → Call) (s : Store) (order : List Task) : Store :=
  e.run s (order.map fun t => (calls t).event)

/-- How far the views have come ahead of the stores in which a call with the lock has done nothing. -/
def Progress (e : Engine) (call : Call) (views : ViewTables) (s : Store) : Phase → Prop
  | .planned updates => e.updates s.base.reader call.mutation call.now = .ok updates ∧
      s.views.AgreeOn call.partition views
  | .viewsWritten updates => e.updates s.base.reader call.mutation call.now = .ok updates ∧
      ∃ written, s.views.apply updates = .ok written ∧ written.AgreeOn call.partition views
  | _ => s.views.AgreeOn call.partition views

/-- How one partition stands to the stores `s` after the calls `order` that have a result. -/
inductive Synced (e : Engine) (calls : Task → Call) (c : Concurrent Task) (s : Store)
    (order : List Task) (p : Bytes) : Prop
  /-- No call is about to change the partition. -/
  | idle (hclosed : ∀ t, (calls t).partition = p → (c.phase t).isOpen = false)
      (horder : inPartition calls p c.locked = inPartition calls p order)
      (hviews : s.views.AgreeOn p c.store.views)
  /-- One call is about to change it. -/
  | busy (t : Task) (hpartition : (calls t).partition = p) (hopen : (c.phase t).isOpen = true)
      (horder : inPartition calls p c.locked = inPartition calls p order ++ [t])
      (hprogress : Progress e (calls t) c.store.views s (c.phase t))

/-- The state of calls that started with the stores `s`, if those of `order` have their results.
    The base table is that of these calls made one after another. In each partition the view
    tables are so too, but for the updates of the one call that may have written its views and
    not yet the base table. -/
structure Serialized (e : Engine) (calls : Task → Call) (s : Store) (c : Concurrent Task)
    (order : List Task) : Prop where
  base : c.store.base = (serial e calls s order).base
  represents : ∃ h, c.store.base.Represents h
  exclusive : c.sequencer.Exclusive
  ticket : ∀ t ∈ c.sequencer.tickets, t.partition = (calls t.task).partition
  hasLock : ∀ t, (c.phase t).hasLock = true → c.sequencer.HasLock t (calls t).partition
  results : (e.results s (order.map fun t => (calls t).event)).map some =
    order.map fun t => (c.phase t).result?
  mem_order : ∀ t, t ∈ order ↔ (c.phase t).result?.isSome
  nodup : order.Nodup
  synced : ∀ p, Synced e calls c (serial e calls s order) order p

variable {e : Engine} {calls : Task → Call} {s s' : Store} {c c' : Concurrent Task}
  {order order' : List Task} {task : Task} {p : Bytes}

theorem inPartition_append (xs ys : List Task) :
    inPartition calls p (xs ++ ys) = inPartition calls p xs ++ inPartition calls p ys :=
  List.filter_append _ _

theorem inPartition_singleton_self (t : Task) : inPartition calls (calls t).partition [t] = [t] := by
  simp [inPartition]

theorem inPartition_singleton_of_ne {t : Task} (hne : (calls t).partition ≠ p) :
    inPartition calls p [t] = [] := by
  simp [inPartition, hne]

theorem serial_append_singleton (order : List Task) (t : Task) :
    serial e calls s (order ++ [t]) =
      (e.apply .none (calls t).mutation (calls t).now (serial e calls s order)).2 := by
  rw [serial, List.map_append, Engine.run, List.foldl_append]
  rfl

section Frame

theorem Progress.frame {call : Call} {views views' : ViewTables} {phase : Phase}
    (h : Progress e call views s phase) (hbase : ∃ h, s.base.Represents h)
    (hviews : views.AgreeOn call.partition views') (hserial : s.AgreeOn call.partition s') :
    Progress e call views' s' phase := by
  obtain ⟨_, hbase⟩ := hbase
  have hsame : e.updates s.base.reader call.mutation call.now =
      e.updates s'.base.reader call.mutation call.now :=
    Engine.updates_eq_of_agreeOn hserial.base
  cases phase with
  | planned updates =>
    obtain ⟨hupdates, hagree⟩ := h
    exact ⟨hsame ▸ hupdates, hserial.views.symm.trans (hagree.trans hviews)⟩
  | viewsWritten updates =>
    obtain ⟨hupdates, written, happly, hagree⟩ := h
    obtain ⟨written', happly', hagree'⟩ := ViewTables.exists_apply_of_agreeOn hserial.views
      (Engine.within_of_updates hbase hupdates) happly
    exact ⟨hsame ▸ hupdates, written', happly', hagree'.symm.trans (hagree.trans hviews)⟩
  | notStarted | waiting | locked | decided | released | finished =>
    exact hserial.views.symm.trans (h.trans hviews)

/-- A partition stays as it is while nothing changes in it. -/
theorem Synced.frame (h : Synced e calls c s order p) (hbase : ∃ h, s.base.Represents h)
    (hphase : ∀ t, (calls t).partition = p → c'.phase t = c.phase t)
    (hlocked : inPartition calls p c'.locked = inPartition calls p c.locked)
    (horder : inPartition calls p order' = inPartition calls p order)
    (hviews : c.store.views.AgreeOn p c'.store.views) (hserial : s.AgreeOn p s') :
    Synced e calls c' s' order' p := by
  cases h with
  | idle hclosed hsame hagree =>
    refine .idle (fun t ht => ?_) (by rw [hlocked, horder, hsame])
      (hserial.views.symm.trans (hagree.trans hviews))
    rw [hphase t ht]
    exact hclosed t ht
  | busy t ht hopen hsame hprogress =>
    subst ht
    refine .busy t rfl ?_ (by rw [hlocked, horder, hsame]) ?_
    · rw [hphase t rfl]
      exact hopen
    · rw [hphase t rfl]
      exact hprogress.frame hbase hviews hserial

end Frame

theorem result?_phase_of_isSome (h : (c.result? task).isSome = true) :
    (c.phase task).result? = c.result? task ∧ (c.phase task).isOpen = false := by
  unfold result? at h ⊢
  cases hphase : c.phase task with
  | finished => exact ⟨rfl, rfl⟩
  | notStarted | waiting | locked | planned | viewsWritten | decided | released =>
    rw [hphase] at h
    cases h

namespace Serialized

theorem start (hs : ∃ h, s.base.Represents h) : Serialized e calls s (.start s) ([] : List Task) := by
  refine ⟨rfl, hs, Sequencer.exclusive_empty, fun _ ht => absurd ht List.not_mem_nil, fun _ ht => ?_,
    rfl, fun _ => ?_, List.nodup_nil, fun _ => .idle (fun _ _ => rfl) rfl (.refl _)⟩
  · cases ht
  · simp [Concurrent.start, Phase.result?]

theorem represents_serial (h : Serialized e calls s c order) :
    ∃ h, (serial e calls s order).base.Represents h := by
  rw [← h.base]
  exact h.represents

/-- Two tasks that have the lock of one partition are one. -/
theorem eq_of_isOpen (h : Serialized e calls s c order) {other : Task}
    (htask : (c.phase task).isOpen = true) (hother : (c.phase other).isOpen = true)
    (hpartition : (calls other).partition = (calls task).partition) : other = task := by
  have hlock := h.hasLock other (Phase.hasLock_of_isOpen hother)
  rw [hpartition] at hlock
  exact h.exclusive.eq_of_hasLock hlock (h.hasLock task (Phase.hasLock_of_isOpen htask))

theorem not_mem_order (h : Serialized e calls s c order) (hopen : (c.phase task).isOpen = true) :
    task ∉ order := by
  rw [h.mem_order, Phase.result?_of_isOpen hopen]
  simp

/-- A call with its lock is the one that is about to change its partition. -/
theorem progress (h : Serialized e calls s c order) (hopen : (c.phase task).isOpen = true) :
    inPartition calls (calls task).partition c.locked =
        inPartition calls (calls task).partition order ++ [task] ∧
      Progress e (calls task) c.store.views (serial e calls s order) (c.phase task) := by
  cases h.synced (calls task).partition with
  | idle hclosed =>
    rw [hclosed task rfl] at hopen
    cases hopen
  | busy t hpartition hopen' horder hprogress =>
    obtain rfl := h.eq_of_isOpen hopen hopen' hpartition
    exact ⟨horder, hprogress⟩

/-- The other partitions stay as they are when a task moves. -/
theorem synced_of_ne (h : Serialized e calls s c order) (hp : (calls task).partition ≠ p)
    (hphase : ∀ t, t ≠ task → c'.phase t = c.phase t)
    (hlocked : inPartition calls p c'.locked = inPartition calls p c.locked)
    (horder : inPartition calls p order' = inPartition calls p order)
    (hviews : c.store.views.AgreeOn p c'.store.views) (hserial : (serial e calls s order).AgreeOn p s') :
    Synced e calls c' s' order' p := by
  refine (h.synced p).frame h.represents_serial (fun t ht => hphase t ?_) hlocked horder hviews hserial
  rintro rfl
  exact hp ht

/-- No call gets a result in a step. -/
theorem keep (h : Serialized e calls s c order)
    (hresult : ∀ t, (c'.phase t).result? = (c.phase t).result?) (hbase : c'.store.base = c.store.base)
    (hexclusive : c'.sequencer.Exclusive)
    (hticket : ∀ t ∈ c'.sequencer.tickets, t.partition = (calls t.task).partition)
    (hlock : ∀ t, (c'.phase t).hasLock = true → c'.sequencer.HasLock t (calls t).partition)
    (hsynced : ∀ p, Synced e calls c' (serial e calls s order) order p) :
    Serialized e calls s c' order := by
  refine ⟨hbase.trans h.base, ?_, hexclusive, hticket, hlock, ?_, fun t => ?_, h.nodup, hsynced⟩
  · rw [hbase]
    exact h.represents
  · rw [h.results]
    exact List.map_congr_left fun t _ => (hresult t).symm
  · rw [hresult, h.mem_order]

end Serialized

variable [DecidableEq Task]

theorem phase_enterPhase_self (c : Concurrent Task) (t : Task) (phase : Phase) :
    (c.enterPhase t phase).phase t = phase := if_pos rfl

theorem phase_enterPhase_of_ne {t other : Task} (hne : other ≠ t) (c : Concurrent Task)
    (phase : Phase) : (c.enterPhase t phase).phase other = c.phase other := if_neg hne

theorem result?_enterPhase {phase : Phase} (hresult : phase.result? = (c.phase task).result?)
    (t : Task) : ((c.enterPhase task phase).phase t).result? = (c.phase t).result? := by
  by_cases ht : t = task
  · rw [ht, phase_enterPhase_self, hresult]
  · rw [phase_enterPhase_of_ne ht]

namespace Serialized

/-- A task moves that has no lock after it, and the stores stay. -/
theorem quiet (h : Serialized e calls s c order) (q : Sequencer Task) {phase : Phase}
    (hold : (c.phase task).isOpen = false) (hnew : phase.hasLock = false)
    (hresult : phase.result? = (c.phase task).result?) (hexclusive : q.Exclusive)
    (hticket : ∀ t ∈ q.tickets, t.partition = (calls t.task).partition)
    (hlock : ∀ t, t ≠ task → c.sequencer.HasLock t (calls t).partition →
      q.HasLock t (calls t).partition) :
    Serialized e calls s ({ c with sequencer := q }.enterPhase task phase) order := by
  have hclosed : phase.isOpen = false := by
    cases hphase : phase.isOpen with
    | false => rfl
    | true =>
      rw [Phase.hasLock_of_isOpen hphase] at hnew
      cases hnew
  have hopen (t : Task) : ((c.enterPhase task phase).phase t).isOpen = (c.phase t).isOpen := by
    by_cases ht : t = task
    · rw [ht, phase_enterPhase_self, hold, hclosed]
    · rw [phase_enterPhase_of_ne ht]
  refine h.keep (result?_enterPhase hresult) rfl hexclusive hticket (fun t ht => ?_) fun p => ?_
  · by_cases hne : t = task
    · rw [hne, phase_enterPhase_self, hnew] at ht
      cases ht
    · rw [phase_enterPhase_of_ne hne] at ht
      exact hlock t hne (h.hasLock t ht)
  · cases h.synced p with
    | idle hclosed horder hviews =>
      exact .idle (fun t ht => (hopen t).trans (hclosed t ht)) horder hviews
    | busy t hpartition hbusy horder hprogress =>
      have hne : t ≠ task := by
        rintro rfl
        rw [hold] at hbusy
        cases hbusy
      refine .busy t hpartition ((hopen t).trans hbusy) horder ?_
      rw [phase_enterPhase_of_ne hne]
      exact hprogress

/-- A task takes its lock. No other call is about to change its partition. -/
theorem lock (h : Serialized e calls s c order) (hphase : c.phase task = .waiting)
    (hholds : (c.sequencer.poll task).holds task = true) :
    Serialized e calls s ({ c with
      sequencer := c.sequencer.poll task
      locked := c.locked ++ [task] }.enterPhase task .locked) order := by
  have hticket : ∀ t ∈ (c.sequencer.poll task).tickets, t.partition = (calls t.task).partition := by
    intro t ht
    obtain ⟨u, hu, htask, hpartition, _⟩ := Sequencer.mem_poll ht
    rw [htask, hpartition, h.ticket u hu]
  have hexclusive : (c.sequencer.poll task).Exclusive := h.exclusive.poll
  have htask : (c.sequencer.poll task).HasLock task (calls task).partition := by
    obtain ⟨t, ht, rfl, hheld⟩ := Sequencer.holds_iff.mp hholds
    exact ⟨t, ht, rfl, hticket t ht, hheld⟩
  have hresult : Phase.result? .locked = (c.phase task).result? := by
    rw [hphase]
    rfl
  refine h.keep (result?_enterPhase hresult) rfl hexclusive hticket (fun t ht => ?_) fun p => ?_
  · by_cases hne : t = task
    · rw [hne]
      exact htask
    · rw [phase_enterPhase_of_ne hne] at ht
      exact (h.hasLock t ht).poll task
  · by_cases hp : (calls task).partition = p
    · subst hp
      cases h.synced (calls task).partition with
      | idle hclosed horder hviews =>
        refine .busy task rfl ?_ ?_ ?_
        · rw [phase_enterPhase_self]
          rfl
        · change inPartition calls _ (c.locked ++ [task]) = _
          rw [inPartition_append, horder, inPartition_singleton_self]
        · rw [phase_enterPhase_self]
          exact hviews
      | busy t hpartition hopen horder hprogress =>
        have hother := (h.hasLock t (Phase.hasLock_of_isOpen hopen)).poll task
        rw [hpartition] at hother
        obtain rfl := hexclusive.eq_of_hasLock hother htask
        rw [hphase] at hopen
        cases hopen
    · refine h.synced_of_ne hp (fun t hne => phase_enterPhase_of_ne hne _ _) ?_ rfl (.refl _) (.refl _)
      change inPartition calls p (c.locked ++ [task]) = _
      rw [inPartition_append, inPartition_singleton_of_ne hp, List.append_nil]

/-- A call with its lock goes on without a result, and may write to the views of its partition. -/
theorem advance (h : Serialized e calls s c order) (hopen : (c.phase task).isOpen = true)
    {views : ViewTables} {phase : Phase} (hopen' : phase.isOpen = true)
    (hviews : ∀ p, (calls task).partition ≠ p → c.store.views.AgreeOn p views)
    (hprogress : Progress e (calls task) views (serial e calls s order) phase) :
    Serialized e calls s ({ c with store := { c.store with views } }.enterPhase task phase) order := by
  have hresult : phase.result? = (c.phase task).result? := by
    rw [Phase.result?_of_isOpen hopen, Phase.result?_of_isOpen hopen']
  refine h.keep (result?_enterPhase hresult) rfl h.exclusive h.ticket (fun t ht => ?_) fun p => ?_
  · by_cases hne : t = task
    · rw [hne]
      exact h.hasLock task (Phase.hasLock_of_isOpen hopen)
    · rw [phase_enterPhase_of_ne hne] at ht
      exact h.hasLock t ht
  · by_cases hp : (calls task).partition = p
    · subst hp
      refine .busy task rfl ?_ (h.progress hopen).1 ?_
      · rw [phase_enterPhase_self, hopen']
      · rw [phase_enterPhase_self]
        exact hprogress
    · exact h.synced_of_ne hp (fun t hne => phase_enterPhase_of_ne hne _ _) rfl rfl (hviews p hp)
        (.refl _)

/-- The result that a call gets is that of the same call after the calls with results. -/
theorem results_decide (h : Serialized e calls s c order) (hopen : (c.phase task).isOpen = true)
    {result : Call.Result}
    (hresult : (e.apply .none (calls task).mutation (calls task).now (serial e calls s order)).1 =
      result) :
    (e.results s ((order ++ [task]).map fun t => (calls t).event)).map some =
      (order ++ [task]).map fun t => ((c.enterPhase task (.decided result)).phase t).result? := by
  have hbefore : (order.map fun t => (c.phase t).result?) =
      order.map fun t => ((c.enterPhase task (.decided result)).phase t).result? := by
    refine List.map_congr_left fun t ht => ?_
    have hne : t ≠ task := by
      rintro rfl
      exact h.not_mem_order hopen ht
    rw [phase_enterPhase_of_ne hne]
  have hlast := e.results_append_singleton s (order.map fun t => (calls t).event) (calls task)
  change _ = e.results s (order.map fun t => (calls t).event) ++
    [(e.apply .none (calls task).mutation (calls task).now (serial e calls s order)).1] at hlast
  rw [List.map_append, List.map_append, List.map_singleton, List.map_singleton, hlast, hresult,
    List.map_append, h.results, hbefore, phase_enterPhase_self]
  rfl

/-- A call with its lock gets its result, and the base table becomes that of the calls with results. -/
theorem decide (h : Serialized e calls s c order) (hopen : (c.phase task).isOpen = true)
    {result : Call.Result} {after : Store}
    (happly : e.apply .none (calls task).mutation (calls task).now (serial e calls s order) =
      (result, after))
    (hviews : after.views.AgreeOn (calls task).partition c.store.views) :
    Serialized e calls s ({ c with
      store := { c.store with base := after.base } }.enterPhase task (.decided result))
      (order ++ [task]) := by
  have hserial : serial e calls s (order ++ [task]) = after := by
    rw [serial_append_singleton, happly]
  obtain ⟨_, hrepresents⟩ := h.represents_serial
  have hafter := e.exists_represents_apply hrepresents (calls task).mutation (calls task).now
  rw [happly] at hafter
  refine ⟨by rw [hserial]; rfl, hafter, h.exclusive, h.ticket, fun t ht => ?_,
    h.results_decide hopen (congrArg Prod.fst happly), fun t => ?_, ?_, fun p => ?_⟩
  · by_cases hne : t = task
    · rw [hne]
      exact h.hasLock task (Phase.hasLock_of_isOpen hopen)
    · rw [phase_enterPhase_of_ne hne] at ht
      exact h.hasLock t ht
  · rw [List.mem_append, List.mem_singleton, h.mem_order]
    by_cases hne : t = task
    · rw [hne, phase_enterPhase_self]
      simp [Phase.result?]
    · rw [phase_enterPhase_of_ne hne]
      simp [hne]
  · rw [List.nodup_append]
    refine ⟨h.nodup, List.nodup_cons.mpr ⟨List.not_mem_nil, List.nodup_nil⟩, fun t ht u hu => ?_⟩
    obtain rfl := List.mem_singleton.mp hu
    rintro rfl
    exact h.not_mem_order hopen ht
  · rw [hserial]
    by_cases hp : (calls task).partition = p
    · subst hp
      refine .idle (fun t ht => ?_) ?_ hviews
      · by_cases hne : t = task
        · rw [hne, phase_enterPhase_self]
          rfl
        · rw [phase_enterPhase_of_ne hne]
          cases hother : (c.phase t).isOpen with
          | false => rfl
          | true => exact absurd (h.eq_of_isOpen hopen hother ht) hne
      · rw [inPartition_append, inPartition_singleton_self]
        exact (h.progress hopen).1
    · have hagree := Engine.agreeOn_apply (e := e) hrepresents hp (calls task).now
      rw [happly] at hagree
      refine h.synced_of_ne hp (fun t hne => phase_enterPhase_of_ne hne _ _) rfl ?_ (.refl _) hagree
      rw [inPartition_append, inPartition_singleton_of_ne hp, List.append_nil]

/-- A call is refused, and the stores stay. -/
theorem refuse (h : Serialized e calls s c order) (hopen : (c.phase task).isOpen = true)
    {err : EngineError}
    (happly : e.apply .none (calls task).mutation (calls task).now (serial e calls s order) =
      (.error err, serial e calls s order))
    (hviews : (serial e calls s order).views.AgreeOn (calls task).partition c.store.views) :
    Serialized e calls s (c.enterPhase task (.decided (.error err))) (order ++ [task]) := by
  have hdecided := h.decide hopen happly hviews
  rw [← h.base] at hdecided
  exact hdecided

section Step

/-- A task arrives at the queue of its partition. -/
theorem step_notStarted (h : Serialized e calls s c order) (hphase : c.phase task = .notStarted) :
    Serialized e calls s (c.step e calls task) order := by
  simp only [Concurrent.step, stepWith, hphase]
  refine h.quiet _ ?_ rfl ?_ h.exclusive.enter (fun t ht => ?_) fun t _ ht => ht.enter _ _
  · rw [hphase]
    rfl
  · rw [hphase]
    rfl
  · rcases Sequencer.mem_enter ht with ht | ⟨htask, hpartition, _⟩
    · exact h.ticket t ht
    · rw [hpartition, htask]
      rfl

/-- A call reads. What it plans is what it would plan after the calls with results. -/
theorem step_locked (h : Serialized e calls s c order) (hphase : c.phase task = .locked) :
    ∃ order', Serialized e calls s (c.step e calls task) order' := by
  have hopen : (c.phase task).isOpen = true := by
    rw [hphase]
    rfl
  have hprogress := (h.progress hopen).2
  rw [hphase] at hprogress
  simp only [Concurrent.step, stepWith, hphase, Call.advance, Engine.reader_none, h.base]
  cases hupdates : e.updates (serial e calls s order).base.reader (calls task).mutation
    (calls task).now with
  | error err => exact ⟨_, h.refuse hopen (Engine.apply_of_updates_error hupdates) hprogress⟩
  | ok updates => exact ⟨_, h.advance hopen rfl (fun _ _ => .refl _) ⟨hupdates, hprogress⟩⟩

/-- A call writes to the views. They take its updates or refuse them as after the calls with results. -/
theorem step_planned (h : Serialized e calls s c order) {updates : List ViewUpdate}
    (hphase : c.phase task = .planned updates) :
    ∃ order', Serialized e calls s (c.step e calls task) order' := by
  have hopen : (c.phase task).isOpen = true := by
    rw [hphase]
    rfl
  have hprogress := (h.progress hopen).2
  rw [hphase] at hprogress
  obtain ⟨hupdates, hagree⟩ := hprogress
  obtain ⟨_, hrepresents⟩ := h.represents_serial
  have hwithin := Engine.within_of_updates hrepresents hupdates
  have halike := ViewTables.apply_agreeOn hagree hwithin
  simp only [Concurrent.step, stepWith, hphase, Call.advance, Engine.writeViews_none]
  generalize hserial : (serial e calls s order).views.apply updates = r at halike
  generalize hviews : c.store.views.apply updates = r' at halike
  cases halike with
  | error err => exact ⟨_, h.refuse hopen (Engine.apply_of_views_error hupdates hserial) hagree⟩
  | ok hwritten =>
    exact ⟨_, h.advance hopen rfl (fun p hp => ViewTables.agreeOn_of_apply hwithin hp hviews)
      ⟨hupdates, _, hserial, hwritten⟩⟩

/-- A call writes to the base table, which never refuses it. -/
theorem step_viewsWritten (h : Serialized e calls s c order) {updates : List ViewUpdate}
    (hphase : c.phase task = .viewsWritten updates) :
    Serialized e calls s (c.step e calls task) (order ++ [task]) := by
  have hopen : (c.phase task).isOpen = true := by
    rw [hphase]
    rfl
  have hprogress := (h.progress hopen).2
  rw [hphase] at hprogress
  obtain ⟨hupdates, written, hviews, hagree⟩ := hprogress
  obtain ⟨_, hrepresents⟩ := h.represents_serial
  obtain ⟨base, hbase, _⟩ := hrepresents.apply (calls task).mutation
  have hwrite : c.store.writeBase .none (calls task).mutation = .ok { c.store with base } := by
    rw [Store.writeBase, h.base, hbase]
    rfl
  simp only [Concurrent.step, stepWith, hphase, Call.advance, hwrite]
  exact h.decide hopen (Engine.apply_of_ok hupdates hviews hbase) hagree

theorem step_decided (h : Serialized e calls s c order) {result : Call.Result}
    (hphase : c.phase task = .decided result) :
    Serialized e calls s (c.step e calls task) order := by
  simp only [Concurrent.step, stepWith, hphase]
  refine h.quiet _ ?_ rfl ?_ h.exclusive.release
    (fun t ht => h.ticket t (List.mem_filter.mp ht).1) fun t hne ht => ht.release hne
  · rw [hphase]
    rfl
  · rw [hphase]
    rfl

/-- A task drops idle slots, or not. -/
theorem step_released (h : Serialized e calls s c order) {result : Call.Result}
    (hphase : c.phase task = .released result) :
    Serialized e calls s (c.step e calls task) order := by
  have hclosed : (c.phase task).isOpen = false := by
    rw [hphase]
    rfl
  have hresult : Phase.result? (.finished result) = (c.phase task).result? := by
    rw [hphase]
    rfl
  simp only [Concurrent.step, stepWith, hphase]
  split
  · exact h.quiet _ hclosed rfl hresult h.exclusive.prune h.ticket fun _ _ ht => ht
  · exact h.quiet _ hclosed rfl hresult h.exclusive h.ticket fun _ _ ht => ht

/-- Every step keeps the state, and a call that gets its result in it comes last. -/
theorem step (h : Serialized e calls s c order) (task : Task) :
    ∃ order', Serialized e calls s (c.step e calls task) order' := by
  cases hphase : c.phase task with
  | notStarted => exact ⟨_, h.step_notStarted hphase⟩
  | waiting =>
    simp only [Concurrent.step, stepWith, hphase]
    split
    next hholds => exact ⟨_, h.lock hphase hholds⟩
    next => exact ⟨_, h⟩
  | locked => exact h.step_locked hphase
  | planned updates => exact h.step_planned hphase
  | viewsWritten updates => exact ⟨_, h.step_viewsWritten hphase⟩
  | decided result => exact ⟨_, h.step_decided hphase⟩
  | released result => exact ⟨_, h.step_released hphase⟩
  | finished result =>
    simp only [Concurrent.step, stepWith, hphase]
    exact ⟨_, h⟩

end Step

/-- In every schedule the calls with results are as if made one after another. -/
theorem run (e : Engine) (calls : Task → Call) (hs : ∃ h, s.base.Represents h) (schedule : List Task) :
    ∃ order, Serialized e calls s ((Concurrent.start s).run e calls schedule) order := by
  have hrun {c : Concurrent Task} {order : List Task} (h : Serialized e calls s c order) :
      ∃ order', Serialized e calls s (c.run e calls schedule) order' := by
    induction schedule generalizing c order with
    | nil => exact ⟨order, h⟩
    | cons t schedule ih =>
      obtain ⟨order', hstep⟩ := h.step t
      exact ih hstep
  exact hrun (start hs)

end Serialized

theorem phase_step_of_ne {t : Task} (hne : t ≠ task) (c : Concurrent Task) :
    (c.step e calls task).phase t = c.phase t := by
  have henter (c : Concurrent Task) (phase : Phase) : (c.enterPhase task phase).phase t = c.phase t :=
    phase_enterPhase_of_ne hne c phase
  unfold step stepWith
  cases c.phase task with
  | notStarted | locked | planned | viewsWritten | decided | released => exact henter _ _
  | finished => rfl
  | waiting => simp only; split <;> first | exact henter _ _ | rfl

theorem phase_run_of_not_mem {schedule : List Task} (hnot : task ∉ schedule) (c : Concurrent Task) :
    (c.run e calls schedule).phase task = c.phase task := by
  induction schedule generalizing c with
  | nil => rfl
  | cons t schedule ih =>
    obtain ⟨hne, hnot⟩ := not_or.mp (List.mem_cons.not.mp hnot)
    exact (ih hnot _).trans (phase_step_of_ne hne c)

/-- Calls that run at the same time can be put in an order that agrees with the order in which the
    locks of each partition were taken. One after another in this order they return the same, and leave
    base tables with the same reads and views with the same stored rows. -/
theorem exists_serial_order (hs : s.base.Reachable) {tasks schedule : List Task} (hnodup : tasks.Nodup)
    (hsub : ∀ t ∈ schedule, t ∈ tasks)
    (hfinished : ∀ t ∈ tasks, (((Concurrent.start s).run e calls schedule).result? t).isSome = true) :
    ∃ order : List Task, order.Perm tasks ∧
      (∀ p, inPartition calls p order =
        inPartition calls p ((Concurrent.start s).run e calls schedule).locked) ∧
      (e.results s (order.map fun t => (calls t).event)).map some =
        order.map ((Concurrent.start s).run e calls schedule).result? ∧
      (∀ key, (e.run s (order.map fun t => (calls t).event)).base.read key =
        ((Concurrent.start s).run e calls schedule).store.base.read key) ∧
      (∀ p range, (e.run s (order.map fun t => (calls t).event)).base.scan p range =
        ((Concurrent.start s).run e calls schedule).store.base.scan p range) ∧
      ∀ name id,
        ((e.run s (order.map fun t => (calls t).event)).views.get? name).map (·.stored? id) =
          (((Concurrent.start s).run e calls schedule).store.views.get? name).map (·.stored? id) := by
  obtain ⟨order, h⟩ := Serialized.run e calls hs.exists_represents schedule
  generalize hc : (Concurrent.start s).run e calls schedule = c at h hfinished ⊢
  have hidle (t : Task) (ht : t ∉ tasks) : c.phase t = .notStarted := by
    rw [← hc, phase_run_of_not_mem fun hmem => ht (hsub t hmem)]
    rfl
  have hmem (t : Task) : t ∈ order ↔ t ∈ tasks := by
    rw [h.mem_order]
    constructor
    · intro hresult
      by_contra hnot
      rw [hidle t hnot] at hresult
      cases hresult
    · intro ht
      rw [(result?_phase_of_isSome (hfinished t ht)).1]
      exact hfinished t ht
  have hclosed (t : Task) : (c.phase t).isOpen = false := by
    by_cases ht : t ∈ tasks
    · exact (result?_phase_of_isSome (hfinished t ht)).2
    · rw [hidle t ht]
      rfl
  have hsynced (p : Bytes) : inPartition calls p order = inPartition calls p c.locked ∧
      (serial e calls s order).views.AgreeOn p c.store.views := by
    cases h.synced p with
    | idle _ horder hviews => exact ⟨horder.symm, hviews⟩
    | busy t _ hopen =>
      rw [hclosed] at hopen
      cases hopen
  refine ⟨order, (List.perm_ext_iff_of_nodup h.nodup hnodup).mpr hmem, fun p => (hsynced p).1, ?_,
    fun key => ?_, fun p range => ?_, fun name id => (hsynced id.base.partition).2 name id rfl⟩
  · rw [h.results]
    refine List.map_congr_left fun t ht => ?_
    exact (result?_phase_of_isSome (hfinished t ((hmem t).mp ht))).1
  · rw [h.base]
    rfl
  · rw [h.base]
    rfl

/-- Two calls that write the status of one order. -/
def statusCalls (b : Bool) : Call :=
  ⟨((RowWrite.insert Engine.order 5).set "status" [if b then 1 else 2]).toMutation, 3⟩

theorem exists_serial_order_of_two_calls : ∃ order : List Bool, order.Perm [false, true] ∧
    (Engine.ordersEngine.results (.ofViews Engine.ordersEngine.views)
        (order.map fun t => (statusCalls t).event)).map some =
      order.map ((Concurrent.start (.ofViews Engine.ordersEngine.views)).run Engine.ordersEngine
        statusCalls (List.replicate 12 [false, true]).flatten).result? := by
  have hfinished : ∀ t ∈ [false, true],
      (((Concurrent.start (.ofViews Engine.ordersEngine.views)).run Engine.ordersEngine statusCalls
        (List.replicate 12 [false, true]).flatten).result? t).isSome = true := by decide +kernel
  obtain ⟨order, hperm, _, hresults, _⟩ := exists_serial_order (e := Engine.ordersEngine)
    BaseTable.Reachable.empty (by decide) (by decide) hfinished
  exact ⟨order, hperm, hresults⟩

end Concurrent

end ViewMaintenance
