import ViewMaintenance.Engine.Apply
import ViewMaintenance.Sequencer

namespace ViewMaintenance

/-- One call of an engine. -/
structure Call where
  mutation : Mutation
  now : Timestamp

namespace Call

/-- What a call returns. -/
abbrev Result := Except EngineError (List ViewUpdate)

end Call

/-- How far a call has come. Each step from one phase to the next is done at once, and the steps
    of different calls may follow each other in any order. -/
inductive Phase
  | notStarted
  /-- It waits for the lock of its partition. -/
  | waiting
  /-- It holds the lock and has not read yet. -/
  | locked
  /-- It has read, and has to write the updates to the views. -/
  | planned (updates : List ViewUpdate)
  /-- It has written the updates to the views, and has to write to the base table. -/
  | viewsWritten (updates : List ViewUpdate)
  /-- It has its result and still holds the lock. -/
  | decided (result : Call.Result)
  /-- It has let go of the lock. -/
  | released (result : Call.Result)
  | finished (result : Call.Result)

/-- The next step of a call with its lock while faults are there: it reads, writes the views, or
    writes the base table. -/
def Call.advance (call : Call) (e : Engine) (f : Faults) (s : Store) : Phase → Phase × Store
  | .locked =>
    match e.updates (f.reader s.base.reader) call.mutation call.now with
    | .error err => (.decided (.error err), s)
    | .ok updates => (.planned updates, s)
  | .planned updates =>
    match s.writeViews f updates with
    | .error err => (.decided (.error (.store err)), s)
    | .ok written => (.viewsWritten updates, written)
  | .viewsWritten updates =>
    match s.writeBase f call.mutation with
    | .error err => (.decided (.error (.store err)), s)
    | .ok done => (.decided (.ok updates), done)
  | phase => (phase, s)

/-- The stores, the locks and the calls of an engine that run at the same time, each of them a
    task. -/
structure Concurrent (Task : Type) where
  store : Store
  sequencer : Sequencer Task
  phase : Task → Phase
  /-- The tasks that got their locks, in that order. -/
  locked : List Task

namespace Concurrent

variable {Task : Type} [DecidableEq Task]

/-- No call has started. -/
def start (s : Store) : Concurrent Task := ⟨s, ∅, fun _ => .notStarted, []⟩

/-- Moves a task to a phase. -/
def enterPhase (c : Concurrent Task) (task : Task) (phase : Phase) : Concurrent Task :=
  { c with phase := fun t => if t = task then phase else c.phase t }

/-- Lets a task do its next step while faults are there. A task that waits in vain, or has finished,
    changes nothing. -/
def stepWith (e : Engine) (calls : Task → Call) (f : Faults) (c : Concurrent Task) (task : Task) :
    Concurrent Task :=
  let call := calls task
  match c.phase task with
  | .notStarted =>
    { c with sequencer := c.sequencer.enter task call.mutation.partition }.enterPhase task .waiting
  | .waiting =>
    let polled := c.sequencer.poll task
    if polled.holds task then
      { c with sequencer := polled, locked := c.locked ++ [task] }.enterPhase task .locked
    else c
  | .locked | .planned _ | .viewsWritten _ =>
    let (phase, store) := call.advance e f c.store (c.phase task)
    { c with store }.enterPhase task phase
  | .decided result =>
    { c with sequencer := c.sequencer.release task }.enterPhase task (.released result)
  | .released result =>
    let sequencer := if e.config.pruneIdlePartitions then c.sequencer.prune else c.sequencer
    { c with sequencer }.enterPhase task (.finished result)
  | .finished _ => c

/-- Lets a task do its next step while nothing fails. -/
def step (e : Engine) (calls : Task → Call) (c : Concurrent Task) (task : Task) :
    Concurrent Task :=
  c.stepWith e calls .none task

/-- Lets tasks do steps in the order of a schedule. -/
def run (e : Engine) (calls : Task → Call) (c : Concurrent Task) (schedule : List Task) :
    Concurrent Task :=
  schedule.foldl (step e calls) c

/-- What a finished task has returned. -/
def result? (c : Concurrent Task) (task : Task) : Option Call.Result :=
  match c.phase task with
  | .finished result => some result
  | _ => none

end Concurrent

end ViewMaintenance
