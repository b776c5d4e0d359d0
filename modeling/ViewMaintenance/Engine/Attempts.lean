import ViewMaintenance.Engine.Concurrent

namespace ViewMaintenance

/-- What happens to a task. A call that waits, for its lock or for a store, may also be dropped
    and leaves no trace but what it has written by then. A write is done as a whole or not at
    all, so a call that is dropped during a write is dropped before or after it, and a write that
    is done and reports a failure is the write followed by a failure of the next one. -/
inductive Move (Task : Type)
  /-- It does its next step while the faults are there. -/
  | step (task : Task) (faults : Faults)
  /-- Its call is dropped if it has no result yet. -/
  | drop (task : Task)

namespace Move

variable {Task : Type}

/-- The task of a move. -/
def task : Move Task → Task
  | step task _ => task
  | drop task => task

/-- Whether the move drops a call. -/
def isDrop : Move Task → Bool
  | step .. => false
  | drop _ => true

end Move

namespace Concurrent

variable {Task : Type} [DecidableEq Task]

/-- Drops the call of a task. A call that has its result waits for nothing and can not be dropped. -/
def drop (c : Concurrent Task) (task : Task) : Concurrent Task :=
  match c.phase task with
  | .waiting | .locked | .planned _ | .viewsWritten _ =>
    { c with sequencer := c.sequencer.release task }.enterPhase task .notStarted
  | .notStarted | .decided _ | .released _ | .finished _ => c

/-- Makes a move. -/
def perform (e : Engine) (calls : Task → Call) (c : Concurrent Task) : Move Task → Concurrent Task
  | .step task f => c.stepWith e calls f task
  | .drop task => c.drop task

/-- Makes moves one after another. -/
def runMoves (e : Engine) (calls : Task → Call) (c : Concurrent Task) (moves : List (Move Task)) :
    Concurrent Task :=
  moves.foldl (perform e calls) c

end Concurrent

end ViewMaintenance
