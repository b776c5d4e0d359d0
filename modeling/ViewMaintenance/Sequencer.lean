import ViewMaintenance.Bytes
import ViewMaintenance.SortedMap.Basic

namespace ViewMaintenance

/-- A task's claim to a lock, kept from its arrival until it lets go. -/
structure Ticket (Task : Type) where
  task : Task
  partition : Bytes
  /-- The number of the lock. -/
  lock : Nat
  /-- Whether the task holds the lock, or else waits for it. -/
  holds : Bool
deriving DecidableEq

/-- The locks of the partitions in use, and the tasks that wait for them or hold them. Each
    partition in use has a slot with a lock. A slot may be dropped once no ticket is left for its
    lock, and a partition that is used again after that gets a new lock. -/
structure Sequencer (Task : Type) where
  /-- The lock in the slot of each partition. -/
  slots : SortedMap Bytes Nat
  tickets : List (Ticket Task)
  /-- How many locks were ever made, which is the number of the next one. -/
  made : Nat

namespace Sequencer

variable {Task : Type} [DecidableEq Task]

/-- No partition in use. -/
def empty : Sequencer Task := ⟨∅, [], 0⟩

instance : EmptyCollection (Sequencer Task) := ⟨empty⟩

/-- The number of partitions with a slot. -/
def size (s : Sequencer Task) : Nat := s.slots.size

/-- Whether no partition has a slot. -/
def isEmpty (s : Sequencer Task) : Bool := s.slots.isEmpty

/-- Whether some task holds a lock. -/
def isHeld (s : Sequencer Task) (lock : Nat) : Bool :=
  s.tickets.any fun t => t.lock == lock && t.holds

/-- Whether some task waits for a lock or holds it. -/
def isInUse (s : Sequencer Task) (lock : Nat) : Bool := s.tickets.any fun t => t.lock == lock

/-- Whether a task waits. -/
def waits (s : Sequencer Task) (task : Task) : Bool :=
  s.tickets.any fun t => t.task == task && !t.holds

/-- Whether a task holds a lock. -/
def holds (s : Sequencer Task) (task : Task) : Bool :=
  s.tickets.any fun t => t.task == task && t.holds

/-- Gives a task a ticket for the lock of a partition, which is made if there is none. A task that
    has a ticket keeps it. -/
def enter (s : Sequencer Task) (task : Task) (partition : Bytes) : Sequencer Task :=
  if s.waits task || s.holds task then s
  else
    match s.slots.get? partition with
    | some lock => { s with tickets := s.tickets ++ [⟨task, partition, lock, false⟩] }
    | none =>
      { slots := s.slots.insert partition s.made
        tickets := s.tickets ++ [⟨task, partition, s.made, false⟩]
        made := s.made + 1 }

/-- Lets a waiting task take its lock if nobody holds it. -/
def poll (s : Sequencer Task) (task : Task) : Sequencer Task :=
  let take (t : Ticket Task) : Ticket Task :=
    if t.task = task && !s.isHeld t.lock then { t with holds := true } else t
  { s with tickets := s.tickets.map take }

/-- A task arrives and takes the lock of a partition at once if it can. -/
def acquire (s : Sequencer Task) (task : Task) (partition : Bytes) : Sequencer Task :=
  (s.enter task partition).poll task

/-- A task lets go of its lock, or stops waiting. -/
def release (s : Sequencer Task) (task : Task) : Sequencer Task :=
  { s with tickets := s.tickets.filter fun t => t.task != task }

/-- Drops the slots that no task waits for or holds. -/
def prune (s : Sequencer Task) : Sequencer Task :=
  { s with slots := s.slots.filter fun _ lock => s.isInUse lock }

end Sequencer

end ViewMaintenance
