import ViewMaintenance.Heap
import ViewMaintenance.Store.Error

namespace ViewMaintenance

namespace RowResult

/-- Whether an item may stand before another in a merged stream: rows go by key, and an error is
    yielded as soon as it is met. Errors have no key, so around them it is up to the heap of the
    streams which item comes next. -/
def precedes : RowResult → RowResult → Bool
  | .ok a, .ok b => (compare a.key b.key).isLE
  | _, _ => true

/-- Merges two items if they are fragments of one row. -/
def join? : RowResult → RowResult → Option RowResult
  | .ok a, .ok b => if a.key = b.key then some ((a.merge b).mapError .keyMismatch) else none
  | _, _ => none

end RowResult

namespace Scan

variable {α : Type}

/-- A stream that is being read: either no item has been taken from it since it was last passed on,
    or its next item is known. -/
inductive Stream (α : Type) where
  | unread (items : List α)
  | ready (first : α) (rest : List α)

namespace Stream

/-- Compares two streams by when to turn to them, the greater one first: a stream must be read
    before it can be compared, and among the others the one goes first whose first item may. -/
def compare (precedes : α → α → Bool) : Stream α → Stream α → Ordering
  | unread _, unread _ => .eq
  | unread _, ready _ _ => .gt
  | ready _ _, unread _ => .lt
  | ready x _, ready y _ => if precedes x y then .gt else .lt

/-- The steps that are left for a stream: to take and to pass on each item, and to end. -/
def steps : Stream α → Nat
  | unread items => 2 * items.length + 1
  | ready _ rest => 2 * rest.length + 2

end Stream

/-- The steps that are left for several streams. -/
def steps : List (Stream α) → Nat
  | [] => 0
  | s :: ss => s.steps + steps ss

theorem steps_perm {ss ts : List (Stream α)} (h : ss.Perm ts) : steps ss = steps ts := by
  induction h with
  | nil => rfl
  | cons s _ ih => simp [steps, ih]
  | swap s t ss => simp only [steps]; omega
  | trans _ _ ih₁ ih₂ => exact ih₁.trans ih₂

/-- Merges the streams of a heap. What is done next is up to the stream at the root: an unread one
    is read and finds its new place, or is dropped at its end, and of a ready one the item is passed
    on. -/
def mergeFrom (precedes : α → α → Bool) : Heap (Stream α) → List α
  | .empty => []
  | .node (.unread []) l r =>
    mergeFrom precedes ((Heap.node (.unread []) l r).dropRoot (Stream.compare precedes))
  | .node (.unread (x :: xs)) l r =>
    mergeFrom precedes
      ((Heap.node (.unread (x :: xs)) l r).replaceRoot (Stream.compare precedes) (.ready x xs))
  | .node (.ready x xs) l r => x :: mergeFrom precedes (.node (.unread xs) l r)
termination_by streams => steps streams.toList
decreasing_by
  · rw [steps_perm (Heap.perm_dropRoot ..)]
    simp only [Heap.toList, steps, Stream.steps]
    omega
  · rw [steps_perm (Heap.perm_replaceRoot ..)]
    simp only [Heap.toList, steps, Stream.steps, List.length_cons]
    omega
  · simp only [Heap.toList, steps, Stream.steps]
    omega

/-- Merges streams into one that keeps the order of each of them. -/
def merge (precedes : α → α → Bool) (streams : List (List α)) : List α :=
  mergeFrom precedes (streams.foldl (fun heap items => heap.add (.unread items)) .empty)

/-- Joins what follows an item to it as long as that is possible, then goes on from there. -/
def coalesceFrom (join? : α → α → Option α) (current : α) : List α → List α
  | [] => [current]
  | x :: xs =>
    match join? current x with
    | some joined => coalesceFrom join? joined xs
    | none => current :: coalesceFrom join? x xs

/-- Joins neighbours wherever that is possible. -/
def coalesce (join? : α → α → Option α) : List α → List α
  | [] => []
  | x :: xs => coalesceFrom join? x xs

end Scan

end ViewMaintenance
