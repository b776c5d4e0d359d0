import ViewMaintenance.Store.Scan

namespace ViewMaintenance.Scan

variable {α : Type}

/-- A list holds the items of several streams, those of each stream in their order. It is what a
    merge of the streams may give, whichever stream it takes from next. -/
inductive Interleaves : List (List α) → List α → Prop
  /-- All streams are at their end. -/
  | nil {streams : List (List α)} (h : ∀ s ∈ streams, s = []) : Interleaves streams []
  /-- The next item is the first one of any stream. -/
  | next {before after : List (List α)} {x : α} {xs out : List α}
      (h : Interleaves (before ++ xs :: after) out) :
      Interleaves (before ++ (x :: xs) :: after) (x :: out)

end ViewMaintenance.Scan
