import ViewMaintenance.Engine.Apply

namespace ViewMaintenance

/-- What happens to an engine and its stores. -/
inductive Event
  /-- A mutation is applied at a reference time. -/
  | apply (m : Mutation) (now : Timestamp)
  /-- The top level of the base table is frozen. -/
  | flush

namespace Event

/-- The reference time of an applied mutation. -/
def time? : Event → Option Timestamp
  | apply _ now => some now
  | flush => none

/-- The mutation of an event. -/
def mutation? : Event → Option Mutation
  | apply m _ => some m
  | flush => none

end Event

namespace ViewTables

/-- The empty tables of views. -/
def ofViews (views : List View) : ViewTables := views.foldl add ∅

end ViewTables

namespace Store

/-- An empty base table and the empty tables of views. -/
def ofViews (views : List View) : Store := ⟨∅, .ofViews views⟩

/-- Freezes the top level of the base table. -/
def flush (s : Store) : Store := { s with base := s.base.flush }

end Store

namespace Engine

/-- The stores after an event. -/
def after (e : Engine) (s : Store) : Event → Store
  | .apply m now => (e.apply .none m now s).2
  | .flush => s.flush

/-- The stores after a run. -/
def run (e : Engine) (s : Store) (events : List Event) : Store := events.foldl e.after s

/-- The results of the mutations of a run, in order. -/
def results (e : Engine) (s : Store) :
    List Event → List (Except EngineError (List ViewUpdate))
  | [] => []
  | .apply m now :: events =>
    let (result, s) := e.apply .none m now s
    result :: e.results s events
  | .flush :: events => e.results s.flush events

end Engine

end ViewMaintenance
