import ViewMaintenance.Mutation
import ViewMaintenance.Row.Lemmas

namespace ViewMaintenance

namespace Mutation

/-- The fragment that the mutation writes for a key. -/
def fragmentOf? (m : Mutation) (key : RowKey) : Option Row :=
  match m with
  | row fragment => if fragment.key = key then some fragment else none
  | deleteRange .. | deletePartition .. => none

/-- The deletion of a range or of a partition with which the mutation covers a key. -/
def coveringOf? (m : Mutation) (key : RowKey) : Option Deletion :=
  match m with
  | row _ => none
  | deleteRange partition range deletion =>
    if partition = key.partition ∧ range.contains key.clustering then some deletion else none
  | deletePartition partition deletion =>
    if partition = key.partition then some deletion else none

/-- Whether the mutation concerns a key: it writes a fragment of the row or covers it. -/
def touches (m : Mutation) (key : RowKey) : Bool :=
  (m.fragmentOf? key).isSome || (m.coveringOf? key).isSome

end Mutation

/-- The mutations of a base table. They say what the table means, apart from how it is stored. -/
abbrev History := List Mutation

namespace History

/-- The merge of all fragments that were written for a key. -/
def fragment (h : History) (key : RowKey) : Row :=
  (h.filterMap (·.fragmentOf? key)).foldl Row.join (.empty key)

/-- The greatest deletion of a range or of a partition that covers a key. -/
def covering (h : History) (key : RowKey) : Option Deletion :=
  (h.map (·.coveringOf? key)).foldl latest? none

/-- The row that a history makes for a key. Neither the order of the history nor repetitions in
    it matter for it. -/
def row (h : History) (key : RowKey) : Row := (h.fragment key).shadow (h.covering key)

end History

end ViewMaintenance
