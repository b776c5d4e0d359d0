import Mathlib.Data.List.Forall2
import Mathlib.Data.List.Induction
import ViewMaintenance.History
import ViewMaintenance.Proofs.Row.Join

namespace ViewMaintenance

namespace Mutation

theorem key_fragmentOf? {m : Mutation} {key : RowKey} {f : Row} (h : m.fragmentOf? key = some f) :
    f.key = key := by
  cases m with
  | row fragment =>
    by_cases hkey : fragment.key = key
    · obtain rfl : fragment = f := by simpa [fragmentOf?, hkey] using h
      exact hkey
    · simp [fragmentOf?, hkey] at h
  | deleteRange | deletePartition => cases h

theorem coveringOf?_of_fragmentOf? {m : Mutation} {key : RowKey} {f : Row}
    (h : m.fragmentOf? key = some f) : m.coveringOf? key = none := by
  cases m with
  | row fragment => rfl
  | deleteRange | deletePartition => cases h

/-- A mutation touches keys of its own partition only. -/
theorem not_touches_of_partition_ne {m : Mutation} {key : RowKey}
    (h : m.partition ≠ key.partition) : m.touches key = false := by
  cases m with
  | row fragment =>
    have hkey : fragment.key ≠ key := fun heq => h (congrArg RowKey.partition heq)
    simp [touches, fragmentOf?, coveringOf?, hkey]
  | deleteRange partition range deletion =>
    have hpart : partition ≠ key.partition := h
    simp [touches, fragmentOf?, coveringOf?, hpart]
  | deletePartition partition deletion =>
    have hpart : partition ≠ key.partition := h
    simp [touches, fragmentOf?, coveringOf?, hpart]

end Mutation

theorem foldl_latest? {α : Type} [Ord α] [Std.TransOrd α] (xs : List (Option α)) (a b : Option α) :
    xs.foldl latest? (latest? a b) = latest? a (xs.foldl latest? b) := by
  induction xs generalizing b with
  | nil => rfl
  | cons x xs ih => rw [List.foldl_cons, List.foldl_cons, latest?_assoc, ih]

theorem foldl_latest?_cons {α : Type} [Ord α] [Std.TransOrd α] (x : Option α)
    (xs : List (Option α)) :
    (x :: xs).foldl latest? none = latest? x (xs.foldl latest? none) := by
  rw [List.foldl_cons, latest?_none_left, ← foldl_latest?, latest?_none_right]

section Latest

variable {α : Type} [Ord α] [Std.TransOrd α] [Std.LawfulEqOrd α] {xs ys : List (Option α)}

theorem latest?_foldl_of_mem {x : Option α} (hx : x ∈ xs) :
    latest? x (xs.foldl latest? none) = xs.foldl latest? none := by
  induction xs with
  | nil => cases hx
  | cons y ys ih =>
    rw [foldl_latest?_cons]
    cases List.mem_cons.mp hx with
    | inl heq => rw [heq, ← latest?_assoc, latest?_self]
    | inr hmem => rw [← latest?_assoc, latest?_comm x y, latest?_assoc, ih hmem]

/-- The greatest of some values is not changed by values that are among them. -/
theorem latest?_foldl_of_subset (hsub : ∀ y, some y ∈ ys → some y ∈ xs) :
    latest? (ys.foldl latest? none) (xs.foldl latest? none) = xs.foldl latest? none := by
  induction ys with
  | nil => exact latest?_none_left _
  | cons y ys ih =>
    have htail := ih fun z hz => hsub z (List.mem_cons_of_mem y hz)
    rw [foldl_latest?_cons, latest?_assoc, htail]
    cases y with
    | none => exact latest?_none_left _
    | some y => exact latest?_foldl_of_mem (hsub y List.mem_cons_self)

end Latest

namespace History

theorem key_of_mem_fragments {h : History} {key : RowKey} {f : Row}
    (hf : f ∈ h.filterMap (·.fragmentOf? key)) : f.key = key := by
  obtain ⟨m, _, hm⟩ := List.mem_filterMap.mp hf
  exact Mutation.key_fragmentOf? hm

@[simp]
theorem key_fragment (h : History) (key : RowKey) : (h.fragment key).key = key :=
  Row.key_foldl_join _ _

@[simp]
theorem key_row (h : History) (key : RowKey) : (h.row key).key = key := key_fragment h key

theorem canonical_fragment (h : History) (key : RowKey) : (h.fragment key).Canonical :=
  Row.canonical_foldl_join _ (Row.canonical_empty key)

theorem canonical_row (h : History) (key : RowKey) : (h.row key).Canonical :=
  Row.canonical_shadow _ _

@[simp]
theorem row_nil (key : RowKey) : row [] key = .empty key := Row.canonical_empty key

theorem covering_append (h g : History) (key : RowKey) :
    covering (h ++ g) key = latest? (h.covering key) (g.covering key) := by
  have hacc := foldl_latest? (g.map (·.coveringOf? key)) (h.covering key) none
  rw [latest?_none_right] at hacc
  rw [covering, List.map_append, List.foldl_append]
  exact hacc

theorem fragment_append_of_some {h : History} {m : Mutation} {key : RowKey} {f : Row}
    (hm : m.fragmentOf? key = some f) : fragment (h ++ [m]) key = (h.fragment key).join f := by
  simp [fragment, hm]

theorem fragment_append_of_none {h : History} {m : Mutation} {key : RowKey}
    (hm : m.fragmentOf? key = none) : fragment (h ++ [m]) key = h.fragment key := by
  simp [fragment, hm]

theorem covering_append_singleton (h : History) (m : Mutation) (key : RowKey) :
    covering (h ++ [m]) key = latest? (h.covering key) (m.coveringOf? key) := by
  rw [covering_append]
  simp [covering]

/-- A fragment is merged into its row. -/
theorem row_append_of_fragment {h : History} {m : Mutation} {key : RowKey} {f : Row}
    (hm : m.fragmentOf? key = some f) : row (h ++ [m]) key = (h.row key).join f := by
  rw [row, fragment_append_of_some hm, covering_append_singleton,
    Mutation.coveringOf?_of_fragmentOf? hm, latest?_none_right, row, Row.shadow_join]

/-- Any other mutation shadows a row by the deletion with which it covers it, if it does. -/
theorem row_append_of_no_fragment {h : History} {m : Mutation} {key : RowKey}
    (hm : m.fragmentOf? key = none) : row (h ++ [m]) key = (h.row key).shadow (m.coveringOf? key) := by
  rw [row, fragment_append_of_none hm, covering_append_singleton, row, Row.shadow_shadow]

theorem row_append_of_not_touches {h : History} {m : Mutation} {key : RowKey}
    (hm : m.touches key = false) : row (h ++ [m]) key = h.row key := by
  have hboth : m.fragmentOf? key = none ∧ m.coveringOf? key = none := by
    simpa [Mutation.touches, Option.isSome_eq_false_iff] using hm
  rw [row_append_of_no_fragment hboth.1, hboth.2, Row.shadow, latest?_none_right]
  exact canonical_row h key

theorem fragment_perm {h g : History} (hperm : h.Perm g) (key : RowKey) :
    h.fragment key = g.fragment key :=
  Row.foldl_join_perm (hperm.filterMap _) (fun _ hf => key_of_mem_fragments hf) _

theorem covering_perm {h g : History} (hperm : h.Perm g) (key : RowKey) :
    h.covering key = g.covering key := by
  refine (hperm.map _).foldl_eq' (fun x _ y _ z => ?_) none
  rw [latest?_assoc, latest?_assoc, latest?_comm x y]

/-- The order of a history does not matter. -/
theorem row_perm {h g : History} (hperm : h.Perm g) (key : RowKey) : h.row key = g.row key := by
  rw [row, row, fragment_perm hperm, covering_perm hperm]

/-- A mutation that comes again changes nothing. -/
theorem row_append_of_mem {h : History} {m : Mutation} (hm : m ∈ h) (key : RowKey) :
    row (h ++ [m]) key = h.row key := by
  have hlast : h.Perm (h.erase m ++ [m]) :=
    (List.perm_cons_erase hm).trans (List.perm_append_singleton _ _).symm
  rw [row_perm (hlast.append_right [m]), row_perm hlast]
  generalize h.erase m = earlier
  cases hfragment : m.fragmentOf? key with
  | some f =>
    rw [row_append_of_fragment hfragment, row_append_of_fragment hfragment, Row.join_join,
      Row.overlay_self]
  | none =>
    rw [row_append_of_no_fragment hfragment, row_append_of_no_fragment hfragment,
      Row.shadow_shadow, latest?_self]

theorem row_append_of_subset {h g : History} (hsub : g ⊆ h) (key : RowKey) :
    row (h ++ g) key = h.row key := by
  induction g using List.reverseRecOn with
  | nil => rw [List.append_nil]
  | append_singleton g m ih =>
    have hm : m ∈ h := hsub (List.mem_append_right _ List.mem_cons_self)
    rw [← List.append_assoc, row_append_of_mem (List.mem_append_left _ hm)]
    exact ih fun x hx => hsub (List.mem_append_left _ hx)

/-- The row of a key depends on which mutations there are, and not on how often or in which order
    they come. -/
theorem row_of_mem_iff {h g : History} (hsame : ∀ m, m ∈ h ↔ m ∈ g) (key : RowKey) :
    h.row key = g.row key := by
  have hsub : g ⊆ h := fun m => (hsame m).mpr
  have hsub' : h ⊆ g := fun m => (hsame m).mp
  rw [← row_append_of_subset hsub, row_perm List.perm_append_comm, row_append_of_subset hsub']

/-- Two histories carry the same data: the same deletions of ranges and of partitions, and fragments
    that make the same of every row. -/
structure SameData (h g : History) : Prop where
  deleteRange : ∀ partition range deletion,
    .deleteRange partition range deletion ∈ h ↔ .deleteRange partition range deletion ∈ g
  deletePartition : ∀ partition deletion,
    .deletePartition partition deletion ∈ h ↔ .deletePartition partition deletion ∈ g
  fragment : ∀ key, h.fragment key = g.fragment key

namespace SameData

variable {h g : History}

theorem symm (hsame : h.SameData g) : g.SameData h where
  deleteRange partition range deletion := (hsame.deleteRange partition range deletion).symm
  deletePartition partition deletion := (hsame.deletePartition partition deletion).symm
  fragment key := (hsame.fragment key).symm

theorem covers (hsame : h.SameData g) {key : RowKey} {d : Deletion}
    (hd : some d ∈ h.map (·.coveringOf? key)) : some d ∈ g.map (·.coveringOf? key) := by
  obtain ⟨m, hm, hcovers⟩ := List.mem_map.mp hd
  refine List.mem_map.mpr ⟨m, ?_, hcovers⟩
  cases m with
  | row => cases hcovers
  | deleteRange => exact (hsame.deleteRange _ _ _).mp hm
  | deletePartition => exact (hsame.deletePartition _ _).mp hm

theorem covering (hsame : h.SameData g) (key : RowKey) : h.covering key = g.covering key := by
  have hleft : latest? (h.covering key) (g.covering key) = g.covering key :=
    latest?_foldl_of_subset fun _ hd => hsame.covers hd
  have hright : latest? (g.covering key) (h.covering key) = h.covering key :=
    latest?_foldl_of_subset fun _ hd => hsame.symm.covers hd
  rw [← hleft, latest?_comm, hright]

/-- The data of a history make its rows. -/
theorem row (hsame : h.SameData g) (key : RowKey) : h.row key = g.row key := by
  rw [History.row, History.row, hsame.fragment, hsame.covering]

end SameData

/-- Whether some fragment was written for a key. -/
def Writes (h : History) (key : RowKey) : Prop := ∃ m ∈ h, (m.fragmentOf? key).isSome

theorem fragment_of_not_writes {h : History} {key : RowKey} (hw : ¬ h.Writes key) :
    h.fragment key = .empty key := by
  have hnone : h.filterMap (·.fragmentOf? key) = [] := by
    refine List.filterMap_eq_nil_iff.mpr fun m hm => ?_
    by_contra hsome
    exact hw ⟨m, hm, Option.isSome_iff_ne_none.mpr hsome⟩
  rw [fragment, hnone]
  rfl

/-- A row of which no fragment was written shows nothing. -/
theorem row_of_not_writes {h : History} {key : RowKey} (hw : ¬ h.Writes key) :
    h.row key = .ofDeletion key (h.covering key) := by
  rw [row, fragment_of_not_writes hw]
  refine Row.ext_cell? rfl rfl ?_ fun c => rfl
  exact latest?_none_left _

end History

end ViewMaintenance
