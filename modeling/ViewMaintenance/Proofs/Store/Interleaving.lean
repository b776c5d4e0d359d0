import ViewMaintenance.Store.Interleaving

namespace ViewMaintenance.Scan

variable {α : Type}

/-- The items that are left of a stream. -/
def Stream.items : Stream α → List α
  | unread xs => xs
  | ready x xs => x :: xs

namespace Interleaves

variable {streams others : List (List α)} {out : List α}

/-- No item is lost or made up. -/
theorem perm (h : Interleaves streams out) : out.Perm streams.flatten := by
  induction h with
  | nil h => rw [List.flatten_eq_nil_iff.mpr h]
  | @next before after x xs out _ ih =>
    rw [List.flatten_append, List.flatten_cons] at ih ⊢
    exact (ih.cons x).trans List.perm_middle.symm

/-- It does not matter in which order the streams stand. -/
theorem of_perm (h : Interleaves streams out) (hperm : streams.Perm others) :
    Interleaves others out := by
  induction h generalizing others with
  | nil h => exact .nil fun s hs => h s (hperm.mem_iff.mpr hs)
  | @next before after x xs out _ ih =>
    have hmem : x :: xs ∈ others := hperm.mem_iff.mp (List.mem_append_right before List.mem_cons_self)
    obtain ⟨before', after', rfl⟩ := List.append_of_mem hmem
    have hrest : (before ++ after).Perm (before' ++ after') :=
      (List.perm_middle.symm.trans (hperm.trans List.perm_middle)).cons_inv
    exact .next (ih (List.perm_middle.trans ((hrest.cons xs).trans List.perm_middle.symm)))

/-- A stream at its end adds nothing. -/
theorem cons_nil (h : Interleaves streams out) : Interleaves ([] :: streams) out := by
  induction h with
  | nil h => exact .nil (by simpa using h)
  | @next before after x xs out _ ih => exact @next _ ([] :: before) after x xs out ih

end Interleaves

/-- Merging goes on with an interleaving of what is left. -/
theorem interleaves_mergeFrom (precedes : α → α → Bool) (t : Heap (Stream α)) :
    Interleaves (t.toList.map Stream.items) (mergeFrom precedes t) := by
  fun_induction mergeFrom precedes t with
  | case1 => exact .nil (by simp [Heap.toList])
  | case2 l r ih => exact (ih.of_perm ((Heap.perm_dropRoot ..).map _)).cons_nil
  | case3 x xs l r ih => exact ih.of_perm ((Heap.perm_replaceRoot ..).map _)
  | case4 x xs l r ih => exact @Interleaves.next _ [] _ x xs _ ih

theorem perm_foldl_add (streams : List (List α)) (t : Heap (Stream α)) :
    (streams.foldl (fun heap items => heap.add (.unread items)) t).toList.Perm
      (streams.map Stream.unread ++ t.toList) := by
  induction streams generalizing t with
  | nil => exact .refl _
  | cons xs streams ih =>
    refine (ih _).trans ?_
    refine ((Heap.perm_add _ t).append_left _).trans ?_
    exact List.perm_middle

/-- A merge of streams is an interleaving of them. -/
theorem interleaves_merge (precedes : α → α → Bool) (streams : List (List α)) :
    Interleaves streams (merge precedes streams) := by
  refine (interleaves_mergeFrom precedes _).of_perm (((perm_foldl_add streams .empty).map _).trans ?_)
  have hitems : (streams.map Stream.unread).map Stream.items = streams :=
    (List.map_map ..).trans (List.map_id _)
  simp only [Heap.toList, List.append_nil, hitems, List.Perm.refl]

end ViewMaintenance.Scan
