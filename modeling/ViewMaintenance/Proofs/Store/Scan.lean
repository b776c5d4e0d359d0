import ViewMaintenance.Proofs.Heap
import ViewMaintenance.Proofs.Row.Join
import ViewMaintenance.Proofs.Store.Interleaving

namespace ViewMaintenance

theorem RowResult.join?_of_key_eq {a b : Row} (h : a.key = b.key) :
    join? (.ok a) (.ok b) = some (.ok (a.join b)) := by
  rw [join?, if_pos h, Row.merge_eq_ok h]
  rfl

namespace Scan

/-- The row does not come after the other one. -/
def KeyLE (a b : Row) : Prop := (compare a.key b.key).isLE

theorem KeyLE.trans {a b c : Row} (hab : KeyLE a b) (hbc : KeyLE b c) : KeyLE a c :=
  Std.TransCmp.isLE_trans hab hbc

namespace Stream

/-- The key of the next item, if it is known and no error. -/
def rank : Stream RowResult → Option RowKey
  | unread _ => none
  | ready (.ok row) _ => some row.key
  | ready (.error _) _ => none

/-- A stream of rows in key order. -/
def InOrder (s : Stream RowResult) : Prop :=
  ∃ rows : List Row, s.items = rows.map .ok ∧ rows.Pairwise KeyLE

theorem InOrder.ready {x : RowResult} {xs : List RowResult} (h : InOrder (.ready x xs)) :
    ∃ row, x = .ok row := by
  obtain ⟨rows, hrows, _⟩ := h
  cases rows with
  | nil => cases hrows
  | cons row rows =>
    obtain ⟨rfl, _⟩ := List.cons.inj hrows
    exact ⟨row, rfl⟩

theorem isLE_rank_of_unread (xs : List RowResult) (t : Stream RowResult) :
    (Ord.compare (rank (.unread xs)) (rank t)).isLE := by
  cases ht : rank t <;> rfl

/-- On streams in order the heap turns to the stream with the least key, and before that to every
    stream that has to be read. -/
theorem decides_compare : Heap.Decides (fun s t => (Ord.compare (rank s) (rank t)).isLE) InOrder
    (Stream.compare RowResult.precedes) where
  trans := Std.TransCmp.isLE_trans
  le_of_ne_lt {s t} hs ht h := by
    cases s with
    | unread xs => exact isLE_rank_of_unread xs t
    | ready x xs =>
      cases t with
      | unread ys => exact absurd rfl h
      | ready y ys =>
        obtain ⟨a, rfl⟩ := hs.ready
        obtain ⟨b, rfl⟩ := ht.ready
        change (Ord.compare a.key b.key).isLE
        by_contra hkeys
        simp [Stream.compare, RowResult.precedes, hkeys] at h
  ge_of_ne_gt {s t} hs ht h := by
    cases t with
    | unread ys => exact isLE_rank_of_unread ys s
    | ready y ys =>
      cases s with
      | unread xs => exact absurd rfl h
      | ready x xs =>
        obtain ⟨a, rfl⟩ := hs.ready
        obtain ⟨b, rfl⟩ := ht.ready
        have hkeys : ¬ (Ord.compare a.key b.key).isLE := by
          intro hle
          simp [Stream.compare, RowResult.precedes, hle] at h
        have hlt : Ord.compare b.key a.key = .lt := Std.OrientedCmp.lt_of_not_isLE hkeys
        change (Ord.compare b.key a.key).isLE
        simp [hlt]

end Stream

section Merge

/-- A heap of streams of which none has been read is in order. -/
theorem ordered_of_unread {t : Heap (Stream RowResult)}
    (hunread : ∀ s ∈ t.toList, ∃ xs, s = .unread xs) :
    t.Ordered fun s u => (compare s.rank u.rank).isLE := by
  induction t with
  | empty => trivial
  | node s l r ihl ihr =>
    obtain ⟨xs, rfl⟩ := hunread s List.mem_cons_self
    refine ⟨fun u _ => Stream.isLE_rank_of_unread xs u, ihl ?_, ihr ?_⟩
    · exact fun u hu => hunread u (List.mem_cons_of_mem _ (List.mem_append_left _ hu))
    · exact fun u hu => hunread u (List.mem_cons_of_mem _ (List.mem_append_right _ hu))

/-- A row that is yielded stands before all that is left in any stream. -/
theorem keyLE_of_mem_items {row other : Row} {xs : List RowResult} {s : Stream RowResult}
    (hs : s.InOrder) (hle : (compare (Stream.ready (.ok row) xs).rank s.rank).isLE)
    (hother : .ok other ∈ s.items) : KeyLE row other := by
  cases s with
  | unread ys => cases hle
  | ready y ys =>
    obtain ⟨first, rfl⟩ := hs.ready
    have hfirst : KeyLE row first := hle
    obtain ⟨rows, hrows, hpair⟩ := hs
    cases rows with
    | nil => cases hrows
    | cons first' rows =>
      obtain ⟨hhead, hrest⟩ := List.cons.inj hrows
      obtain rfl := Except.ok.inj hhead
      rcases List.mem_cons.mp hother with heq | hmem
      · rw [Except.ok.inj heq]
        exact hfirst
      · rw [hrest] at hmem
        obtain ⟨other', hmem', heq⟩ := List.mem_map.mp hmem
        obtain rfl := Except.ok.inj heq
        exact hfirst.trans ((List.pairwise_cons.mp hpair).1 other' hmem')

theorem mergeFrom_inOrder {t : Heap (Stream RowResult)}
    (hord : t.Ordered fun s u => (compare s.rank u.rank).isLE)
    (hin : ∀ s ∈ t.toList, s.InOrder) :
    ∃ rows : List Row, mergeFrom RowResult.precedes t = rows.map .ok ∧ rows.Pairwise KeyLE := by
  fun_induction mergeFrom RowResult.precedes t with
  | case1 => exact ⟨[], rfl, .nil⟩
  | case2 l r ih =>
    refine ih (Heap.ordered_dropRoot Stream.decides_compare hord hin) fun s hs => ?_
    exact hin s (List.mem_cons_of_mem _ ((Heap.perm_dropRoot ..).mem_iff.mp hs))
  | case3 x xs l r ih =>
    have hroot : (Stream.ready x xs).InOrder := hin (.unread (x :: xs)) List.mem_cons_self
    have hbelow : ∀ s ∈ l.toList ++ r.toList, s.InOrder := fun s hs =>
      hin s (List.mem_cons_of_mem _ hs)
    refine ih (Heap.ordered_replaceRoot Stream.decides_compare hord.2.1 hord.2.2 hroot hbelow) ?_
    intro s hs
    rcases List.mem_cons.mp ((Heap.perm_replaceRoot ..).mem_iff.mp hs) with rfl | hs
    · exact hroot
    · exact hbelow s hs
  | case4 x xs l r ih =>
    have hroot : (Stream.ready x xs).InOrder := hin _ List.mem_cons_self
    have hbelow : ∀ s ∈ l.toList ++ r.toList, s.InOrder := fun s hs =>
      hin s (List.mem_cons_of_mem _ hs)
    obtain ⟨row, rfl⟩ := hroot.ready
    have hrest : (Stream.unread xs).InOrder := by
      obtain ⟨rows, hrows, hpair⟩ := hroot
      cases rows with
      | nil => cases hrows
      | cons first rows => exact ⟨rows, (List.cons.inj hrows).2, (List.pairwise_cons.mp hpair).2⟩
    obtain ⟨rows, hrows, hpair⟩ := ih
      ⟨fun u _ => Stream.isLE_rank_of_unread xs u, hord.2.1, hord.2.2⟩ (fun s hs => by
        rcases List.mem_cons.mp hs with rfl | hs
        · exact hrest
        · exact hbelow s hs)
    refine ⟨row :: rows, by rw [hrows]; rfl, List.pairwise_cons.mpr ⟨fun other hother => ?_, hpair⟩⟩
    have hmem : .ok other ∈ mergeFrom RowResult.precedes (.node (.unread xs) l r) := by
      rw [hrows]
      exact List.mem_map_of_mem hother
    obtain ⟨items, hitems, hitem⟩ := List.mem_flatten.mp
      ((interleaves_mergeFrom RowResult.precedes _).perm.mem_iff.mp hmem)
    obtain ⟨s, hs, rfl⟩ := List.mem_map.mp hitems
    rcases List.mem_cons.mp hs with rfl | hs
    · have hself : (compare (Stream.ready (.ok row) xs).rank (Stream.ready (.ok row) xs).rank).isLE :=
        Std.ReflCmp.isLE_rfl
      exact keyLE_of_mem_items hroot hself (List.mem_cons_of_mem _ hitem)
    · exact keyLE_of_mem_items (hbelow s hs) (hord.1 s hs) hitem

/-- A merge makes one stream in key order of streams of rows in key order, with all their rows and no
    others. Which of the rows with one key comes first is up to it. -/
def MergesInOrder (merge : List (List RowResult) → List RowResult) : Prop :=
  ∀ streams : List (List Row), (∀ rows ∈ streams, rows.Pairwise KeyLE) →
    ∃ rows : List Row, merge (streams.map fun rows => rows.map .ok) = rows.map .ok ∧
      rows.Pairwise KeyLE ∧ rows.Perm streams.flatten

/-- The merge over a heap keeps the key order. -/
theorem mergesInOrder_merge : MergesInOrder (merge RowResult.precedes) := by
  intro streams h
  have hmem {s : Stream RowResult} (hs : s ∈ ((streams.map fun rows => rows.map Except.ok).foldl
      (fun heap items => heap.add (.unread items)) Heap.empty).toList) :
      ∃ rows ∈ streams, s = .unread (rows.map .ok) := by
    have hperm := (perm_foldl_add _ _).mem_iff.mp hs
    simpa [Heap.toList, eq_comm] using hperm
  obtain ⟨rows, hrows, hpair⟩ := mergeFrom_inOrder
    (ordered_of_unread fun s hs => by
      obtain ⟨rows, _, rfl⟩ := hmem hs
      exact ⟨_, rfl⟩)
    (fun s hs => by
      obtain ⟨rows, hrows, rfl⟩ := hmem hs
      exact ⟨rows, rfl, h rows hrows⟩)
  refine ⟨rows, hrows, hpair, ?_⟩
  have hperm := (interleaves_merge RowResult.precedes
    (streams.map fun rows => rows.map Except.ok)).perm
  have hmerge : merge RowResult.precedes (streams.map fun rows => rows.map Except.ok) =
      rows.map .ok := hrows
  have hflatten : (streams.map fun rows => rows.map Except.ok).flatten =
      streams.flatten.map (Except.ok : Row → RowResult) := List.map_flatten.symm
  rw [hmerge, hflatten] at hperm
  have hrows' := hperm.filterMap Except.toOption
  simpa [List.filterMap_map, Function.comp_def, Except.toOption] using hrows'

end Merge

section Coalesce

theorem Row.empty_join {r : Row} (h : r.Canonical) : (Row.empty r.key).join r = r := by
  rw [Row.join_comm (by rfl), h.join_empty]

/-- Neighbours of one key are joined into one row, and no key comes out twice. -/
theorem coalesceFrom_rows (current : Row) {rows : List Row}
    (hcanonical : ∀ r ∈ current :: rows, r.Canonical) (hpair : (current :: rows).Pairwise KeyLE) :
    ∃ out : List Row, coalesceFrom RowResult.join? (.ok current) (rows.map .ok) = out.map .ok ∧
      out.Pairwise (fun a b => compare a.key b.key = .lt) ∧
      (∀ key, (∃ r ∈ out, r.key = key) ↔ ∃ r ∈ current :: rows, r.key = key) ∧
      ∀ r ∈ out, r =
        ((current :: rows).filter fun x => x.key = r.key).foldl Row.join (.empty r.key) := by
  induction rows generalizing current with
  | nil =>
    refine ⟨[current], rfl, List.pairwise_singleton _ _, fun key => Iff.rfl, fun r hr => ?_⟩
    obtain rfl := List.mem_singleton.mp hr
    simp [Row.empty_join (hcanonical r List.mem_cons_self)]
  | cons x rows ih =>
    obtain ⟨hcurrent, hrest⟩ := List.pairwise_cons.mp hpair
    have hcur : current.Canonical := hcanonical current List.mem_cons_self
    by_cases hkey : current.key = x.key
    · have hjoined : ((current.join x) :: rows).Pairwise KeyLE :=
        List.pairwise_cons.mpr
          ⟨fun y hy => hcurrent y (List.mem_cons_of_mem _ hy), (List.pairwise_cons.mp hrest).2⟩
      obtain ⟨out, hout, hlt, hkeys, hrows⟩ := ih (current.join x) (fun r hr => by
        rcases List.mem_cons.mp hr with rfl | hr
        · exact Row.canonical_join current x
        · exact hcanonical r (List.mem_cons_of_mem _ (List.mem_cons_of_mem _ hr))) hjoined
      refine ⟨out, ?_, hlt, fun key => ?_, fun r hr => (hrows r hr).trans ?_⟩
      · simpa [coalesceFrom, RowResult.join?_of_key_eq hkey] using hout
      · rw [hkeys]
        simp [hkey]
      · by_cases hr : current.key = r.key
        · have hx : x.key = r.key := hkey.symm.trans hr
          have hempty : (Row.empty r.key).key = current.key := hr.symm
          simp only [List.filter_cons, Row.key_join, hr, hx, decide_true, if_pos, List.foldl_cons]
          rw [Row.join_assoc hempty]
        · have hx : x.key ≠ r.key := fun hx => hr (hkey.trans hx)
          simp [hr, hx]
    · obtain ⟨out, hout, hlt, hkeys, hrows⟩ := ih x
        (fun r hr => hcanonical r (List.mem_cons_of_mem _ hr)) hrest
      have hbefore : ∀ r ∈ x :: rows, compare current.key r.key = .lt := by
        intro r hr
        have hx : compare current.key x.key = .lt := by
          have hle : KeyLE current x := hcurrent x List.mem_cons_self
          rcases Ordering.isLE_iff_eq_lt_or_eq_eq.mp hle with hlt | heq
          · exact hlt
          · exact absurd (Std.LawfulEqCmp.eq_of_compare heq) hkey
        rcases List.mem_cons.mp hr with rfl | hr
        · exact hx
        · exact Std.TransCmp.lt_of_lt_of_isLE hx ((List.pairwise_cons.mp hrest).1 r hr)
      have hbefore' : ∀ r ∈ out, compare current.key r.key = .lt := by
        intro r hr
        obtain ⟨y, hy, hyr⟩ := (hkeys r.key).mp ⟨r, hr, rfl⟩
        rw [← hyr]
        exact hbefore y hy
      have hne {a b : RowKey} (h : compare a b = .lt) : b ≠ a := by
        rintro rfl
        simp [Std.ReflCmp.compare_self] at h
      refine ⟨current :: out, ?_, List.pairwise_cons.mpr ⟨hbefore', hlt⟩, fun key => ?_, ?_⟩
      · simpa [coalesceFrom, RowResult.join?, hkey] using hout
      · have hrest' := hkeys key
        simp only [List.mem_cons, exists_eq_or_imp] at hrest' ⊢
        rw [hrest']
      · intro r hr
        rcases List.mem_cons.mp hr with rfl | hr
        · have hnone : (x :: rows).filter (fun y => y.key = r.key) = [] :=
            List.filter_eq_nil_iff.mpr fun y hy => by simpa using hne (hbefore y hy)
          rw [List.filter_cons, hnone]
          simp [Row.empty_join hcur]
        · have hdiff : current.key ≠ r.key := fun heq => hne (hbefore' r hr) heq.symm
          rw [List.filter_cons]
          simpa [hdiff] using hrows r hr

theorem coalesce_rows {rows : List Row} (hcanonical : ∀ r ∈ rows, r.Canonical)
    (hpair : rows.Pairwise KeyLE) :
    ∃ out : List Row, coalesce RowResult.join? (rows.map .ok) = out.map .ok ∧
      out.Pairwise (fun a b => compare a.key b.key = .lt) ∧
      (∀ key, (∃ r ∈ out, r.key = key) ↔ ∃ r ∈ rows, r.key = key) ∧
      ∀ r ∈ out, r = (rows.filter fun x => x.key = r.key).foldl Row.join (.empty r.key) := by
  cases rows with
  | nil => exact ⟨[], rfl, .nil, fun key => Iff.rfl, by simp⟩
  | cons current rows => exact coalesceFrom_rows current hcanonical hpair

end Coalesce

end Scan

end ViewMaintenance
