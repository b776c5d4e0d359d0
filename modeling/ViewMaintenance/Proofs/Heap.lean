import Mathlib.Data.List.TakeWhile
import ViewMaintenance.Heap

namespace ViewMaintenance.Heap

variable {α : Type}

/-- Every element stands before those below it. -/
def Ordered (le : α → α → Prop) : Heap α → Prop
  | empty => True
  | node x l r => (∀ y ∈ l.toList ++ r.toList, le x y) ∧ l.Ordered le ∧ r.Ordered le

/-- A comparison that never puts one of the given elements after another one against the order.
    It may be no order on other elements, and may answer anything between two of one rank. -/
structure Decides (le : α → α → Prop) (among : α → Prop) (cmp : α → α → Ordering) : Prop where
  trans : ∀ {a b c}, le a b → le b c → le a c
  le_of_ne_lt : ∀ {a b}, among a → among b → cmp a b ≠ .lt → le a b
  ge_of_ne_gt : ∀ {a b}, among a → among b → cmp a b ≠ .gt → le b a

variable {le : α → α → Prop} {among : α → Prop} {cmp : α → α → Ordering}

theorem mem_toList_of_root? {t : Heap α} {x : α} (h : t.root? = some x) : x ∈ t.toList := by
  obtain ⟨l, r, rfl⟩ := eq_node_of_root? h
  exact List.mem_cons_self

theorem Ordered.le_of_root? (hdec : Decides le among cmp) {t : Heap α} (ht : t.Ordered le) {x y z : α}
    (hroot : t.root? = some y) (hxy : le x y) (hz : z ∈ t.toList) : le x z := by
  obtain ⟨l, r, rfl⟩ := eq_node_of_root? hroot
  rcases List.mem_cons.mp hz with rfl | hz
  · exact hxy
  · exact hdec.trans hxy (ht.1 z hz)

theorem eq_empty_of_root? {t : Heap α} (h : t.root? = none) : t = empty := by
  cases t with
  | empty => rfl
  | node x l r => cases h

/-- The root of the right subtree, if that is the greater one, stands before all of the left. -/
theorem le_left_of_rightIsGreater (hdec : Decides le among cmp) {l r : Heap α} {y : α}
    (hl : l.Ordered le) (hamong : ∀ z ∈ l.toList ++ r.toList, among z)
    (hside : rightIsGreater cmp l r = true) (hroot : r.root? = some y) :
    ∀ z ∈ l.toList, le y z := by
  intro z hz
  cases hleft : l.root? with
  | none =>
    rw [eq_empty_of_root? hleft] at hz
    cases hz
  | some w =>
    have hw : w ∈ l.toList := mem_toList_of_root? hleft
    have hy : y ∈ r.toList := mem_toList_of_root? hroot
    have hcmp : cmp w y ≠ .gt := by
      simpa [rightIsGreater, hleft, hroot, Ordering.isLE_iff_ne_gt] using hside
    have hle : le y w := hdec.ge_of_ne_gt (hamong w (by simp [hw])) (hamong y (by simp [hy])) hcmp
    exact hl.le_of_root? hdec hleft hle hz

/-- The root of the left subtree, if that is the greater one, stands before all of the right. -/
theorem le_right_of_not_rightIsGreater (hdec : Decides le among cmp) {l r : Heap α} {y : α}
    (hr : r.Ordered le) (hamong : ∀ z ∈ l.toList ++ r.toList, among z)
    (hside : rightIsGreater cmp l r = false) (hroot : l.root? = some y) :
    ∀ z ∈ r.toList, le y z := by
  intro z hz
  cases hright : r.root? with
  | none =>
    rw [eq_empty_of_root? hright] at hz
    cases hz
  | some w =>
    have hw : w ∈ r.toList := mem_toList_of_root? hright
    have hy : y ∈ l.toList := mem_toList_of_root? hroot
    have hcmp : cmp y w ≠ .lt := by
      intro hlt
      simp [rightIsGreater, hright, hroot, hlt] at hside
    have hle : le y w := hdec.le_of_ne_lt (hamong y (by simp [hy])) (hamong w (by simp [hw])) hcmp
    exact hr.le_of_root? hdec hright hle hz

theorem root?_path (cmp : α → α → Ordering) (t : Heap α) : (t.path cmp).head? = t.root? := by
  cases t with
  | empty => rfl
  | node x l r => rfl

theorem path_tail_subset {t : Heap α} {y : α} (h : y ∈ t.path cmp) : y ∈ t.toList := by
  induction t with
  | empty => cases h
  | node x l r ihl ihr =>
    rw [path] at h
    rcases List.mem_cons.mp h with rfl | h
    · exact List.mem_cons_self
    · refine List.mem_cons_of_mem _ (List.mem_append.mpr ?_)
      split at h
      · exact .inr (ihr h)
      · exact .inl (ihl h)

/-- The elements on the way down from the root are in order. -/
theorem Ordered.pairwise_path {t : Heap α} (ht : t.Ordered le) : (t.path cmp).Pairwise le := by
  induction t with
  | empty => exact .nil
  | node x l r ihl ihr =>
    obtain ⟨hx, hl, hr⟩ := ht
    rw [path]
    refine List.pairwise_cons.mpr ⟨fun y hy => hx y (List.mem_append.mpr ?_), ?_⟩
    · split at hy
      · exact .inr (path_tail_subset hy)
      · exact .inl (path_tail_subset hy)
    · split
      · exact ihr hr
      · exact ihl hl

/-- An element that sinks past those that stand before it, and stops before one that does not, leaves
    the heap in order. -/
theorem ordered_sink (hdec : Decides le among cmp) {x y : α} {l r : Heap α} (hl : l.Ordered le)
    (hr : r.Ordered le) (hamong : ∀ z ∈ l.toList ++ r.toList, among z) {passed rest : List α}
    (hpath : ((node y l r).path cmp).tail = passed ++ rest) (hpassed : ∀ z ∈ passed, le z x)
    (hrest : ∀ z, rest.head? = some z → le x z) :
    ((node y l r).sink cmp x passed.length).Ordered le := by
  induction passed generalizing y l r with
  | nil =>
    refine ⟨?_, hl, hr⟩
    intro z hz
    rw [path, List.tail_cons, List.nil_append] at hpath
    cases hside : rightIsGreater cmp l r with
    | true =>
      rw [hside, if_pos rfl] at hpath
      cases hroot : r.root? with
      | none =>
        have hleft : l.root? = none := by
          cases hleft : l.root? with
          | none => rfl
          | some w => simp [rightIsGreater, hleft, hroot] at hside
        rw [eq_empty_of_root? hroot, eq_empty_of_root? hleft] at hz
        cases hz
      | some w =>
        have hxw : le x w := hrest w (by rw [← hpath, root?_path, hroot])
        rcases List.mem_append.mp hz with hz | hz
        · exact hdec.trans hxw (le_left_of_rightIsGreater hdec hl hamong hside hroot z hz)
        · exact hr.le_of_root? hdec hroot hxw hz
    | false =>
      rw [hside, if_neg (by simp)] at hpath
      cases hroot : l.root? with
      | none => simp [rightIsGreater, hroot] at hside
      | some w =>
        have hxw : le x w := hrest w (by rw [← hpath, root?_path, hroot])
        rcases List.mem_append.mp hz with hz | hz
        · exact hl.le_of_root? hdec hroot hxw hz
        · exact hdec.trans hxw (le_right_of_not_rightIsGreater hdec hr hamong hside hroot z hz)
  | cons w passed ih =>
    rw [path, List.tail_cons, List.cons_append] at hpath
    have hwx : le w x := hpassed w List.mem_cons_self
    have hpassed' : ∀ z ∈ passed, le z x := fun z hz => hpassed z (List.mem_cons_of_mem _ hz)
    rw [List.length_cons, sink]
    cases hside : rightIsGreater cmp l r with
    | true =>
      rw [hside, if_pos rfl] at hpath
      have hroot : r.root? = some w := by rw [← root?_path cmp, hpath]; rfl
      obtain ⟨rl, rr, rfl⟩ := eq_node_of_root? hroot
      have hbelow := ih hr.2.1 hr.2.2 (fun z hz => hamong z (by
        refine List.mem_append.mpr (.inr ?_)
        exact List.mem_cons_of_mem _ hz)) (by rw [hpath]; rfl) hpassed'
      simp only [if_pos, root?]
      refine ⟨?_, hl, hbelow⟩
      intro z hz
      rcases List.mem_append.mp hz with hz | hz
      · exact le_left_of_rightIsGreater hdec hl hamong hside rfl z hz
      · rcases List.mem_cons.mp ((perm_sink ..).mem_iff.mp hz) with rfl | hz
        · exact hwx
        · exact hr.1 z hz
    | false =>
      rw [hside, if_neg (by simp)] at hpath
      have hroot : l.root? = some w := by rw [← root?_path cmp, hpath]; rfl
      obtain ⟨ll, lr, rfl⟩ := eq_node_of_root? hroot
      have hbelow := ih hl.2.1 hl.2.2 (fun z hz => hamong z (by
        refine List.mem_append.mpr (.inl ?_)
        exact List.mem_cons_of_mem _ hz)) (by rw [hpath]; rfl) hpassed'
      simp only [Bool.false_eq_true, if_false, root?]
      refine ⟨?_, hbelow, hr⟩
      intro z hz
      rcases List.mem_append.mp hz with hz | hz
      · rcases List.mem_cons.mp ((perm_sink ..).mem_iff.mp hz) with rfl | hz
        · exact hwx
        · exact hl.1 z hz
      · exact le_right_of_not_rightIsGreater hdec hr hamong hside rfl z hz

/-- A new root sinks to a place where the heap is in order. -/
theorem ordered_replaceRoot (hdec : Decides le among cmp) {x y : α} {l r : Heap α}
    (hl : l.Ordered le) (hr : r.Ordered le) (hx : among x)
    (hamong : ∀ z ∈ l.toList ++ r.toList, among z) :
    ((node y l r).replaceRoot cmp x).Ordered le := by
  have hbelow : ∀ z ∈ ((node y l r).path cmp).tail, among z := by
    intro z hz
    rw [path, List.tail_cons] at hz
    refine hamong z (List.mem_append.mpr ?_)
    split at hz
    · exact .inr (path_tail_subset hz)
    · exact .inl (path_tail_subset hz)
  refine ordered_sink hdec hl hr hamong (List.takeWhile_append_dropWhile).symm ?_ ?_
  · intro z hz
    have hlt : cmp x z = .lt := by simpa using List.mem_takeWhile_imp hz
    exact hdec.ge_of_ne_gt hx (hbelow z (List.takeWhile_subset _ hz)) (by simp [hlt])
  · intro z hz
    have hnot := List.head?_dropWhile_not (fun z => (cmp x z).isLT) ((node y l r).path cmp).tail
    rw [hz] at hnot
    have hcmp : cmp x z ≠ .lt := fun hlt => by simp [hlt] at hnot
    refine hdec.le_of_ne_lt hx (hbelow z ?_) hcmp
    exact (List.dropWhile_suffix _).subset (List.mem_of_head? hz)

theorem ordered_removeLast? {t rest : Heap α} {x : α} (ht : t.Ordered le)
    (h : t.removeLast? = some (x, rest)) : rest.Ordered le := by
  induction t generalizing x rest with
  | empty => simp [removeLast?] at h
  | node y l r ihl ihr =>
    obtain ⟨hy, hl, hr⟩ := ht
    rcases removeLast?_node y l r with ⟨hlast, _, _⟩ | ⟨z, l', hl', hlast⟩ | ⟨z, r', hr', hlast⟩
    · obtain ⟨rfl, rfl⟩ : y = x ∧ empty = rest := by simpa [h] using hlast.symm
      trivial
    · obtain ⟨rfl, rfl⟩ : z = x ∧ node y l' r = rest := by simpa [h] using hlast.symm
      refine ⟨fun w hw => hy w ?_, ihl hl hl', hr⟩
      have hperm := perm_removeLast? hl'
      rcases List.mem_append.mp hw with hw | hw
      · exact List.mem_append.mpr (.inl (hperm.mem_iff.mpr (List.mem_cons_of_mem _ hw)))
      · exact List.mem_append.mpr (.inr hw)
    · obtain ⟨rfl, rfl⟩ : z = x ∧ node y l r' = rest := by simpa [h] using hlast.symm
      refine ⟨fun w hw => hy w ?_, hl, ihr hr hr'⟩
      have hperm := perm_removeLast? hr'
      rcases List.mem_append.mp hw with hw | hw
      · exact List.mem_append.mpr (.inl hw)
      · exact List.mem_append.mpr (.inr (hperm.mem_iff.mpr (List.mem_cons_of_mem _ hw)))

/-- Where an element comes to that sank to the end of the path and rose again. -/
theorem ordered_sink_rising (hdec : Decides le among cmp) {x : α} {t : Heap α} (ht : t.Ordered le)
    (hx : among x) (hamong : ∀ z ∈ t.toList, among z) :
    (t.sink cmp x ((t.path cmp).tail.reverse.dropWhile fun y => (cmp x y).isGT).length).Ordered
      le := by
  cases t with
  | empty => simp [sink, Ordered]
  | node y l r =>
    have hpath : ((node y l r).path cmp).Pairwise le := ht.pairwise_path
    obtain ⟨_, hl, hr⟩ := ht
    have hbelow : ∀ z ∈ l.toList ++ r.toList, among z := fun z hz =>
      hamong z (List.mem_cons_of_mem _ hz)
    generalize htail : ((node y l r).path cmp).tail = below
    have hpair : below.Pairwise le := by
      rw [← htail]
      exact hpath.tail
    have hbelowAmong : ∀ z ∈ below, among z := by
      intro z hz
      rw [← htail, path, List.tail_cons] at hz
      refine hbelow z (List.mem_append.mpr ?_)
      split at hz
      · exact .inr (path_tail_subset hz)
      · exact .inl (path_tail_subset hz)
    have hsplit : below = (below.reverse.dropWhile fun y => (cmp x y).isGT).reverse ++
        (below.reverse.takeWhile fun y => (cmp x y).isGT).reverse := by
      rw [← List.reverse_append, List.takeWhile_append_dropWhile, List.reverse_reverse]
    have hsink := ordered_sink (x := x) (y := y) hdec hl hr hbelow (htail.trans hsplit) ?_ ?_
    · rwa [List.length_reverse] at hsink
    · -- The last element that is passed stands before `x`, and all others before it.
      intro z hz
      rw [List.mem_reverse] at hz
      cases hdrop : below.reverse.dropWhile fun y => (cmp x y).isGT with
      | nil =>
        rw [hdrop] at hz
        cases hz
      | cons w ws =>
        have hnot := List.head?_dropWhile_not (fun y => (cmp x y).isGT) below.reverse
        rw [hdrop] at hnot hz
        have hsuffix := List.dropWhile_suffix (l := below.reverse) fun y => (cmp x y).isGT
        rw [hdrop] at hsuffix
        have hmem : w ∈ below := List.mem_reverse.mp (hsuffix.subset List.mem_cons_self)
        have hcmp : cmp x w ≠ .gt := fun hgt => by simp [hgt] at hnot
        have hwx : le w x := hdec.ge_of_ne_gt hx (hbelowAmong w hmem) hcmp
        have hord : (w :: ws).Pairwise fun a b => le b a :=
          (List.pairwise_reverse.mpr hpair).sublist hsuffix.sublist
        rcases List.mem_cons.mp hz with rfl | hz
        · exact hwx
        · exact hdec.trans ((List.pairwise_cons.mp hord).1 z hz) hwx
    · intro z hz
      have hmem : z ∈ below.reverse.takeWhile fun y => (cmp x y).isGT :=
        List.mem_reverse.mp (List.mem_of_head? hz)
      have hgt : cmp x z = .gt := by simpa using List.mem_takeWhile_imp hmem
      have hz' : z ∈ below := List.mem_reverse.mp (List.takeWhile_subset _ hmem)
      exact hdec.le_of_ne_lt hx (hbelowAmong z hz') (by simp [hgt])

/-- Dropping the root leaves the rest in order. -/
theorem ordered_dropRoot (hdec : Decides le among cmp) {t : Heap α} (ht : t.Ordered le)
    (hamong : ∀ z ∈ t.toList, among z) : (t.dropRoot cmp).Ordered le := by
  unfold dropRoot
  split
  · trivial
  · next x rest hlast =>
    have hperm := perm_removeLast? hlast
    refine ordered_sink_rising hdec (ordered_removeLast? ht hlast) ?_ ?_
    · exact hamong x (hperm.mem_iff.mpr List.mem_cons_self)
    · exact fun z hz => hamong z (hperm.mem_iff.mpr (List.mem_cons_of_mem _ hz))

end ViewMaintenance.Heap
