namespace ViewMaintenance

/-- A binary tree with an element at each of its places. A heap is filled level by level from the
    left, with a greatest element at the root. The comparison is an argument of each operation
    and nothing is asked of it: also with one that is no order the operations say which element
    comes to the root. -/
inductive Heap (α : Type) where
  | empty
  | node (root : α) (left right : Heap α)
deriving DecidableEq

namespace Heap

variable {α : Type}

/-- The element at the root. -/
def root? : Heap α → Option α
  | empty => none
  | node x _ _ => some x

/-- The number of elements. -/
def size : Heap α → Nat
  | empty => 0
  | node _ l r => l.size + r.size + 1

/-- The elements, each before those below it. -/
def toList : Heap α → List α
  | empty => []
  | node x l r => x :: (l.toList ++ r.toList)

/-- Whether a place lies on the right below the root. Places are counted from one, level by level
    from the left, so the binary digits after the first one tell the way from the root. -/
def liesRight (place : Nat) : Bool := place.testBit (place.log2 - 1)

/-- Puts an element at the first free place. -/
def add (x : α) : Heap α → Heap α
  | empty => node x empty empty
  | node y l r =>
    if liesRight ((node y l r).size + 1) then node y l (r.add x) else node y (l.add x) r

/-- Takes the element at the last place. -/
def removeLast? : Heap α → Option (α × Heap α)
  | empty => none
  | node x l r =>
    let inLeft := l.removeLast?.map fun (y, l) => (y, node x l r)
    let inRight := r.removeLast?.map fun (y, r) => (y, node x l r)
    let below := if liesRight (node x l r).size then inRight.or inLeft else inLeft.or inRight
    below.or (some (x, empty))

/-- Whether the right one of two subtrees has the greater root, or the left one has no greater. -/
def rightIsGreater (cmp : α → α → Ordering) (left right : Heap α) : Bool :=
  match left.root?, right.root? with
  | some x, some y => (cmp x y).isLE
  | some _, none => false
  | none, _ => true

/-- The elements that are met going down from the root to the greater child each time. -/
def path (cmp : α → α → Ordering) : Heap α → List α
  | empty => []
  | node x l r => x :: if rightIsGreater cmp l r then r.path cmp else l.path cmp

/-- Replaces the root: the elements on the path below it move up by one place, down to the given
    depth, and the new element comes to the place that is then free. -/
def sink (cmp : α → α → Ordering) (x : α) : Nat → Heap α → Heap α
  | _, empty => empty
  | 0, node _ l r => node x l r
  | depth + 1, node _ l r =>
    if rightIsGreater cmp l r then
      match r.root? with
      | none => node x l r
      | some y => node y l (sink cmp x depth r)
    else
      match l.root? with
      | none => node x l r
      | some y => node y (sink cmp x depth l) r

/-- Replaces the root by an element, which sinks until the next one on the path is not greater. -/
def replaceRoot (cmp : α → α → Ordering) (x : α) (t : Heap α) : Heap α :=
  t.sink cmp x ((t.path cmp).tail.takeWhile fun y => (cmp x y).isLT).length

/-- Removes the root. The last element takes its place and sinks to the end of the path, from where
    it rises until it is not greater than the one above it. -/
def dropRoot (cmp : α → α → Ordering) (t : Heap α) : Heap α :=
  match t.removeLast? with
  | none => empty
  | some (x, rest) =>
    rest.sink cmp x ((rest.path cmp).tail.reverse.dropWhile fun y => (cmp x y).isGT).length

theorem eq_node_of_root? {t : Heap α} {x : α} (h : t.root? = some x) : ∃ l r, t = node x l r := by
  cases t with
  | empty => simp [root?] at h
  | node y l r => exact ⟨l, r, by simp_all [root?]⟩

/-- Adding an element adds that element and nothing else. -/
theorem perm_add (x : α) (t : Heap α) : (t.add x).toList.Perm (x :: t.toList) := by
  induction t with
  | empty => exact .refl _
  | node y l r ihl ihr =>
    rw [add]
    split
    · refine .trans (.cons y ((ihr.append_left _).trans List.perm_middle)) ?_
      exact .swap _ _ _
    · exact .trans (.cons y (ihl.append_right _)) (.swap _ _ _)

/-- A heap with a root gives its last element, and the rest has the same root if it has any. -/
theorem removeLast?_node (x : α) (l r : Heap α) :
    (node x l r).removeLast? = some (x, empty) ∧ l.removeLast? = none ∧ r.removeLast? = none ∨
      (∃ y l', l.removeLast? = some (y, l') ∧ (node x l r).removeLast? = some (y, node x l' r)) ∨
      ∃ y r', r.removeLast? = some (y, r') ∧ (node x l r).removeLast? = some (y, node x l r') := by
  cases hl : l.removeLast? <;> cases hr : r.removeLast? <;>
    by_cases hside : liesRight (node x l r).size <;> simp [removeLast?, hl, hr, hside]

theorem removeLast?_eq_none_iff {t : Heap α} : t.removeLast? = none ↔ t = empty := by
  cases t with
  | empty => simp [removeLast?]
  | node x l r =>
    rcases removeLast?_node x l r with ⟨h, _⟩ | ⟨_, _, _, h⟩ | ⟨_, _, _, h⟩ <;> simp [h]

/-- Taking the last element takes that element and nothing else. -/
theorem perm_removeLast? {t rest : Heap α} {x : α} (h : t.removeLast? = some (x, rest)) :
    t.toList.Perm (x :: rest.toList) := by
  induction t generalizing x rest with
  | empty => simp [removeLast?] at h
  | node y l r ihl ihr =>
    rcases removeLast?_node y l r with ⟨hlast, hl, hr⟩ | ⟨z, l', hl, hlast⟩ | ⟨z, r', hr, hlast⟩
    · rw [removeLast?_eq_none_iff] at hl hr
      simp_all [toList]
    · obtain ⟨rfl, rfl⟩ : z = x ∧ node y l' r = rest := by simpa [h] using hlast.symm
      exact .trans (.cons y ((ihl hl).append_right _)) (.swap _ _ _)
    · obtain ⟨rfl, rfl⟩ : z = x ∧ node y l r' = rest := by simpa [h] using hlast.symm
      refine .trans (.cons y (((ihr hr).append_left _).trans List.perm_middle)) ?_
      exact .swap _ _ _

/-- However deep the new element sinks, it takes the place of the root among the elements. -/
theorem perm_sink (cmp : α → α → Ordering) (x : α) (depth : Nat) (y : α) (l r : Heap α) :
    ((node y l r).sink cmp x depth).toList.Perm (x :: (l.toList ++ r.toList)) := by
  induction depth generalizing y l r with
  | zero => exact .refl _
  | succ depth ih =>
    rw [sink]
    split
    · split
      · exact .refl _
      · next z hroot =>
        obtain ⟨rl, rr, rfl⟩ := eq_node_of_root? hroot
        refine .trans (.cons z (((ih z rl rr).append_left _).trans List.perm_middle)) ?_
        exact .trans (.swap _ _ _) (.cons x List.perm_middle.symm)
    · split
      · exact .refl _
      · next z hroot =>
        obtain ⟨ll, lr, rfl⟩ := eq_node_of_root? hroot
        exact .trans (.cons z ((ih z ll lr).append_right _)) (.swap _ _ _)

/-- Replacing the root removes the root and adds the new element. -/
theorem perm_replaceRoot (cmp : α → α → Ordering) (x y : α) (l r : Heap α) :
    ((node y l r).replaceRoot cmp x).toList.Perm (x :: (l.toList ++ r.toList)) :=
  perm_sink ..

/-- Dropping the root removes the root and nothing else. -/
theorem perm_dropRoot (cmp : α → α → Ordering) (x : α) (l r : Heap α) :
    ((node x l r).dropRoot cmp).toList.Perm (l.toList ++ r.toList) := by
  rcases removeLast?_node x l r with ⟨hlast, hl, hr⟩ | ⟨y, l', hl, hlast⟩ | ⟨y, r', hr, hlast⟩
  · obtain ⟨rfl, rfl⟩ : l = empty ∧ r = empty :=
      ⟨removeLast?_eq_none_iff.mp hl, removeLast?_eq_none_iff.mp hr⟩
    simp [dropRoot, hlast, sink, toList]
  · simp only [dropRoot, hlast]
    exact (perm_sink ..).trans ((perm_removeLast? hl).symm.append_right _)
  · simp only [dropRoot, hlast]
    refine (perm_sink ..).trans ?_
    exact List.perm_middle.symm.trans ((perm_removeLast? hr).symm.append_left _)

end Heap

end ViewMaintenance
