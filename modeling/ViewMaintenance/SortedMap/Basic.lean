namespace ViewMaintenance

/-- A finite map held as its entries in strictly increasing key order. One set of entries has one
    such list, so maps that answer every look-up alike are equal. -/
structure SortedMap (α β : Type) [Ord α] where
  entries : List (α × β)
  sorted : entries.Pairwise (fun a b => compare a.1 b.1 = .lt)

namespace SortedMap

variable {α β γ δ : Type} [Ord α]

instance [DecidableEq α] [DecidableEq β] : DecidableEq (SortedMap α β) := fun a b =>
  decidable_of_iff (a.entries = b.entries) <| by
    cases a
    cases b
    simp

/-- The map without entries. -/
def empty : SortedMap α β := ⟨[], .nil⟩

instance : EmptyCollection (SortedMap α β) := ⟨empty⟩

instance : Inhabited (SortedMap α β) := ⟨empty⟩

/-- The value held for a key. -/
def get? (m : SortedMap α β) (k : α) : Option β :=
  (m.entries.find? (fun e => compare e.1 k == .eq)).map (·.2)

/-- Whether the map holds a value for a key. -/
def contains (m : SortedMap α β) (k : α) : Bool := (m.get? k).isSome

/-- The keys in increasing order. -/
def keys (m : SortedMap α β) : List α := m.entries.map (·.1)

/-- The values in the order of their keys. -/
def values (m : SortedMap α β) : List β := m.entries.map (·.2)

/-- The number of entries. -/
def size (m : SortedMap α β) : Nat := m.entries.length

/-- Whether there is no entry. -/
def isEmpty (m : SortedMap α β) : Bool := m.entries.isEmpty

/-- The entries that satisfy a test. -/
def filter (p : α → β → Bool) (m : SortedMap α β) : SortedMap α β :=
  ⟨m.entries.filter (fun e => p e.1 e.2), m.sorted.filter _⟩

/-- Replaces each value by its image; entries without one are dropped. -/
def filterMap (f : α → β → Option γ) (m : SortedMap α β) : SortedMap α γ where
  entries := m.entries.filterMap (fun e => (f e.1 e.2).map (e.1, ·))
  sorted := by
    refine m.sorted.filterMap _ fun a b hab x hx y hy => ?_
    obtain ⟨_, _, rfl⟩ := Option.map_eq_some_iff.1 hx
    obtain ⟨_, _, rfl⟩ := Option.map_eq_some_iff.1 hy
    exact hab

/-- Replaces each value by its image. -/
def map (f : α → β → γ) (m : SortedMap α β) : SortedMap α γ :=
  m.filterMap (fun k v => some (f k v))

/-- Puts an entry at its place in a sorted list, over the entry of that key if there is one. -/
def insertEntry (k : α) (v : β) : List (α × β) → List (α × β)
  | [] => [(k, v)]
  | e :: es =>
    match compare k e.1 with
    | .lt => (k, v) :: e :: es
    | .eq => (k, v) :: es
    | .gt => e :: insertEntry k v es

theorem mem_insertEntry {k : α} {v : β} {e : α × β} {es : List (α × β)}
    (h : e ∈ insertEntry k v es) : e = (k, v) ∨ e ∈ es := by
  induction es with
  | nil => simpa [insertEntry] using h
  | cons x es ih =>
    unfold insertEntry at h
    split at h <;> grind

variable [Std.TransOrd α] [Std.LawfulEqOrd α]

theorem pairwise_insertEntry (k : α) (v : β) {es : List (α × β)}
    (h : es.Pairwise (fun a b => compare a.1 b.1 = .lt)) :
    (insertEntry k v es).Pairwise (fun a b => compare a.1 b.1 = .lt) := by
  induction es with
  | nil => simp [insertEntry]
  | cons e es ih =>
    obtain ⟨hhead, htail⟩ := List.pairwise_cons.1 h
    unfold insertEntry
    split
    next hlt =>
      refine List.pairwise_cons.2 ⟨fun x hx => ?_, h⟩
      rcases List.mem_cons.1 hx with rfl | hx
      · exact hlt
      · exact Std.TransCmp.lt_trans hlt (hhead x hx)
    next heq =>
      obtain rfl := Std.LawfulEqCmp.eq_of_compare heq
      exact List.pairwise_cons.2 ⟨hhead, htail⟩
    next hgt =>
      refine List.pairwise_cons.2 ⟨fun x hx => ?_, ih htail⟩
      rcases mem_insertEntry hx with rfl | hx
      · exact Std.OrientedCmp.lt_of_gt hgt
      · exact hhead x hx

/-- Sets the value of a key. -/
def insert (m : SortedMap α β) (k : α) (v : β) : SortedMap α β :=
  ⟨insertEntry k v m.entries, pairwise_insertEntry k v m.sorted⟩

/-- The map of a list of entries; of several entries for one key the last one counts. -/
def ofList (es : List (α × β)) : SortedMap α β :=
  es.foldl (fun m e => m.insert e.1 e.2) ∅

/-- Joins two maps key by key: `f` sees what each side holds for a key that one of them has. -/
def combine (f : α → Option β → Option γ → Option δ) (a : SortedMap α β) (b : SortedMap α γ) :
    SortedMap α δ :=
  (ofList ((a.keys ++ b.keys).map (·, ()))).filterMap fun k _ => f k (a.get? k) (b.get? k)

/-- The entries of both maps, a key held by both with the value that `f` makes of its two. -/
def mergeWith (f : β → β → β) (a b : SortedMap α β) : SortedMap α β :=
  combine (fun _ => Option.merge f) a b

end SortedMap

/-- A finite set held in increasing order. -/
abbrev SortedSet (α : Type) [Ord α] := SortedMap α Unit

namespace SortedSet

variable {α : Type} [Ord α]

/-- The elements in increasing order. -/
def toList (s : SortedSet α) : List α := SortedMap.keys s

/-- The set of the elements of a list. -/
def ofList [Std.TransOrd α] [Std.LawfulEqOrd α] (xs : List α) : SortedSet α :=
  SortedMap.ofList (xs.map (·, ()))

end SortedSet

end ViewMaintenance
