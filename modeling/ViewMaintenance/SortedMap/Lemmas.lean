import ViewMaintenance.SortedMap.Basic

namespace ViewMaintenance.SortedMap

variable {α β γ δ : Type} [Ord α]

theorem eq_of_entries_eq {a b : SortedMap α β} (h : a.entries = b.entries) : a = b := by
  cases a
  cases b
  simpa using h

@[simp]
theorem entries_empty : (∅ : SortedMap α β).entries = [] := rfl

theorem isEmpty_iff {m : SortedMap α β} : m.isEmpty = true ↔ m = ∅ :=
  ⟨fun h => eq_of_entries_eq (List.isEmpty_iff.mp h), fun h => h ▸ rfl⟩

theorem entries_map (f : α → β → γ) (m : SortedMap α β) :
    (m.map f).entries = m.entries.map fun e => (e.1, f e.1 e.2) := by
  change m.entries.filterMap (fun e => some (e.1, f e.1 e.2)) = _
  rw [List.filterMap_eq_map']

theorem pairwise_keys (m : SortedMap α β) : m.keys.Pairwise fun a b => compare a b = .lt :=
  List.pairwise_map.mpr m.sorted

@[simp]
theorem get?_empty (k : α) : (∅ : SortedMap α β).get? k = none := rfl

section Lookup

variable [Std.LawfulEqOrd α]

theorem mem_entries_of_get? {m : SortedMap α β} {k : α} {v : β} (h : m.get? k = some v) :
    (k, v) ∈ m.entries := by
  obtain ⟨e, he, rfl⟩ := Option.map_eq_some_iff.1 h
  have hkey : e.1 = k := by simpa using List.find?_some he
  subst hkey
  exact List.mem_of_find?_eq_some he

/-- Distinct entries have distinct keys. -/
theorem eq_of_mem_entries {m : SortedMap α β} {k : α} {v w : β} (hv : (k, v) ∈ m.entries)
    (hw : (k, w) ∈ m.entries) : v = w := by
  obtain ⟨es, hsorted⟩ := m
  change (k, v) ∈ es at hv
  change (k, w) ∈ es at hw
  induction es with
  | nil => cases hv
  | cons e es ih =>
    obtain ⟨hhead, htail⟩ := List.pairwise_cons.1 hsorted
    have hself (u : β) : ¬ compare k (k, u).1 = .lt := by simp [Std.ReflCmp.compare_self]
    rcases List.mem_cons.1 hv with rfl | hv' <;> rcases List.mem_cons.1 hw with hw' | hw'
    · exact (Prod.mk.inj hw').2.symm
    · exact absurd (hhead _ hw') (hself w)
    · cases hw'
      exact absurd (hhead _ hv') (hself v)
    · exact ih htail hv' hw'

/-- A look-up finds exactly the entries. -/
theorem get?_eq_some_iff {m : SortedMap α β} {k : α} {v : β} :
    m.get? k = some v ↔ (k, v) ∈ m.entries := by
  refine ⟨mem_entries_of_get?, fun h => ?_⟩
  cases hget : m.get? k with
  | none =>
    have hnone := List.find?_eq_none.1 (Option.map_eq_none_iff.1 hget) _ h
    simp [Std.ReflCmp.compare_self] at hnone
  | some w => rw [eq_of_mem_entries (mem_entries_of_get? hget) h]

theorem mem_keys_iff {m : SortedMap α β} {k : α} : k ∈ m.keys ↔ (m.get? k).isSome := by
  simp only [keys, List.mem_map, Option.isSome_iff_exists, get?_eq_some_iff]
  constructor
  · rintro ⟨⟨_, v⟩, h, rfl⟩
    exact ⟨v, h⟩
  · rintro ⟨v, h⟩
    exact ⟨_, h, rfl⟩

theorem mem_values_iff {m : SortedMap α β} {v : β} : v ∈ m.values ↔ ∃ k, m.get? k = some v := by
  simp only [values, List.mem_map, get?_eq_some_iff]
  constructor
  · rintro ⟨⟨k, _⟩, h, rfl⟩
    exact ⟨k, h⟩
  · rintro ⟨k, h⟩
    exact ⟨_, h, rfl⟩

theorem nodup_keys (m : SortedMap α β) : m.keys.Nodup := by
  refine m.pairwise_keys.imp fun hlt heq => ?_
  simp [heq, Std.ReflCmp.compare_self] at hlt

/-- Values of different keys are different if each value has one key. -/
theorem nodup_values {m : SortedMap α β}
    (hkeys : ∀ k k' v, m.get? k = some v → m.get? k' = some v → k = k') : m.values.Nodup := by
  refine List.pairwise_map.2 (m.sorted.imp_of_mem fun {a b} ha hb hlt heq => ?_)
  have hb' : (b.1, a.2) ∈ m.entries := heq ▸ hb
  have hkey : a.1 = b.1 :=
    hkeys a.1 b.1 a.2 (get?_eq_some_iff.2 ha) (get?_eq_some_iff.2 hb')
  simp [hkey, Std.ReflCmp.compare_self] at hlt

@[simp]
theorem get?_filter (p : α → β → Bool) (m : SortedMap α β) (k : α) :
    (m.filter p).get? k = (m.get? k).filter (p k) := by
  apply Option.ext
  intro v
  simp [get?_eq_some_iff, filter, Option.filter_eq_some_iff]

@[simp]
theorem get?_filterMap (f : α → β → Option γ) (m : SortedMap α β) (k : α) :
    (m.filterMap f).get? k = (m.get? k).bind (f k) := by
  apply Option.ext
  intro v
  simp only [get?_eq_some_iff, filterMap, List.mem_filterMap, Option.map_eq_some_iff,
    Option.bind_eq_some_iff, Prod.mk.injEq]
  constructor
  · rintro ⟨⟨_, w⟩, hmem, _, hf, rfl, rfl⟩
    exact ⟨w, hmem, hf⟩
  · rintro ⟨w, hmem, hf⟩
    exact ⟨(k, w), hmem, v, hf, rfl, rfl⟩

@[simp]
theorem get?_map (f : α → β → γ) (m : SortedMap α β) (k : α) :
    (m.map f).get? k = (m.get? k).map (f k) := by
  cases h : m.get? k <;> simp [map, h]

variable [Std.TransOrd α]

/-- Maps that answer every look-up alike are equal. -/
theorem ext_get? {a b : SortedMap α β} (h : ∀ k, a.get? k = b.get? k) : a = b := by
  have hmem : ∀ e, e ∈ a.entries ↔ e ∈ b.entries := fun e => by
    rw [← get?_eq_some_iff (m := a), ← get?_eq_some_iff (m := b), h]
  obtain ⟨as, hsa⟩ := a
  obtain ⟨bs, hsb⟩ := b
  refine eq_of_entries_eq ?_
  change ∀ e, e ∈ as ↔ e ∈ bs at hmem
  change as = bs
  clear h
  have irrefl (e : α × β) : ¬ compare e.1 e.1 = .lt := by simp [Std.ReflCmp.compare_self]
  have asymm {x y : α × β} (hxy : compare x.1 y.1 = .lt) : ¬ compare y.1 x.1 = .lt := by
    have hswap : compare y.1 x.1 = (compare x.1 y.1).swap := Std.OrientedCmp.eq_swap
    simp [hswap, hxy]
  induction as generalizing bs with
  | nil => cases bs with
    | nil => rfl
    | cons y ys => exact absurd ((hmem y).2 (by simp)) (by simp)
  | cons x xs ih => cases bs with
    | nil => exact absurd ((hmem x).1 (by simp)) (by simp)
    | cons y ys =>
      obtain ⟨hx, hxs⟩ := List.pairwise_cons.1 hsa
      obtain ⟨hy, hys⟩ := List.pairwise_cons.1 hsb
      have hhead : x = y := by
        rcases List.mem_cons.1 ((hmem x).1 (by simp)) with h | h
        · exact h
        · rcases List.mem_cons.1 ((hmem y).2 (by simp)) with h' | h'
          · exact h'.symm
          · exact absurd (hx _ h') (asymm (hy _ h))
      subst hhead
      refine congrArg _ (ih hxs ys hys fun e => ⟨fun he => ?_, fun he => ?_⟩)
      · rcases List.mem_cons.1 ((hmem e).1 (List.mem_cons_of_mem _ he)) with rfl | h
        · exact absurd (hx _ he) (irrefl _)
        · exact h
      · rcases List.mem_cons.1 ((hmem e).2 (List.mem_cons_of_mem _ he)) with rfl | h
        · exact absurd (hy _ he) (irrefl _)
        · exact h

theorem eq_empty_iff {m : SortedMap α β} : m = ∅ ↔ ∀ k, m.get? k = none :=
  ⟨fun h k => h ▸ get?_empty k, fun h => ext_get? fun k => (h k).trans (get?_empty k).symm⟩

theorem mem_insert_entries {m : SortedMap α β} {k : α} {v : β} {e : α × β} :
    e ∈ (m.insert k v).entries ↔ e = (k, v) ∨ (e ∈ m.entries ∧ e.1 ≠ k) := by
  obtain ⟨es, hsorted⟩ := m
  change e ∈ insertEntry k v es ↔ e = (k, v) ∨ (e ∈ es ∧ e.1 ≠ k)
  induction es with
  | nil => simp [insertEntry]
  | cons x xs ih =>
    obtain ⟨hx, hxs⟩ := List.pairwise_cons.1 hsorted
    have ne_of_lt {a b : α} (h : compare a b = .lt) : b ≠ a := by
      rintro rfl
      simp [Std.ReflCmp.compare_self] at h
    unfold insertEntry
    split
    next hlt =>
      have hne : ∀ y ∈ x :: xs, y.1 ≠ k := fun y hy => by
        rcases List.mem_cons.1 hy with rfl | hy
        · exact ne_of_lt hlt
        · exact ne_of_lt (Std.TransCmp.lt_trans hlt (hx y hy))
      grind
    next heq =>
      obtain rfl := Std.LawfulEqCmp.eq_of_compare heq
      have hne : ∀ y ∈ xs, y.1 ≠ x.1 := fun y hy => ne_of_lt (hx y hy)
      grind
    next hgt =>
      have hne : x.1 ≠ k := by
        rintro rfl
        simp [Std.ReflCmp.compare_self] at hgt
      have := ih hxs
      grind

/-- Setting a key changes the look-up of that key only. -/
theorem get?_insert (m : SortedMap α β) (k : α) (v : β) (k' : α) :
    (m.insert k v).get? k' = if compare k k' = .eq then some v else m.get? k' := by
  apply Option.ext
  intro w
  rw [get?_eq_some_iff, mem_insert_entries]
  split
  next h =>
    obtain rfl := Std.LawfulEqCmp.eq_of_compare h
    simp [eq_comm]
  next h =>
    have hne : k' ≠ k := by
      rintro rfl
      exact h Std.ReflCmp.compare_self
    simp [get?_eq_some_iff, hne]

theorem get?_insert_eq_ite [DecidableEq α] (m : SortedMap α β) (k : α) (v : β) (k' : α) :
    (m.insert k v).get? k' = if k = k' then some v else m.get? k' := by
  rw [get?_insert]
  simp only [Std.LawfulEqCmp.compare_eq_iff_eq]

@[simp]
theorem get?_insert_self (m : SortedMap α β) (k : α) (v : β) :
    (m.insert k v).get? k = some v := by
  simp [get?_insert, Std.ReflCmp.compare_self]

theorem get?_insert_of_ne {m : SortedMap α β} {k k' : α} {v : β} (h : k' ≠ k) :
    (m.insert k v).get? k' = m.get? k' := by
  rw [get?_insert, if_neg]
  exact fun heq => h (Std.LawfulEqCmp.eq_of_compare heq).symm

theorem get?_foldl_insert (es : List (α × β)) (m : SortedMap α β) (k : α) :
    (es.foldl (fun m e => m.insert e.1 e.2) m).get? k =
      ((es.reverse.find? (fun e => compare e.1 k == .eq)).map (·.2)).or (m.get? k) := by
  induction es generalizing m with
  | nil => simp
  | cons e es ih =>
    rw [List.foldl_cons, ih, get?_insert, List.reverse_cons, List.find?_append]
    by_cases h : compare e.1 k = .eq
    · cases List.find? (fun e => compare e.1 k == .eq) es.reverse <;> simp [h]
    · cases List.find? (fun e => compare e.1 k == .eq) es.reverse <;> simp [h]

/-- Of several entries for a key, the last one counts. -/
theorem get?_ofList (es : List (α × β)) (k : α) :
    (ofList es).get? k = (es.reverse.find? (fun e => compare e.1 k == .eq)).map (·.2) := by
  simp [ofList, get?_foldl_insert]

/-- A map is rebuilt from its entries. -/
@[simp]
theorem ofList_entries (m : SortedMap α β) : ofList m.entries = m := by
  refine ext_get? fun k => ?_
  apply Option.ext
  intro v
  rw [get?_ofList, get?_eq_some_iff]
  constructor
  · intro h
    obtain ⟨e, he, rfl⟩ := Option.map_eq_some_iff.1 h
    have hkey : e.1 = k := by simpa using List.find?_some he
    subst hkey
    exact List.mem_reverse.1 (List.mem_of_find?_eq_some he)
  · intro h
    cases hfind : m.entries.reverse.find? (fun e => compare e.1 k == .eq) with
    | none =>
      have := List.find?_eq_none.1 hfind _ (List.mem_reverse.2 h)
      simp [Std.ReflCmp.compare_self] at this
    | some e =>
      have hkey : e.1 = k := by simpa using List.find?_some hfind
      subst hkey
      have hmem := List.mem_reverse.1 (List.mem_of_find?_eq_some hfind)
      rw [Option.map_some, eq_of_mem_entries hmem h]

/-- A set is rebuilt from its elements. -/
theorem ofList_keys (s : SortedMap α Unit) : ofList (s.keys.map (·, ())) = s := by
  have hentries : s.keys.map (·, ()) = s.entries := by
    rw [keys, List.map_map]
    exact List.map_id _
  rw [hentries, ofList_entries]

theorem isSome_get?_ofList {es : List (α × β)} {k : α} :
    ((ofList es).get? k).isSome ↔ ∃ v, (k, v) ∈ es := by
  rw [get?_ofList, Option.isSome_map, List.find?_isSome]
  constructor
  · rintro ⟨⟨k', v⟩, hmem, heq⟩
    have hkey : k' = k := by simpa using heq
    subst hkey
    exact ⟨v, List.mem_reverse.1 hmem⟩
  · rintro ⟨v, hmem⟩
    exact ⟨_, List.mem_reverse.2 hmem, by simp [Std.ReflCmp.compare_self]⟩

/-- A join sees what both sides hold for each key, if it makes nothing of nothing. -/
theorem get?_combine {f : α → Option β → Option γ → Option δ} (hf : ∀ k, f k none none = none)
    (a : SortedMap α β) (b : SortedMap α γ) (k : α) :
    (combine f a b).get? k = f k (a.get? k) (b.get? k) := by
  rw [combine, get?_filterMap]
  cases hget : (ofList ((a.keys ++ b.keys).map (·, ()))).get? k with
  | some u => rfl
  | none =>
    have hnot : ¬ ((a.get? k).isSome ∨ (b.get? k).isSome) := by
      rw [← mem_keys_iff, ← mem_keys_iff, ← List.mem_append]
      intro hmem
      have : ((ofList ((a.keys ++ b.keys).map (·, ()))).get? k).isSome :=
        isSome_get?_ofList.2 ⟨(), List.mem_map.2 ⟨k, hmem, rfl⟩⟩
      rw [hget] at this
      cases this
    have ha : a.get? k = none := Option.not_isSome_iff_eq_none.1 fun h => hnot (.inl h)
    have hb : b.get? k = none := Option.not_isSome_iff_eq_none.1 fun h => hnot (.inr h)
    rw [ha, hb, hf]
    rfl

@[simp]
theorem get?_mergeWith (f : β → β → β) (a b : SortedMap α β) (k : α) :
    (mergeWith f a b).get? k = Option.merge f (a.get? k) (b.get? k) :=
  get?_combine (fun _ => rfl) a b k

end Lookup

end ViewMaintenance.SortedMap
