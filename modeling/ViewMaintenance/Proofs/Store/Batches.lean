import ViewMaintenance.Proofs.Store.ViewTable

namespace ViewMaintenance.ViewTables

/-- The tables that come of adding views and applying batches. -/
inductive Reachable : ViewTables → Prop
  | empty : Reachable ∅
  | add {ts : ViewTables} (h : Reachable ts) (v : View) : Reachable (ts.add v)
  | apply {ts ts' : ViewTables} {updates : List ViewUpdate} (h : Reachable ts)
      (happly : ts.apply updates = .ok ts') : Reachable ts'

/-- All tables have well-formed rows. -/
def WellFormed (ts : ViewTables) : Prop := ∀ name t, ts.get? name = some t → t.WellFormed

variable {ts ts' a b : ViewTables} {updates others : List ViewUpdate}

theorem WellFormed.knows (hts : ts.WellFormed) {name : String}
    (hname : (ts.get? name).isSome = true) : ts.Knows name := by
  obtain ⟨t, ht⟩ := Option.isSome_iff_exists.mp hname
  exact ⟨t, ht, hts name t ht⟩

theorem Receives.wellFormed (h : ts.Receives updates ts') (hts : ts.WellFormed) :
    ts'.WellFormed := by
  intro name t' ht'
  obtain ⟨t, _, hreceives⟩ := h.exists_table (hts name) ht'
  exact hreceives.wellFormed

theorem Receives.isSome_get? (h : ts.Receives updates ts') (hts : ts.WellFormed) (name : String) :
    (ts'.get? name).isSome = (ts.get? name).isSome := by
  have hview := congrArg Option.isSome (h.map_view (hts name))
  rwa [Option.isSome_map, Option.isSome_map] at hview

theorem WellFormed.receives_of_apply (hts : ts.WellFormed) (happly : ts.apply updates = .ok ts') :
    ts.Receives updates ts' := by
  have hknown : ∀ u ∈ updates, ts.Knows u.view := by
    intro u hu
    obtain ⟨t, ht⟩ := exists_get?_of_apply happly hu
    exact ⟨t, ht, hts u.view t ht⟩
  obtain ⟨taken, htaken, hreceives⟩ := apply_of_knows hknown
  rw [happly] at htaken
  obtain rfl := Except.ok.inj htaken
  exact hreceives

theorem wellFormed_empty : (∅ : ViewTables).WellFormed := by
  intro name t ht
  cases ht

theorem Reachable.wellFormed (hts : ts.Reachable) : ts.WellFormed := by
  induction hts with
  | empty => exact wellFormed_empty
  | @add ts _ v ih =>
    intro name t ht
    have hadd : (ts.add v).get? name = if v.name = name then some (.new v) else ts.get? name :=
      get?_insert ts v.name (.new v) name
    rw [hadd] at ht
    split at ht
    · obtain rfl := Option.some.inj ht
      exact ViewTable.wellFormed_new v
    · exact ih name t ht
  | apply _ happly ih => exact (ih.receives_of_apply happly).wellFormed ih

theorem ext_get? (h : ∀ name, a.get? name = b.get? name) : a = b := by
  obtain ⟨x⟩ := a
  obtain ⟨y⟩ := b
  exact congrArg mk (SortedMap.ext_get? h)

/-- The intents that the tables have taken for each view determine what they hold. -/
theorem Receives.eq_of_mem_iff (hts : ts.WellFormed) (ha : ts.Receives updates a)
    (hb : ts.Receives others b)
    (hsame : ∀ name i, i ∈ intentsFor updates name ↔ i ∈ intentsFor others name) : a = b := by
  refine ext_get? fun name => ?_
  cases ht : ts.get? name with
  | none => rw [ha.isNone name ht, hb.isNone name ht]
  | some t =>
    have hwf := hts name t ht
    obtain ⟨x, hx, hreceives⟩ := ha.table name t ht hwf
    obtain ⟨y, hy, hreceives'⟩ := hb.table name t ht hwf
    rw [hx, hy, (hreceives.of_mem_iff hwf (hsame name)).eq hreceives']

/-- Intents that were taken before change nothing. -/
theorem Receives.eq_of_subset (hts : ts.WellFormed) (hfirst : ts.Receives updates ts')
    (hsecond : ts'.Receives others a)
    (hsub : ∀ name, intentsFor others name ⊆ intentsFor updates name) : a = ts' := by
  refine (hfirst.append hsecond).eq_of_mem_iff hts hfirst fun name i => ?_
  rw [intentsFor_append, List.mem_append]
  exact or_iff_left_of_imp fun hi => hsub name hi

/-- A batch that comes again changes nothing. -/
theorem WellFormed.apply_again (hts : ts.WellFormed) (happly : ts.apply updates = .ok ts') :
    ts'.apply updates = .ok ts' := by
  have hfirst := hts.receives_of_apply happly
  have hts' := hfirst.wellFormed hts
  have hknown : ∀ u ∈ updates, ts'.Knows u.view := by
    intro u hu
    obtain ⟨t, ht⟩ := exists_get?_of_apply happly hu
    exact hfirst.knows ⟨t, ht, hts u.view t ht⟩
  obtain ⟨again, hagain, hsecond⟩ := apply_of_knows hknown
  rw [hagain, hfirst.eq_of_subset hts hsecond fun name => List.Subset.refl _]

/-- Two batches may come in either order. -/
theorem WellFormed.apply_comm (hts : ts.WellFormed) (ha : ts.apply updates = .ok a)
    (hb : ts.apply others = .ok b) : ∃ both, a.apply others = .ok both ∧ b.apply updates = .ok both := by
  have hfirst := hts.receives_of_apply ha
  have hfirst' := hts.receives_of_apply hb
  have hknown : ∀ u ∈ others, a.Knows u.view := by
    intro u hu
    obtain ⟨t, ht⟩ := exists_get?_of_apply hb hu
    exact hfirst.knows ⟨t, ht, hts u.view t ht⟩
  have hknown' : ∀ u ∈ updates, b.Knows u.view := by
    intro u hu
    obtain ⟨t, ht⟩ := exists_get?_of_apply ha hu
    exact hfirst'.knows ⟨t, ht, hts u.view t ht⟩
  obtain ⟨x, hx, hsecond⟩ := apply_of_knows hknown
  obtain ⟨y, hy, hsecond'⟩ := apply_of_knows hknown'
  have hsame : x = y := by
    refine (hfirst.append hsecond).eq_of_mem_iff hts (hfirst'.append hsecond') fun name i => ?_
    rw [intentsFor_append, intentsFor_append, List.mem_append, List.mem_append, or_comm]
  exact ⟨x, hx, hsame ▸ hy⟩

/-- Tables for the same views refuse the same batches, for the same reason. -/
theorem WellFormed.apply_eq_error (hts : ts.WellFormed)
    (hnames : ∀ name, (ts.get? name).isSome = (ts'.get? name).isSome) {err : StoreError}
    (happly : ts.apply updates = .error err) : ts'.apply updates = .error err := by
  have hsame : (fun u : ViewUpdate => (ts.get? u.view).isNone) =
      fun u => (ts'.get? u.view).isNone := by
    funext u
    rw [← Option.not_isSome, ← Option.not_isSome, hnames]
  cases hunknown : updates.find? fun u => (ts.get? u.view).isNone with
  | some u =>
    have hother := hsame ▸ hunknown
    rw [ViewTables.apply, hunknown] at happly
    rw [ViewTables.apply, hother]
    exact happly
  | none =>
    have hknown : ∀ u ∈ updates, ts.Knows u.view := by
      intro u hu
      have hnot := List.find?_eq_none.mp hunknown u hu
      exact hts.knows (by simpa [Option.isSome_iff_ne_none] using hnot)
    obtain ⟨taken, htaken, _⟩ := apply_of_knows hknown
    rw [happly] at htaken
    cases htaken

/-- The tables take every sequence of batches for views that they know. -/
theorem WellFormed.foldlM_apply (hts : ts.WellFormed) {batches : List (List ViewUpdate)}
    (hknown : ∀ updates ∈ batches, ∀ u ∈ updates, (ts.get? u.view).isSome = true) :
    ∃ ts', batches.foldlM ViewTables.apply ts = .ok ts' ∧ ts.Receives batches.flatten ts' := by
  induction batches generalizing ts with
  | nil => exact ⟨ts, rfl, receives_nil ts⟩
  | cons updates batches ih =>
    have hfirst : ∀ u ∈ updates, ts.Knows u.view := fun u hu =>
      hts.knows (hknown updates List.mem_cons_self u hu)
    obtain ⟨next, hnext, hreceives⟩ := apply_of_knows hfirst
    have hrest : ∀ others ∈ batches, ∀ u ∈ others, (next.get? u.view).isSome = true := by
      intro others hothers u hu
      rw [hreceives.isSome_get? hts]
      exact hknown others (List.mem_cons_of_mem _ hothers) u hu
    obtain ⟨ts', hfold, hreceives'⟩ := ih (hreceives.wellFormed hts) hrest
    refine ⟨ts', ?_, hreceives.append hreceives'⟩
    rw [List.foldlM_cons, hnext]
    exact hfold

/-- An intent for a view is somewhere in the batches. -/
def Brings (batches : List (List ViewUpdate)) (name : String) (i : Intent) : Prop :=
  ∃ updates ∈ batches, ∃ u ∈ updates, u.view = name ∧ i ∈ u.intents

theorem mem_intentsFor_flatten_iff {batches : List (List ViewUpdate)} {name : String} {i : Intent} :
    i ∈ intentsFor batches.flatten name ↔ Brings batches name i := by
  simp only [intentsFor, Brings, List.mem_flatMap, List.mem_filter, List.mem_flatten,
    decide_eq_true_eq]
  constructor
  · rintro ⟨u, ⟨⟨updates, hupdates, hu⟩, hview⟩, hi⟩
    exact ⟨updates, hupdates, u, hu, hview, hi⟩
  · rintro ⟨updates, hupdates, u, hu, hview, hi⟩
    exact ⟨u, ⟨⟨updates, hupdates, hu⟩, hview⟩, hi⟩

/-- Sequences of batches that bring the same intents for the views are taken, and they leave the same
    tables: neither the order of the intents nor their grouping nor repetitions matter. -/
theorem Reachable.foldlM_apply_of_mem_iff (hts : ts.Reachable)
    {batches others : List (List ViewUpdate)}
    (hknown : ∀ updates ∈ batches ++ others, ∀ u ∈ updates, (ts.get? u.view).isSome = true)
    (hsame : ∀ name i, Brings batches name i ↔ Brings others name i) :
    ∃ ts', batches.foldlM ViewTables.apply ts = .ok ts' ∧ others.foldlM ViewTables.apply ts = .ok ts' := by
  obtain ⟨x, hx, hreceives⟩ := hts.wellFormed.foldlM_apply fun updates hupdates =>
    hknown updates (List.mem_append_left _ hupdates)
  obtain ⟨y, hy, hreceives'⟩ := hts.wellFormed.foldlM_apply fun updates hupdates =>
    hknown updates (List.mem_append_right _ hupdates)
  have heq : x = y := by
    refine hreceives.eq_of_mem_iff hts.wellFormed hreceives' fun name i => ?_
    rw [mem_intentsFor_flatten_iff, mem_intentsFor_flatten_iff]
    exact hsame name i
  exact ⟨x, hx, heq ▸ hy⟩

section Accounts

/-- A view of the owners of accounts. -/
def accounts : View where
  name := "accounts"
  schema := ⟨"accounts", "id", none, SortedSet.ofList ["owner"]⟩
  selected := SortedSet.ofList ["owner"]
  promoted := none
  isRegular_of_selected _ hc := hc
  isRegular_of_promoted _ hc := by cases hc
  not_selected_of_promoted _ hc := by cases hc

/-- The key of an account in the view. -/
def account : ViewKey := ⟨.ofPartition [0], none⟩

/-- An account is opened for a limited time, and everything about it is deleted. -/
def accountChanges : List Intent :=
  [.upsert account (some (.expiring 5 60 1)) none (SortedMap.ofList [("owner", .new 5 [7])]),
    .deleteRow account 4 .regular, .deleteColumns account (SortedMap.ofList [("owner", 5)]),
    .deleteRow account 6 .shadowable]

/-- The changes of an account may come together, or one by one, backwards and then once more. -/
theorem foldlM_apply_of_one_by_one : ∃ ts,
    [[⟨"accounts", accountChanges⟩]].foldlM ViewTables.apply (empty.add accounts) = .ok ts ∧
    ((accountChanges.reverse ++ accountChanges).map fun i => [⟨"accounts", [i]⟩]).foldlM
      ViewTables.apply (empty.add accounts) = .ok ts := by
  refine (Reachable.add .empty accounts).foldlM_apply_of_mem_iff (by decide) fun name i => ?_
  constructor
  · rintro ⟨updates, hupdates, u, hu, rfl, hi⟩
    obtain rfl := List.mem_singleton.mp hupdates
    obtain rfl := List.mem_singleton.mp hu
    exact ⟨[⟨"accounts", [i]⟩], List.mem_map_of_mem (List.mem_append_right _ hi), ⟨"accounts", [i]⟩,
      List.mem_singleton_self _, rfl, List.mem_singleton_self i⟩
  · rintro ⟨updates, hupdates, u, hu, rfl, hi⟩
    obtain ⟨j, hj, rfl⟩ := List.mem_map.mp hupdates
    obtain rfl := List.mem_singleton.mp hu
    obtain rfl := List.mem_singleton.mp hi
    have hmem : i ∈ accountChanges := by simpa using hj
    exact ⟨_, List.mem_singleton_self _, _, List.mem_singleton_self _, rfl, hmem⟩

end Accounts

end ViewMaintenance.ViewTables
