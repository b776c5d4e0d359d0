import ViewMaintenance.Proofs.Store.ViewTable

namespace ViewMaintenance

/-- Two calls fail for the same reason, or both succeed with related results. -/
inductive Alike {ε α : Type} (R : α → α → Prop) : Except ε α → Except ε α → Prop
  | error (err : ε) : Alike R (.error err) (.error err)
  | ok {a b : α} (h : R a b) : Alike R (.ok a) (.ok b)

section FoldlM

variable {ε α β : Type} {R : α → α → Prop} {f : α → β → Except ε α} {xs : List β} {a b : α}

theorem Alike.foldlM (hf : ∀ x ∈ xs, ∀ a b, R a b → Alike R (f a x) (f b x)) (h : R a b) :
    Alike R (xs.foldlM f a) (xs.foldlM f b) := by
  induction xs generalizing a b with
  | nil => exact .ok h
  | cons x xs ih =>
    have hx := hf x List.mem_cons_self a b h
    rw [List.foldlM_cons, List.foldlM_cons]
    generalize f a x = ra at hx ⊢
    generalize f b x = rb at hx ⊢
    cases hx with
    | error err => exact .error err
    | ok hab => exact ih (fun y hy => hf y (List.mem_cons_of_mem _ hy)) hab

theorem rel_of_foldlM (hrefl : ∀ a, R a a) (htrans : ∀ {a b c}, R a b → R b c → R a c)
    (hf : ∀ x ∈ xs, ∀ a b, f a x = .ok b → R a b) (h : xs.foldlM f a = .ok b) : R a b := by
  induction xs generalizing a with
  | nil =>
    obtain rfl : a = b := Except.ok.inj h
    exact hrefl a
  | cons x xs ih =>
    rw [List.foldlM_cons] at h
    cases hx : f a x with
    | error err =>
      rw [hx] at h
      cases h
    | ok c =>
      rw [hx] at h
      exact htrans (hf x List.mem_cons_self a c hx) (ih (fun y hy => hf y (List.mem_cons_of_mem _ hy)) h)

end FoldlM

/-- All intents of an update are for rows of a partition. -/
def ViewUpdate.Within (u : ViewUpdate) (partition : Bytes) : Prop :=
  ∀ i ∈ u.intents, i.row.base.partition = partition

variable {partition other : Bytes}

namespace ViewTable

/-- Two tables have stored the same rows of a partition. -/
def AgreeOn (partition : Bytes) (t t' : ViewTable) : Prop :=
  ∀ id : ViewKey, id.base.partition = partition → t.stored? id = t'.stored? id

theorem apply_agreeOn {t t' : ViewTable} (h : t.AgreeOn partition t') {i : Intent}
    (hi : i.row.base.partition = partition) :
    Alike (AgreeOn partition) (t.apply i) (t'.apply i) := by
  rw [apply_eq, apply_eq, h i.row hi]
  cases ((t'.stored? i.row).getD (.empty i.row.base)).merge i.fragment with
  | error err => exact .error _
  | ok row =>
    refine .ok fun id hid => ?_
    rw [stored?_insert, stored?_insert, h id hid]

theorem agreeOn_of_apply {t t' : ViewTable} {i : Intent} (h : t.apply i = .ok t')
    (hi : i.row.base.partition ≠ other) : t.AgreeOn other t' := by
  rw [apply_eq] at h
  cases hmerge : ((t.stored? i.row).getD (.empty i.row.base)).merge i.fragment with
  | error err =>
    rw [hmerge] at h
    cases h
  | ok row =>
    rw [hmerge] at h
    obtain rfl := Except.ok.inj h
    intro id hid
    have hne : i.row ≠ id := by
      rintro rfl
      exact hi hid
    rw [stored?_insert, if_neg hne]

end ViewTable

namespace ViewTables

/-- Two states of the view tables have tables of the same names, with the same rows of a partition. -/
def AgreeOn (partition : Bytes) (ts ts' : ViewTables) : Prop :=
  ∀ (name : String) (id : ViewKey), id.base.partition = partition →
    (ts.get? name).map (·.stored? id) = (ts'.get? name).map (·.stored? id)

variable {ts ts' ts'' : ViewTables}

theorem AgreeOn.refl (ts : ViewTables) : ts.AgreeOn partition ts := fun _ _ _ => rfl

theorem AgreeOn.symm (h : ts.AgreeOn partition ts') : ts'.AgreeOn partition ts :=
  fun name id hid => (h name id hid).symm

theorem AgreeOn.trans (h : ts.AgreeOn partition ts') (h' : ts'.AgreeOn partition ts'') :
    ts.AgreeOn partition ts'' :=
  fun name id hid => (h name id hid).trans (h' name id hid)

/-- Either both have no table of a name, or both have one. -/
theorem AgreeOn.get?_cases (h : ts.AgreeOn partition ts') (name : String) :
    (ts.get? name = none ∧ ts'.get? name = none) ∨
      ∃ t t', ts.get? name = some t ∧ ts'.get? name = some t' ∧ t.AgreeOn partition t' := by
  have hrow := h name ⟨.ofPartition partition, none⟩ rfl
  cases ht : ts.get? name with
  | none =>
    rw [ht, Option.map_none] at hrow
    exact .inl ⟨rfl, Option.map_eq_none_iff.mp hrow.symm⟩
  | some t =>
    rw [ht, Option.map_some] at hrow
    obtain ⟨t', ht', _⟩ := Option.map_eq_some_iff.mp hrow.symm
    refine .inr ⟨t, t', rfl, ht', fun id hid => ?_⟩
    have hid := h name id hid
    rw [ht, ht'] at hid
    exact Option.some.inj hid

theorem applyUpdate_agreeOn (h : ts.AgreeOn partition ts') {u : ViewUpdate} (hu : u.Within partition) :
    Alike (AgreeOn partition) (ts.applyUpdate u) (ts'.applyUpdate u) := by
  unfold applyUpdate
  rcases h.get?_cases u.view with ⟨hnone, hnone'⟩ | ⟨t, t', ht, ht', htables⟩
  · rw [hnone, hnone']
    exact .error _
  · rw [ht, ht']
    have hrows : Alike (ViewTable.AgreeOn partition) (u.intents.foldlM ViewTable.apply t)
        (u.intents.foldlM ViewTable.apply t') :=
      Alike.foldlM (fun i hi a b hab => ViewTable.apply_agreeOn hab (hu i hi)) htables
    simp only
    generalize u.intents.foldlM ViewTable.apply t = r at hrows ⊢
    generalize u.intents.foldlM ViewTable.apply t' = r' at hrows ⊢
    cases hrows with
    | error err => exact .error _
    | ok hab =>
      refine .ok fun name id hid => ?_
      rw [get?_insert, get?_insert]
      split
      · exact congrArg some (hab id hid)
      · exact h name id hid

theorem agreeOn_of_applyUpdate {u : ViewUpdate} (hu : u.Within partition) (hne : partition ≠ other)
    (h : ts.applyUpdate u = .ok ts') : ts.AgreeOn other ts' := by
  unfold applyUpdate at h
  cases ht : ts.get? u.view with
  | none =>
    rw [ht] at h
    cases h
  | some t =>
    rw [ht] at h
    cases hrows : u.intents.foldlM ViewTable.apply t with
    | error err =>
      simp only [hrows] at h
      cases h
    | ok t' =>
      simp only [hrows] at h
      obtain rfl := Except.ok.inj h
      have hagree : t.AgreeOn other t' :=
        rel_of_foldlM (fun _ _ _ => rfl) (fun h h' id hid => (h id hid).trans (h' id hid))
          (fun i hi a b hab => ViewTable.agreeOn_of_apply hab (by rw [hu i hi]; exact hne)) hrows
      intro name id hid
      rw [get?_insert]
      split
      next hname =>
        rw [← hname, ht]
        exact congrArg some (hagree id hid)
      next => rfl

/-- A batch for one partition has the same result on tables that agree on this partition. -/
theorem apply_agreeOn (h : ts.AgreeOn partition ts') {updates : List ViewUpdate}
    (hwithin : ∀ u ∈ updates, u.Within partition) :
    Alike (AgreeOn partition) (ts.apply updates) (ts'.apply updates) := by
  have hfind : updates.find? (fun u => (ts.get? u.view).isNone) =
      updates.find? fun u => (ts'.get? u.view).isNone := by
    have hsame : (fun u : ViewUpdate => (ts.get? u.view).isNone) =
        fun u => (ts'.get? u.view).isNone := by
      funext u
      rcases h.get?_cases u.view with ⟨hnone, hnone'⟩ | ⟨t, t', ht, ht', _⟩
      · rw [hnone, hnone']
      · rw [ht, ht']
        rfl
    rw [hsame]
  unfold apply
  rw [hfind]
  split
  · exact .error _
  · exact Alike.foldlM (fun u hu a b hab => applyUpdate_agreeOn hab (hwithin u hu)) h

/-- A batch for one partition leaves all others. -/
theorem agreeOn_of_apply {updates : List ViewUpdate} (hwithin : ∀ u ∈ updates, u.Within partition)
    (hne : partition ≠ other) (h : ts.apply updates = .ok ts') : ts.AgreeOn other ts' := by
  unfold apply at h
  split at h
  · cases h
  · exact rel_of_foldlM AgreeOn.refl AgreeOn.trans
      (fun u hu a b hab => agreeOn_of_applyUpdate (hwithin u hu) hne hab) h

/-- A batch goes through an agreement of tables. -/
theorem exists_apply_of_agreeOn (h : ts.AgreeOn partition ts') {updates : List ViewUpdate}
    (hwithin : ∀ u ∈ updates, u.Within partition) (hok : ts.apply updates = .ok ts'') :
    ∃ tables, ts'.apply updates = .ok tables ∧ ts''.AgreeOn partition tables := by
  have halike := apply_agreeOn h hwithin
  rw [hok] at halike
  generalize ts'.apply updates = r at halike ⊢
  cases halike with
  | ok hab => exact ⟨_, rfl, hab⟩

end ViewTables

end ViewMaintenance
