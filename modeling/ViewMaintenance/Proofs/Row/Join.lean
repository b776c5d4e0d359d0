import ViewMaintenance.Proofs.Write
import ViewMaintenance.Row.Lemmas

namespace ViewMaintenance.Row

open Write

theorem marker_join_eq (a b : Row) :
    (a.join b).marker = surviving (latest? a.deletion b.deletion) (latest? a.marker b.marker) := rfl

theorem cell?_join_eq (a b : Row) (c : String) :
    (a.join b).cell? c =
      surviving (latest? a.deletion b.deletion) (latest? (a.cell? c) (b.cell? c)) :=
  cell?_join a b c

theorem marker_purge_eq (r : Row) : r.purge.marker = surviving r.deletion r.marker := rfl

theorem cell?_purge_eq (r : Row) (c : String) :
    r.purge.cell? c = surviving r.deletion (r.cell? c) := cell?_purge r c

/-- The writes of both rows, the later one at each place, before anything is dropped. -/
def overlay (a b : Row) : Row where
  key := a.key
  marker := latest? a.marker b.marker
  deletion := latest? a.deletion b.deletion
  cells := SortedMap.mergeWith latest a.cells b.cells

@[simp]
theorem cell?_overlay (a b : Row) (c : String) :
    (a.overlay b).cell? c = latest? (a.cell? c) (b.cell? c) :=
  SortedMap.get?_mergeWith _ _ _ _

theorem join_eq_purge (a b : Row) : a.join b = (a.overlay b).purge := rfl

theorem overlay_comm {a b : Row} (hkey : a.key = b.key) : a.overlay b = b.overlay a :=
  ext_cell? hkey (latest?_comm _ _) (latest?_comm _ _) fun c => by
    simp only [cell?_overlay]
    exact latest?_comm _ _

@[simp]
theorem overlay_self (r : Row) : r.overlay r = r :=
  ext_cell? rfl (latest?_self _) (latest?_self _) fun c => by simp

theorem overlay_assoc (a b c : Row) : (a.overlay b).overlay c = a.overlay (b.overlay c) :=
  ext_cell? rfl (latest?_assoc _ _ _) (latest?_assoc _ _ _) fun column => by
    simp only [cell?_overlay]
    exact latest?_assoc _ _ _

/-- What the deletion of one side drops before the merge would have been dropped after it. -/
theorem purge_overlay_purge (a b : Row) : (a.purge.overlay b).purge = (a.overlay b).purge := by
  have hle : latest? a.deletion (latest? a.deletion b.deletion) =
      latest? a.deletion b.deletion := by rw [← latest?_assoc, latest?_self]
  refine ext_cell? rfl ?_ rfl fun c => ?_
  · exact surviving_latest?_surviving hle a.marker b.marker
  · simp only [cell?_purge_eq, cell?_overlay]
    exact surviving_latest?_surviving hle (a.cell? c) (b.cell? c)

theorem join_comm {a b : Row} (hkey : a.key = b.key) : a.join b = b.join a := by
  rw [join_eq_purge, join_eq_purge, overlay_comm hkey]

theorem join_join (a b c : Row) : (a.join b).join c = a.join (b.overlay c) := by
  rw [join_eq_purge, join_eq_purge, purge_overlay_purge, overlay_assoc, ← join_eq_purge]

theorem join_purge {a b : Row} (hkey : a.key = b.key) : a.join b.purge = a.join b := by
  rw [join_comm (by simpa using hkey), join_eq_purge, purge_overlay_purge, ← join_eq_purge,
    join_comm hkey]

theorem join_assoc {a b c : Row} (hab : a.key = b.key) :
    (a.join b).join c = a.join (b.join c) := by
  have hkey : a.key = (b.overlay c).key := hab
  rw [join_join, join_eq_purge b c, join_purge hkey]

/-- A row that keeps nothing its own deletion reaches. -/
def Canonical (r : Row) : Prop := r.purge = r

theorem canonical_iff {r : Row} : r.Canonical ↔
    surviving r.deletion r.marker = r.marker ∧
      ∀ c, surviving r.deletion (r.cell? c) = r.cell? c := by
  constructor
  · intro h
    refine ⟨congrArg Row.marker h, fun c => ?_⟩
    rw [← cell?_purge_eq, h]
  · rintro ⟨hmarker, hcell⟩
    exact ext_cell? rfl hmarker rfl fun c => (cell?_purge_eq r c).trans (hcell c)

/-- A row keeps nothing that its own deletion reaches if all that it keeps was written later. -/
theorem canonical_iff_lt {r : Row} : r.Canonical ↔ ∀ d, r.deletion = some d →
    (∀ m, r.marker = some m → d.markedAt < m.timestamp) ∧
      ∀ c x, r.cell? c = some x → d.markedAt < x.timestamp := by
  rw [canonical_iff]
  simp only [surviving_eq_self_iff, Deletion.covers_eq_false_iff]
  constructor
  · rintro ⟨hmarker, hcell⟩ d hd
    exact ⟨fun m hm => hmarker m hm d hd, fun c x hx => hcell c x hx d hd⟩
  · intro h
    exact ⟨fun m hm d hd => (h d hd).1 m hm, fun c x hx d hd => (h d hd).2 c x hx⟩

theorem Canonical.marker {r : Row} (h : r.Canonical) : surviving r.deletion r.marker = r.marker :=
  (canonical_iff.mp h).1

theorem Canonical.cell? {r : Row} (h : r.Canonical) (c : String) :
    surviving r.deletion (r.cell? c) = r.cell? c := (canonical_iff.mp h).2 c

theorem canonical_purge (r : Row) : r.purge.Canonical := by
  refine canonical_iff.mpr ⟨?_, fun c => ?_⟩
  · rw [marker_purge_eq, deletion_purge, surviving_surviving, latest?_self]
  · rw [cell?_purge_eq, deletion_purge, surviving_surviving, latest?_self]

theorem canonical_join (a b : Row) : (a.join b).Canonical := canonical_purge _

theorem canonical_shadow (r : Row) (d : Option Deletion) : (r.shadow d).Canonical :=
  canonical_purge _

theorem canonical_empty (key : RowKey) : (empty key).Canonical := by
  refine canonical_iff.mpr ⟨rfl, fun c => rfl⟩

theorem Canonical.not_covers_cell {r : Row} (h : r.Canonical) {c : String} {x : Cell}
    (hx : r.cell? c = some x) : Deletion.covers r.deletion x.timestamp = false := by
  have hs := h.cell? c
  rw [hx] at hs
  exact (surviving_eq_some.mp hs).2

theorem Canonical.not_covers_marker {r : Row} (h : r.Canonical) {m : Marker}
    (hm : r.marker = some m) : Deletion.covers r.deletion m.timestamp = false := by
  have hs := h.marker
  rw [hm] at hs
  exact (surviving_eq_some.mp hs).2

theorem join_self (r : Row) : r.join r = r.purge := by rw [join_eq_purge, overlay_self]

@[simp]
theorem join_empty (r : Row) (key : RowKey) : r.join (empty key) = r.purge := by
  rw [join_eq_purge]
  congr 1
  exact ext_cell? rfl (latest?_none_right _) (latest?_none_right _) fun c => by simp

theorem Canonical.join_empty {r : Row} (h : r.Canonical) (key : RowKey) :
    r.join (Row.empty key) = r := (Row.join_empty r key).trans h

/-- The fragment that holds a deletion and nothing else. -/
def ofDeletion (key : RowKey) (d : Option Deletion) : Row := { empty key with deletion := d }

@[simp]
theorem cell?_ofDeletion (key : RowKey) (d : Option Deletion) (c : String) :
    (ofDeletion key d).cell? c = none := rfl

theorem latest?_marker_of_join {a b : Row} {m : Marker} (h : (a.join b).marker = some m) :
    latest? a.marker b.marker = some m := by
  rw [marker_join_eq] at h
  exact (surviving_eq_some.mp h).1

theorem marker_of_join_ofDeletion {r : Row} {key : RowKey} {d : Option Deletion} {m : Marker}
    (h : (r.join (ofDeletion key d)).marker = some m) :
    r.marker = some m ∧ Deletion.covers d m.timestamp = false := by
  have hlatest : latest? r.marker none = some m := latest?_marker_of_join h
  rw [latest?_none_right] at hlatest
  rw [marker_join_eq] at h
  have hkept : Deletion.covers (latest? r.deletion d) m.timestamp = false := (surviving_eq_some.mp h).2
  refine ⟨hlatest, ?_⟩
  cases hd : Deletion.covers d m.timestamp with
  | false => rfl
  | true =>
    rw [(Deletion.covers_latest? r.deletion d m.timestamp).mpr (.inr hd)] at hkept
    cases hkept

theorem shadow_eq_join (r : Row) (key : RowKey) (d : Option Deletion) :
    r.shadow d = r.join (ofDeletion key d) := by
  rw [join_eq_purge, shadow]
  congr 1
  exact ext_cell? rfl (latest?_none_right _).symm rfl fun c => by
    rw [cell?_overlay, cell?_ofDeletion, latest?_none_right]
    rfl

theorem shadow_join {a b : Row} (d : Option Deletion) :
    (a.shadow d).join b = (a.join b).shadow d := by
  have hcomm : (ofDeletion b.key d).overlay b = b.overlay (ofDeletion b.key d) :=
    overlay_comm rfl
  rw [shadow_eq_join a b.key, shadow_eq_join (a.join b) b.key, join_join, join_join, hcomm]

theorem shadow_shadow (r : Row) (d e : Option Deletion) :
    (r.shadow d).shadow e = r.shadow (latest? d e) := by
  rw [shadow_eq_join r r.key, shadow_eq_join _ r.key, join_join, shadow_eq_join r r.key]
  congr 1

/-- A row absorbs another one if merging this one into it leaves it as it is. -/
def Absorbs (a b : Row) : Prop := a.join b = a

theorem Absorbs.deletion {a b : Row} (h : a.Absorbs b) :
    latest? b.deletion a.deletion = a.deletion := by
  rw [latest?_comm]
  exact congrArg Row.deletion h

theorem Absorbs.marker {a b : Row} (h : a.Absorbs b) :
    surviving a.deletion (latest? a.marker b.marker) = a.marker := by
  have hmarker := congrArg Row.marker h
  rwa [marker_join_eq, latest?_comm a.deletion, h.deletion] at hmarker

theorem Absorbs.cell? {a b : Row} (h : a.Absorbs b) (c : String) :
    surviving a.deletion (latest? (a.cell? c) (b.cell? c)) = a.cell? c := by
  have hcell := congrArg (Row.cell? · c) h
  simpa only [cell?_join_eq, latest?_comm a.deletion, h.deletion] using hcell

theorem absorbs_of_places {a b : Row} (hdeletion : latest? b.deletion a.deletion = a.deletion)
    (hmarker : surviving a.deletion (latest? a.marker b.marker) = a.marker)
    (hcell : ∀ c, surviving a.deletion (latest? (a.cell? c) (b.cell? c)) = a.cell? c) :
    a.Absorbs b := by
  have hdel : latest? a.deletion b.deletion = a.deletion := by rw [latest?_comm, hdeletion]
  refine ext_cell? rfl ?_ hdel fun c => ?_
  · rw [marker_join_eq, hdel, hmarker]
  · rw [cell?_join_eq, hdel, hcell]

theorem Absorbs.canonical {a b : Row} (h : a.Absorbs b) : a.Canonical := by
  rw [← show a.join b = a from h]
  exact canonical_join a b

theorem Canonical.absorbs_self {r : Row} (h : r.Canonical) : r.Absorbs r := (join_self r).trans h

/-- What a row absorbs, it absorbs after any further merge. -/
theorem Absorbs.join {a b : Row} (h : a.Absorbs b) {c : Row} (hac : a.key = c.key)
    (hab : a.key = b.key) : (a.join c).Absorbs b := by
  have hcomm : c.join b = b.join c := join_comm (hac.symm.trans hab)
  rw [Absorbs, join_assoc hac, hcomm, ← join_assoc hab, show a.join b = a from h]

theorem Absorbs.join_right {a b c : Row} (hb : a.Absorbs b) (hc : a.Absorbs c)
    (hab : a.key = b.key) : a.Absorbs (b.join c) := by
  rw [Absorbs, ← join_assoc hab, show a.join b = a from hb]
  exact hc

theorem Absorbs.shadow {a b : Row} (h : a.Absorbs b) (hab : a.key = b.key) (d : Option Deletion) :
    (a.shadow d).Absorbs b := by
  rw [shadow_eq_join a a.key]
  exact h.join rfl hab

theorem absorbs_ofDeletion_shadow (r : Row) (key : RowKey) (d : Option Deletion) :
    (r.shadow d).Absorbs (ofDeletion key d) := by
  rw [Absorbs, ← shadow_eq_join, shadow_shadow, latest?_self]

theorem Canonical.absorbs_ofDeletion {r : Row} (h : r.Canonical) (key : RowKey)
    {d : Option Deletion} (hle : latest? d r.deletion = r.deletion) :
    r.Absorbs (ofDeletion key d) := by
  refine absorbs_of_places hle ?_ fun c => ?_
  · exact (congrArg _ (latest?_none_right _)).trans h.marker
  · exact (congrArg _ (latest?_none_right _)).trans (h.cell? c)

theorem absorbs_join (a b : Row) : (a.join b).Absorbs b := by
  rw [Absorbs, join_join, overlay_self]

section Foldl

theorem key_foldl_join (fragments : List Row) (r : Row) : (fragments.foldl join r).key = r.key := by
  induction fragments generalizing r with
  | nil => rfl
  | cons f fs ih => rw [List.foldl_cons, ih, key_join]

theorem canonical_foldl_join (fragments : List Row) {r : Row} (h : r.Canonical) :
    (fragments.foldl join r).Canonical := by
  induction fragments generalizing r with
  | nil => exact h
  | cons f fs ih => exact ih (canonical_join r f)

/-- Fragments can be merged among themselves first. -/
theorem join_foldl_join (fragments : List Row) {r s : Row} (hkey : r.key = s.key) :
    r.join (fragments.foldl join s) = fragments.foldl join (r.join s) := by
  induction fragments generalizing s with
  | nil => rfl
  | cons f fs ih =>
    have hnext : r.key = (s.join f).key := hkey
    rw [List.foldl_cons, List.foldl_cons, ih hnext, join_assoc hkey]

theorem foldl_join_perm {fragments others : List Row} {key : RowKey} (h : fragments.Perm others)
    (hkey : ∀ f ∈ fragments, f.key = key) (r : Row) :
    fragments.foldl join r = others.foldl join r := by
  refine h.foldl_eq' (fun f hf g hg s => ?_) r
  rw [join_join, join_join, overlay_comm ((hkey f hf).trans (hkey g hg).symm)]

theorem Absorbs.foldl_join {fragments : List Row} {a b : Row} (h : a.Absorbs b)
    (hkey : ∀ f ∈ fragments, f.key = a.key) (hab : a.key = b.key) :
    (fragments.foldl Row.join a).Absorbs b := by
  induction fragments generalizing a with
  | nil => exact h
  | cons f fs ih =>
    have hf : a.key = f.key := (hkey f List.mem_cons_self).symm
    exact ih (h.join hf hab) (fun g hg => hkey g (List.mem_cons_of_mem _ hg)) hab

theorem absorbs_foldl_join {fragments : List Row} {r : Row} (hkey : ∀ f ∈ fragments, f.key = r.key)
    {f : Row} (hf : f ∈ fragments) : (fragments.foldl join r).Absorbs f := by
  induction fragments generalizing r with
  | nil => cases hf
  | cons g fs ih =>
    have hrest : ∀ h ∈ fs, h.key = (r.join g).key := fun h hh => hkey h (List.mem_cons_of_mem _ hh)
    rcases List.mem_cons.mp hf with rfl | hf
    · exact (absorbs_join r f).foldl_join hrest (hkey f List.mem_cons_self).symm
    · exact ih hrest hf

theorem foldl_join_of_absorbs {fragments : List Row} {r : Row} (h : ∀ f ∈ fragments, r.Absorbs f) :
    fragments.foldl join r = r := by
  induction fragments with
  | nil => rfl
  | cons f fs ih =>
    rw [List.foldl_cons, show r.join f = r from h f List.mem_cons_self]
    exact ih fun g hg => h g (List.mem_cons_of_mem _ hg)

/-- What is merged into a row counts, and not how often or in which order. -/
theorem foldl_join_of_mem_iff {fragments others : List Row} {r : Row}
    (hkey : ∀ f ∈ fragments, f.key = r.key) (hsame : ∀ f, f ∈ fragments ↔ f ∈ others) :
    fragments.foldl join r = others.foldl join r := by
  have hkey' : ∀ f ∈ others, f.key = r.key := fun f hf => hkey f ((hsame f).mpr hf)
  have hboth : ∀ f ∈ fragments ++ others, f.key = r.key := fun f hf =>
    (List.mem_append.mp hf).elim (hkey f) (hkey' f)
  calc fragments.foldl join r
      = others.foldl join (fragments.foldl join r) :=
        (foldl_join_of_absorbs fun f hf => absorbs_foldl_join hkey ((hsame f).mpr hf)).symm
    _ = (fragments ++ others).foldl join r := List.foldl_append.symm
    _ = (others ++ fragments).foldl join r := foldl_join_perm List.perm_append_comm hboth r
    _ = fragments.foldl join (others.foldl join r) := List.foldl_append
    _ = others.foldl join r :=
        foldl_join_of_absorbs fun f hf => absorbs_foldl_join hkey' ((hsame f).mp hf)

end Foldl

/-- Merging rows of one key is a join. It takes the rows in any order, grouping and number, as long as a
    row that is merged with itself has nothing to drop, and a deletion can be applied to either part
    or to the whole. -/
theorem merge_laws {a b c : Row} (hab : a.key = b.key) (hbc : b.key = c.key) (d : Option Deletion) :
    ∃ ab bc abc, a.merge b = .ok ab ∧ b.merge a = .ok ab ∧ b.merge c = .ok bc ∧
      ab.merge c = .ok abc ∧ a.merge bc = .ok abc ∧ ab.merge b = .ok ab ∧
      (a.shadow d).merge b = .ok (ab.shadow d) ∧
      (a.merge a = .ok a ↔ ∀ x, a.deletion = some x →
        (∀ m, a.marker = some m → x.markedAt < m.timestamp) ∧
          ∀ column cell, a.cell? column = some cell → x.markedAt < cell.timestamp) := by
  have habsorbs : (a.join b).join b = a.join b := absorbs_join a b
  refine ⟨a.join b, b.join c, (a.join b).join c, merge_eq_ok hab, ?_, merge_eq_ok hbc,
    merge_eq_ok (hab.trans hbc), ?_, ?_, ?_, ?_⟩
  · rw [merge_eq_ok hab.symm, join_comm hab]
  · rw [join_assoc hab]
    exact merge_eq_ok hab
  · rw [merge_eq_ok (show (a.join b).key = b.key from hab), habsorbs]
  · rw [merge_eq_ok (show (a.shadow d).key = b.key from hab), shadow_join]
  · rw [merge_eq_ok rfl, join_self, Except.ok.injEq]
    exact canonical_iff_lt

section Order

/-- A state of an order that still holds a note from before its deletion, and a status whose tombstone
    carries an expiry. -/
def unpurged : Row :=
  ⟨.ofPartition [0], some (.live 6 none), some ⟨5⟩,
    SortedMap.ofList [("note", .new 4 [1]), ("status", ⟨7, none, some ⟨1, 8⟩⟩)]⟩

/-- The deletion of the status of the order, at the time of that tombstone. -/
def cleared : Row := (empty (.ofPartition [0])).withCell "status" (.tombstone 7)

/-- A later status of the order, in a row that is deleted at its insertion. -/
def restored : Row :=
  ((empty (.ofPartition [0])).withDeletion ⟨6⟩).withCell "status" (.new 8 [2])

/-- The laws hold for a row with data that its own deletion reaches, which is not its own merge. -/
theorem merge_laws_of_unpurged : ∃ ab bc abc, unpurged.merge cleared = .ok ab ∧
    cleared.merge unpurged = .ok ab ∧ cleared.merge restored = .ok bc ∧
    ab.merge restored = .ok abc ∧ unpurged.merge bc = .ok abc ∧ ab.merge cleared = .ok ab ∧
    (unpurged.shadow (some ⟨7⟩)).merge cleared = .ok (ab.shadow (some ⟨7⟩)) ∧
    unpurged.merge unpurged ≠ .ok unpurged := by
  obtain ⟨ab, bc, abc, hab, hba, hbc, habc, hgrouped, hagain, hshadow, hself⟩ :=
    merge_laws (a := unpurged) (b := cleared) (c := restored) rfl rfl (some ⟨7⟩)
  refine ⟨ab, bc, abc, hab, hba, hbc, habc, hgrouped, hagain, hshadow, fun h => ?_⟩
  have hlate := (hself.mp h ⟨5⟩ rfl).2 "note" (.new 4 [1]) rfl
  exact absurd hlate (by decide)

end Order

end ViewMaintenance.Row
