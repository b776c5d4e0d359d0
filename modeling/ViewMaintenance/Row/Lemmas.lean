import ViewMaintenance.Row.Basic
import ViewMaintenance.SortedMap.Lemmas

namespace ViewMaintenance.Row

theorem ext_cell? {a b : Row} (hkey : a.key = b.key) (hmarker : a.marker = b.marker)
    (hdeletion : a.deletion = b.deletion) (hcell : ∀ c, a.cell? c = b.cell? c) : a = b := by
  obtain ⟨ka, ma, da, ca⟩ := a
  obtain ⟨kb, mb, db, cb⟩ := b
  simp only [mk.injEq]
  exact ⟨hkey, hmarker, hdeletion, SortedMap.ext_get? hcell⟩

@[simp]
theorem cell?_empty (key : RowKey) (c : String) : (empty key).cell? c = none := rfl

@[simp]
theorem key_purge (r : Row) : r.purge.key = r.key := rfl

@[simp]
theorem deletion_purge (r : Row) : r.purge.deletion = r.deletion := rfl

theorem cell?_purge (r : Row) (c : String) :
    r.purge.cell? c = (r.cell? c).filter fun x => !Deletion.covers r.deletion x.timestamp :=
  SortedMap.get?_filter _ _ _

@[simp]
theorem key_join (a b : Row) : (a.join b).key = a.key := rfl

@[simp]
theorem deletion_join (a b : Row) : (a.join b).deletion = latest? a.deletion b.deletion := rfl

theorem cell?_join (a b : Row) (c : String) :
    (a.join b).cell? c = (latest? (a.cell? c) (b.cell? c)).filter fun x =>
      !Deletion.covers (latest? a.deletion b.deletion) x.timestamp := by
  rw [join, cell?_purge]
  exact congrArg _ (SortedMap.get?_mergeWith _ _ _ _)

@[simp]
theorem key_shadow (r : Row) (d : Option Deletion) : (r.shadow d).key = r.key := rfl

@[simp]
theorem deletion_shadow (r : Row) (d : Option Deletion) :
    (r.shadow d).deletion = latest? r.deletion d := rfl

theorem cell?_shadow (r : Row) (d : Option Deletion) (c : String) :
    (r.shadow d).cell? c = (r.cell? c).filter fun x =>
      !Deletion.covers (latest? r.deletion d) x.timestamp :=
  cell?_purge _ _

theorem merge_eq_ok {a b : Row} (h : a.key = b.key) : a.merge b = .ok (a.join b) := if_pos h

theorem merge_eq_error {a b : Row} (h : a.key ≠ b.key) : a.merge b = .error ⟨a.key, b.key⟩ :=
  if_neg h

theorem merge_eq_ok_iff {a b r : Row} : a.merge b = .ok r ↔ a.key = b.key ∧ a.join b = r := by
  by_cases h : a.key = b.key
  · rw [merge_eq_ok h, Except.ok.injEq]
    exact (and_iff_right h).symm
  · rw [merge_eq_error h]
    exact ⟨nofun, fun hr => absurd hr.1 h⟩

end ViewMaintenance.Row
