namespace ViewMaintenance

variable {α : Type} [Ord α]

/-- The greater of two writes. The order tells any two different writes apart, so the winner
    depends neither on the order in which writes arrive nor on how often each of them does. -/
def latest (a b : α) : α := if compare a b = .lt then b else a

/-- The greater of two writes that may be missing; a missing one loses. -/
def latest? (a b : Option α) : Option α := Option.merge latest a b

theorem latest_eq_or (a b : α) : latest a b = a ∨ latest a b = b := by
  unfold latest
  split
  · exact .inr rfl
  · exact .inl rfl

@[simp]
theorem latest_self (a : α) : latest a a = a := by simp [latest]

theorem latest_comm [Std.OrientedOrd α] [Std.LawfulEqOrd α] (a b : α) :
    latest a b = latest b a := by
  have hswap : compare b a = (compare a b).swap := Std.OrientedCmp.eq_swap
  unfold latest
  cases h : compare a b with
  | lt => simp [hswap, h]
  | eq => simpa [hswap, h] using Std.LawfulEqCmp.eq_of_compare h
  | gt => simp [hswap, h]

theorem latest_assoc [Std.TransOrd α] (a b c : α) :
    latest (latest a b) c = latest a (latest b c) := by
  unfold latest
  by_cases hab : compare a b = .lt
  · by_cases hbc : compare b c = .lt
    · have hac : compare a c = .lt := Std.TransCmp.lt_trans hab hbc
      simp [hab, hbc, hac]
    · simp [hab, hbc]
  · by_cases hbc : compare b c = .lt
    · simp [hab, hbc]
    · have hac : ¬ compare a c = .lt := by
        rw [Ordering.ne_lt_iff_isGE] at *
        exact Std.TransCmp.isGE_trans hab hbc
      simp [hab, hbc, hac]

@[simp]
theorem latest?_none_left (a : Option α) : latest? none a = a := by cases a <;> rfl

@[simp]
theorem latest?_none_right (a : Option α) : latest? a none = a := by cases a <;> rfl

@[simp]
theorem latest?_some_some (a b : α) : latest? (some a) (some b) = some (latest a b) := rfl

@[simp]
theorem latest?_self (a : Option α) : latest? a a = a := by cases a <;> simp

theorem latest?_comm [Std.OrientedOrd α] [Std.LawfulEqOrd α] (a b : Option α) :
    latest? a b = latest? b a := by
  cases a <;> cases b <;> simp [latest_comm]

theorem latest?_assoc [Std.TransOrd α] (a b c : Option α) :
    latest? (latest? a b) c = latest? a (latest? b c) := by
  cases a <;> cases b <;> cases c <;> simp [latest_assoc]

end ViewMaintenance
