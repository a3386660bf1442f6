namespace RpalMachine

-- The integer of the given value, if it is in range.
def integer? (n : Int) : Option Int64 :=
  if Int64.minValue.toInt ≤ n ∧ n ≤ Int64.maxValue.toInt then some (.ofInt n) else none

theorem integer?_eq_some_iff {n : Int} {a : Int64} : integer? n = some a ↔ a.toInt = n := by
  constructor
  case mp =>
    intro h
    rw [integer?] at h
    split at h
    case isTrue r =>
      cases h
      rw [Int64.toInt_minValue, Int64.toInt_maxValue] at r
      exact Int64.toInt_ofInt_of_le r.1 (Int.lt_of_le_sub_one r.2)
    case isFalse => contradiction
  case mpr =>
    rintro rfl
    rw [integer?, if_pos ⟨a.minValue_le_toInt, a.toInt_le⟩, Int64.ofInt_toInt]

@[simp]
theorem integer?_toInt (a : Int64) : integer? a.toInt = some a :=
  integer?_eq_some_iff.mpr rfl

theorem integer?_eq_none_iff {n : Int} :
    integer? n = none ↔ n < Int64.minValue.toInt ∨ Int64.maxValue.toInt < n := by
  rw [integer?, Int64.toInt_minValue, Int64.toInt_maxValue]
  split <;> simp <;> omega

end RpalMachine
