import RpalMachine.Proofs.Reading

namespace RpalMachine

namespace Reader

variable {t : Token} {s rest : List Token} {l : Lexeme}

theorem skip?_of_eq (h : t.lexeme = l) : skip? l (t :: s) = .ok (true, s) := by
  simp [skip?, h]

theorem skip?_cons_of_ne (h : t.lexeme ≠ l) : skip? l (t :: s) = .ok (false, t :: s) := by
  simp [skip?, h]

theorem skip?_of_ne (h : ∀ t ∈ s.head?, t.lexeme ≠ l) : skip? l s = .ok (false, s) := by
  cases s
  case nil  => rfl
  case cons => exact skip?_cons_of_ne (h _ rfl)

theorem expect_of_eq (h : t.lexeme = l) : expect l (t :: s) = .ok (⟨⟩, s) := by
  simp [expect, skip?_of_eq h]

theorem identifier_of_eq {x : String} (h : t.lexeme = .identifier x) :
    identifier (t :: s) = .ok (.name x, s) := by
  cases t
  cases h
  rfl

theorem takeIf_of_some {meaning? : Lexeme → Option α} {a : α} (h : meaning? t.lexeme = some a) :
    takeIf meaning? (t :: s) = .ok (some a, s) := by
  simp [takeIf, h]

theorem takeIf_of_none {meaning? : Lexeme → Option α}
    (h : ∀ t ∈ s.head?, meaning? t.lexeme = none) : takeIf meaning? s = .ok (none, s) := by
  cases s
  case nil  => rfl
  case cons => simp [takeIf, h _ rfl]

section
variable {step : α → Reader (Option α)} {a b : α} (hc : ∀ a, Consuming (step a))
include hc

theorem iterate_of_some (h : step a s = .ok (some b, rest)) :
    iterate step a s = iterate step b rest := by
  rw [iterate_eq hc, h]

theorem iterate_of_none (h : step a s = .ok (none, rest)) : iterate step a s = .ok (a, rest) := by
  rw [iterate_eq hc, h]

end

section
variable {p : List Lexeme → Tree → Prop} {item : Reader Tree} {a : Tree} (hi : Reads item p)
include hi

theorem manyAfter_of_eq (h : t.lexeme = l) (ha : item s = .ok (a, rest)) :
    manyAfter l item (t :: s) = ((a :: ·) <$> manyAfter l item) rest := by
  rw [manyAfter, many_eq (hi.itemAfter l).consuming]
  simp [skip?_of_eq h, ha]

theorem manyAfter_of_ne (h : ∀ t ∈ s.head?, t.lexeme ≠ l) : manyAfter l item s = .ok ([], s) := by
  rw [manyAfter, many_eq (hi.itemAfter l).consuming]
  simp [skip?_of_ne h]

variable (hp : ∀ ls t, p ls t → ls ≠ [])
include hp

theorem manyUntil_of_ne (h : ∀ t ∈ s.head?, t.lexeme ≠ l) (ha : item s = .ok (a, rest)) :
    manyUntil l item s = ((a :: ·) <$> manyUntil l item) rest := by
  rw [manyUntil, many_eq (hi.itemBefore hp l).consuming]
  simp [skip?_of_ne h, ha]

theorem manyUntil_of_eq (h : t.lexeme = l) : manyUntil l item (t :: s) = .ok ([], s) := by
  rw [manyUntil, many_eq (hi.itemBefore hp l).consuming]
  simp [skip?_of_eq h]

end

end Reader

end RpalMachine
