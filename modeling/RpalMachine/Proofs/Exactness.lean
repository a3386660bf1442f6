import Mathlib.Algebra.Order.Field.Power
import Mathlib.Algebra.Ring.Int.Parity
import Mathlib.Data.Rat.Floor
import RpalMachine.Machine.Operation

namespace RpalMachine

-- A rational number without its fraction.
def truncate (q : ℚ) : ℤ :=
  if 0 ≤ q then ⌊q⌋ else ⌈q⌉

section

variable {q : ℚ}

@[simp]
theorem truncate_intCast (n : ℤ) : truncate n = n := by
  rw [truncate, Int.floor_intCast, Int.ceil_intCast, ite_self]

@[simp]
theorem truncate_neg (q : ℚ) : truncate (-q) = -truncate q := by
  obtain h | rfl | h := lt_trichotomy q 0
  case inl     => rw [truncate, truncate, if_pos (by linarith), if_neg h.not_ge, Int.floor_neg]
  case inr.inl => rfl
  case inr.inr => rw [truncate, truncate, if_neg (by linarith), if_pos h.le, Int.ceil_neg]

theorem truncate_of_abs_lt_one (h : |q| < 1) : truncate q = 0 := by
  have ⟨hl, hr⟩ := abs_lt.mp h
  rw [truncate]
  split
  case isTrue hq  => exact Int.floor_eq_zero_iff.mpr ⟨hq, hr⟩
  case isFalse hq => exact Int.ceil_eq_zero_iff.mpr ⟨hl, (not_le.mp hq).le⟩

-- Both sides are known for natural numbers, and do the same with signs.
theorem truncate_div (a b : ℤ) : truncate (a / b) = a.tdiv b := by
  have h (m n : ℕ) : truncate (m / n) = m / n := by
    rw [truncate, if_pos (by positivity), Rat.floor_natCast_div_natCast]
  obtain ⟨m, rfl | rfl⟩ := a.eq_nat_or_neg <;> obtain ⟨n, rfl | rfl⟩ := b.eq_nat_or_neg <;>
    simp [neg_div, div_neg, h, Int.neg_tdiv, Int.tdiv_neg]

end

namespace Arithmetic

-- The quotient and the power of two integers, where there is one.
def exactQuotient (a b : ℤ) : Except EvaluationFault ℚ :=
  if b = 0 then .error .divisionByZero else .ok (a / b)

def exactPower (a b : ℤ) : Except EvaluationFault ℚ :=
  if a = 0 ∧ b < 0 then .error .powerOfZero else .ok ((a : ℚ) ^ b)

section

variable {a b : ℤ}

theorem exactPower_of_ne_zero (h : a ≠ 0) : exactPower a b = .ok ((a : ℚ) ^ b) :=
  if_neg fun h' => h h'.1

theorem exactPower_eq_one (h : a = 1 ∨ b = 0) : exactPower a b = .ok (1 : ℤ) := by
  obtain rfl | rfl := h <;> simp [exactPower]

theorem exactPower_neg_one (b : ℤ) :
    exactPower (-1) b = .ok (if b % 2 = 0 then 1 else -1 : ℤ) := by
  rw [exactPower_of_ne_zero (by decide), Int.cast_neg, Int.cast_one, neg_one_zpow_eq_ite]
  simp [Int.even_iff]

theorem exactPower_zero (h : b ≠ 0) :
    exactPower 0 b = if 0 < b then .ok (0 : ℤ) else .error .powerOfZero := by
  rw [exactPower]
  split
  case isTrue h₀  => rw [if_neg (by omega)]
  case isFalse h₀ => rw [if_pos (by omega), Int.cast_zero, zero_zpow b h]

theorem exactPower_of_nonneg (h : 0 ≤ b) : exactPower a b = .ok ((a ^ b.toNat : ℤ) : ℚ) := by
  obtain ⟨n, rfl⟩ := Int.eq_ofNat_of_zero_le h
  rw [exactPower, if_neg fun h' => h.not_gt h'.2]
  simp

-- A negative power of an integer other than -1, 0 and 1 is between -1 and 1.
theorem truncate_zpow_of_neg (ha : 2 ≤ a.natAbs) (hb : b < 0) : truncate ((a : ℚ) ^ b) = 0 := by
  refine truncate_of_abs_lt_one ?_
  have ha : 1 < |(a : ℚ)| := by
    rw [← Int.cast_abs, Int.abs_eq_natAbs]
    exact_mod_cast ha
  rw [abs_zpow]
  exact zpow_lt_one_of_neg₀ ha hb

theorem toInt_ne_pow (ha : 2 ≤ a.natAbs) {k : ℕ} (hk : 63 < k) (n : Int64) : n.toInt ≠ a ^ k := by
  intro h
  have hp : 2 ^ 64 ≤ (a ^ k).natAbs :=
    calc 2 ^ 64 ≤ 2 ^ k           := Nat.pow_le_pow_right (by decide) hk
      _         ≤ a.natAbs ^ k    := Nat.pow_le_pow_left ha k
      _         = (a ^ k).natAbs := (Int.natAbs_pow a k).symm
  have hl := n.le_toInt
  have hr := n.toInt_lt
  omega

end

end Arithmetic

-- How an operation ends whose exact result is given, or else why there is none. The result is
-- yielded without its fraction exactly if that is in range.
inductive Operation.Settles (operation : Operation) :
    Except EvaluationFault ℚ → Except Fault Symbol → Prop
  | result {q : ℚ} {n : Int64} :
    n.toInt = truncate q → Settles operation (.ok q) (.ok (.integer n))
  | overflow {q : ℚ} :
    (∀ n : Int64, n.toInt ≠ truncate q) →
      Settles operation (.ok q) (.error (.evaluation (.overflow operation)))
  | undefined {e : EvaluationFault} : Settles operation (.error e) (.error (.evaluation e))

-- What the machine makes of what an operation has computed.
def Symbol.ofComputation (result : Except EvaluationFault Int64) : Except Fault Symbol := do
  let n ← Fault.ofEvaluation result
  return .integer n

namespace Operation

theorem settles_checked {operation : Operation} {q : ℚ} {n : ℤ} (h : truncate q = n) :
    operation.Settles (.ok q) (Symbol.ofComputation (operation.checked n)) := by
  rw [checked]
  split
  case h_1 a hn => exact .result ((integer?_eq_some_iff.mp hn).trans h.symm)
  case h_2 hn =>
    refine .overflow fun a ha => ?_
    cases hn.symm.trans (integer?_eq_some_iff.mpr (ha.trans h))

theorem settles_divide (a b : Int64) :
    division.Settles (Arithmetic.exactQuotient a.toInt b.toInt)
      (Symbol.ofComputation (Arithmetic.divide a b)) := by
  rw [Arithmetic.exactQuotient, Arithmetic.divide]
  split
  case isTrue  => exact .undefined
  case isFalse => exact settles_checked (truncate_div a.toInt b.toInt)

-- An integer that is yielded without a check.
theorem settles_ok {operation : Operation} {n : Int64} {m : ℤ} (h : n.toInt = m) :
    operation.Settles (.ok (m : ℚ)) (Symbol.ofComputation (.ok n)) :=
  .result (by rw [h, truncate_intCast])

theorem settles_power (a b : Int64) :
    exponentiation.Settles (Arithmetic.exactPower a.toInt b.toInt)
      (Symbol.ofComputation (Arithmetic.power a b)) := by
  rw [Arithmetic.power]
  split
  case isTrue h => exact Arithmetic.exactPower_eq_one h.symm ▸ settles_ok rfl
  case isFalse h =>
  have ⟨hb, ha₁⟩ := not_or.mp h
  split
  case isTrue ha =>
    rw [ha, Arithmetic.exactPower_neg_one]
    exact settles_ok (by split <;> rfl)
  case isFalse ha₂ =>
  split
  case isTrue ha =>
    rw [ha, Arithmetic.exactPower_zero hb]
    split
    case isTrue  => exact settles_ok rfl
    case isFalse => exact .undefined
  case isFalse ha₀ =>
  -- The base is neither -1 nor 0 nor 1 from here on.
  have ha : 2 ≤ a.toInt.natAbs := by omega
  split
  case isTrue hn =>
    rw [Arithmetic.exactPower_of_ne_zero ha₀]
    exact .result (Arithmetic.truncate_zpow_of_neg ha hn).symm
  case isFalse hn =>
  rw [Arithmetic.exactPower_of_nonneg (not_lt.mp hn)]
  split
  case isTrue => exact settles_checked (truncate_intCast _)
  case isFalse hk =>
    refine .overflow fun n => ?_
    rw [truncate_intCast]
    exact Arithmetic.toInt_ne_pow ha (by omega) n

end Operation

theorem Symbol.toInteger_of_ne {x : Symbol} (h : ∀ a, x ≠ .integer a) (operator : String) :
    x.toInteger operator = .error (.type (.integerOperand operator x)) := by
  cases x
  case integer a => exact absurd rfl (h a)
  all_goals rfl

-- The operator carries out an operation on integers, and takes nothing else.
structure BinaryOperator.Computes (op : BinaryOperator) (operation : Operation)
    (exact : ℤ → ℤ → Except EvaluationFault ℚ) : Prop where
  integers (a b : Int64) :
    operation.Settles (exact a.toInt b.toInt) (op.apply (.integer a) (.integer b))
  left {x : Symbol} (y : Symbol) :
    (∀ a, x ≠ .integer a) → op.apply x y = .error (.type (.integerOperand op.word x))
  right (a : Int64) {y : Symbol} :
    (∀ b, y ≠ .integer b) → op.apply (.integer a) y = .error (.type (.integerOperand op.word y))

structure UnaryOperator.Computes (op : UnaryOperator) (operation : Operation)
    (exact : ℤ → Except EvaluationFault ℚ) : Prop where
  integers (a : Int64) : operation.Settles (exact a.toInt) (op.apply (.integer a))
  others {x : Symbol} :
    (∀ a, x ≠ .integer a) → op.apply x = .error (.type (.integerOperand op.word x))

theorem BinaryOperator.Computes.of_arithmetic {op : BinaryOperator} {operation : Operation}
    {exact : ℤ → ℤ → Except EvaluationFault ℚ} {f : Int64 → Int64 → Except EvaluationFault Int64}
    (h : op.apply = op.arithmetic f)
    (hf : ∀ a b, operation.Settles (exact a.toInt b.toInt) (Symbol.ofComputation (f a b))) :
    op.Computes operation exact := by
  constructor
  case integers =>
    intro a b
    rw [h]
    exact hf a b
  case left =>
    intro x y hx
    rw [h, arithmetic, Symbol.toInteger_of_ne hx]
    rfl
  case right =>
    intro a y hy
    rw [h, arithmetic, Symbol.toInteger_of_ne hy]
    rfl

-- The arithmetic of integers is exact or fails. Quotients and powers with a negative exponent are
-- fractions, which are truncated.
theorem arithmetic_exact :
    BinaryOperator.add.Computes .addition (fun a b => .ok (a + b : ℤ)) ∧
    BinaryOperator.sub.Computes .subtraction (fun a b => .ok (a - b : ℤ)) ∧
    BinaryOperator.mul.Computes .multiplication (fun a b => .ok (a * b : ℤ)) ∧
    BinaryOperator.div.Computes .division Arithmetic.exactQuotient ∧
    BinaryOperator.pow.Computes .exponentiation Arithmetic.exactPower ∧
    UnaryOperator.neg.Computes .negation (fun a => .ok (-a : ℤ)) := by
  have checked {operation : Operation} (n : ℤ) :
      operation.Settles (.ok n) (Symbol.ofComputation (operation.checked n)) :=
    Operation.settles_checked (truncate_intCast n)
  have others {x : Symbol} (hx : ∀ a, x ≠ .integer a) :
      UnaryOperator.neg.apply x =
        .error (.type (.integerOperand UnaryOperator.neg.word x)) := by
    rw [UnaryOperator.apply, Symbol.toInteger_of_ne hx]
    rfl
  exact ⟨.of_arithmetic rfl fun _ _ => checked _, .of_arithmetic rfl fun _ _ => checked _,
    .of_arithmetic rfl fun _ _ => checked _, .of_arithmetic rfl Operation.settles_divide,
    .of_arithmetic rfl Operation.settles_power, fun _ => checked _, others⟩

example : BinaryOperator.pow.apply (.integer (-2)) (.integer 63) = .ok (.integer Int64.minValue) :=
  rfl

end RpalMachine
