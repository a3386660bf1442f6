import RpalMachine.Integer
import RpalMachine.Fault.Basic

namespace RpalMachine

-- The integer of the given value, unless it is out of range.
def Operation.checked (operation : Operation) (n : Int) : Except EvaluationFault Int64 :=
  match integer? n with
  | some a => .ok a
  | none   => .error (.overflow operation)

namespace Arithmetic

def negate (a : Int64) : Except EvaluationFault Int64 :=
  Operation.negation.checked (-a.toInt)

-- Division truncates.
def divide (a b : Int64) : Except EvaluationFault Int64 :=
  if b.toInt = 0 then .error .divisionByZero
  else Operation.division.checked (a.toInt.tdiv b.toInt)

-- Negative exponents truncate like a division. A base other than -1, 0 and 1 leaves the range with
-- any exponent above 63.
def power (base exponent : Int64) : Except EvaluationFault Int64 :=
  let b := base.toInt
  let e := exponent.toInt
  if e = 0 ∨ b = 1 then .ok 1
  else if b = -1 then .ok (if e % 2 = 0 then 1 else -1)
  else if b = 0 then if 0 < e then .ok 0 else .error .powerOfZero
  else if e < 0 then .ok 0
  else if e ≤ 63 then Operation.exponentiation.checked (b.pow e.toNat)
  else .error (.overflow .exponentiation)

end Arithmetic

namespace Symbol

def toInteger (operator : String) : Symbol → Except Fault Int64
  | integer n => .ok n
  | x         => .error (.type (.integerOperand operator x))

def toTruth (operator : String) : Symbol → Except Fault Bool
  | truth b => .ok b
  | x       => .error (.type (.truthOperand operator x))

-- Values are compared by their printed form.
def printsAs (x y : Symbol) : Bool :=
  x.text == y.text

-- A tuple goes on with the elements of another tuple, or with a single value.
def augment : Symbol → Symbol → Except Fault Symbol
  | tuple xs, tuple ys => .ok (tuple (xs ++ ys))
  | tuple xs, y        => .ok (tuple (xs ++ [y]))
  | x, _               => .error (.type (.tupleOnLeft x))

end Symbol

def Fault.ofEvaluation (result : Except EvaluationFault α) : Except Fault α :=
  result.mapError .evaluation

namespace UnaryOperator

def apply (op : UnaryOperator) (x : Symbol) : Except Fault Symbol :=
  match op with
  | neg => do
    let a ← x.toInteger op.word
    let n ← Fault.ofEvaluation (Arithmetic.negate a)
    return .integer n
  | not => do
    let b ← x.toTruth op.word
    return .truth !b

end UnaryOperator

namespace BinaryOperator

def arithmetic (op : BinaryOperator) (f : Int64 → Int64 → Except EvaluationFault Int64)
    (x y : Symbol) : Except Fault Symbol := do
  let a ← x.toInteger op.word
  let b ← y.toInteger op.word
  let n ← Fault.ofEvaluation (f a b)
  return .integer n

def comparison (op : BinaryOperator) (f : Int64 → Int64 → Bool) (x y : Symbol) :
    Except Fault Symbol := do
  let a ← x.toInteger op.word
  let b ← y.toInteger op.word
  return .truth (f a b)

def connective (op : BinaryOperator) (f : Bool → Bool → Bool) (x y : Symbol) :
    Except Fault Symbol := do
  let a ← x.toTruth op.word
  let b ← y.toTruth op.word
  return .truth (f a b)

-- The operands are looked at from left to right.
def apply (op : BinaryOperator) (x y : Symbol) : Except Fault Symbol :=
  match op with
  | add => op.arithmetic (fun a b => Operation.addition.checked (a.toInt + b.toInt)) x y
  | sub => op.arithmetic (fun a b => Operation.subtraction.checked (a.toInt - b.toInt)) x y
  | mul => op.arithmetic (fun a b => Operation.multiplication.checked (a.toInt * b.toInt)) x y
  | div => op.arithmetic Arithmetic.divide x y
  | pow => op.arithmetic Arithmetic.power x y
  | and => op.connective (· && ·) x y
  | or  => op.connective (· || ·) x y
  | lt  => op.comparison (fun a b => a.toInt < b.toInt) x y
  | le  => op.comparison (fun a b => a.toInt ≤ b.toInt) x y
  | gt  => op.comparison (fun a b => b.toInt < a.toInt) x y
  | ge  => op.comparison (fun a b => b.toInt ≤ a.toInt) x y
  | eq  => .ok (.truth (x.printsAs y))
  | ne  => .ok (.truth !(x.printsAs y))
  | aug => x.augment y

end BinaryOperator

end RpalMachine
