import RpalMachine.Json.Value

namespace RpalMachine.Json.Compact

-- The parts of a written number, digits as numbers.
structure Numeral where
  negative : Bool
  whole : List Nat
  fraction : List Nat
  exponent : Option Int

namespace Numeral

-- Appends digits to a significand as long as it stays below `2 ^ 64`; also counts the digits that
-- were left over.
def absorb (significand : Nat) : List Nat → Nat × Nat
  | [] => (significand, 0)
  | d :: ds =>
    if 10 * significand + d < UInt64.size then absorb (10 * significand + d) ds
    else (significand, ds.length + 1)

def powerOfTen (k : Nat) : Float :=
  .ofScientific 1 false k

-- Divides by a power of ten in steps that a double can hold.
def divideByPowerOfTen (x : Float) (k : Nat) : Float :=
  if k ≤ 308 then x / powerOfTen k
  else if x == 0 then x
  else divideByPowerOfTen (x / powerOfTen 308) (k - 308)
termination_by k

-- A double near `significand * 10 ^ exponent`, unless it exceeds every double.
def scale? (significand : Nat) (exponent : Int) : Option Float :=
  let x := significand.toUInt64.toFloat
  if exponent < 0 then some (divideByPowerOfTen x exponent.natAbs)
  else if exponent ≤ 308 then
    let y := x * powerOfTen exponent.natAbs
    if y.isInf then none else some y
  else if x == 0 then some x
  else none

-- An integer that fits is exact, and zero keeps its sign only as a float.
def value? (n : Numeral) : Option Number :=
  let (whole, dropped) := absorb 0 n.whole
  if n.fraction = [] ∧ n.exponent = none ∧ dropped = 0 then
    if !n.negative then some (.integer whole)
    else if 0 < whole ∧ whole ≤ Nat.pow 2 63 then some (.integer (-whole))
    else some (.float (-whole.toUInt64.toFloat))
  else
    let (significand, unread) := absorb whole n.fraction
    let read := n.fraction.length - unread
    (scale? significand (dropped - read + n.exponent.getD 0)).map fun x =>
      .float (if n.negative then -x else x)

end Numeral

end RpalMachine.Json.Compact
