namespace RpalMachine.Json.Compact.Decimal

-- The number `digits * 10 ^ exponent`.
structure Scaled where
  digits : Nat
  exponent : Int
deriving DecidableEq, Repr

-- The number `mantissa * 2 ^ exponent`.
structure Dyadic where
  mantissa : Nat
  exponent : Int
deriving DecidableEq, Repr

namespace Dyadic

-- The magnitude of a finite double; its sign is left out.
def ofFloat (x : Float) : Dyadic :=
  let bits : Nat := x.toBits.toNat
  let field : Nat := bits / Nat.pow 2 52 % Nat.pow 2 11
  let fraction : Nat := bits % Nat.pow 2 52
  if field = 0 then ⟨fraction, -1074⟩ else ⟨Nat.pow 2 52 + fraction, (field : Int) - 1075⟩

-- Whether the format has numbers twice as dense below this one as above it.
def isBoundary (d : Dyadic) : Bool :=
  d.mantissa == Nat.pow 2 52 && d.exponent != -1074

end Dyadic

-- Both sides of a comparison of `a * 10 ^ k` with `b * 2 ^ q` as natural numbers.
def align (a : Nat) (k : Int) (b : Nat) (q : Int) : Nat × Nat :=
  (a * Nat.pow 10 k.toNat * Nat.pow 2 (-q).toNat, b * Nat.pow 2 q.toNat * Nat.pow 10 (-k).toNat)

-- The largest multiple of `10 ^ k` that is at most `d`, counted in units of `10 ^ k`.
def below (d : Dyadic) (k : Int) : Nat :=
  let (unit, value) := align 1 k d.mantissa d.exponent
  value / unit

-- Whether `a * 10 ^ k` is read back as `d`, a tie going to the even mantissa.
def identifies (d : Dyadic) (a : Nat) (k : Int) : Bool :=
  let q := d.exponent - 2
  let (low, lowEnd) := align a k (4 * d.mantissa - if d.isBoundary then 1 else 2) q
  let (high, highEnd) := align a k (4 * d.mantissa + 2) q
  if d.mantissa % 2 = 0 then lowEnd ≤ low && high ≤ highEnd else lowEnd < low && high < highEnd

-- The exponent of the leading decimal digit of a number other than zero.
def leading (d : Dyadic) : Int :=
  go 640 309
where
  go : Nat → Int → Int
    | 0, k => k
    | n + 1, k => if below d k = 0 then go n (k - 1) else k

-- The nearer of the two neighbours of `d` on the grid of `10 ^ k` that identify `d`; of two that
-- are equally near, the even one.
def onGrid? (d : Dyadic) (k : Int) : Option Scaled :=
  let low := below d k
  let (middle, value) := align (2 * low + 1) k (2 * d.mantissa) d.exponent
  match identifies d low k && low != 0, identifies d (low + 1) k with
  | true, true =>
    if value < middle || (value == middle && low % 2 == 0) then some ⟨low, k⟩
    else some ⟨low + 1, k⟩
  | true, false  => some ⟨low, k⟩
  | false, true  => some ⟨low + 1, k⟩
  | false, false => none

-- Drops the zeros at the end of the digits.
def Scaled.trim (s : Scaled) : Scaled :=
  go s.digits s.digits s.exponent
where
  go : Nat → Nat → Int → Scaled
    | 0, m, k => ⟨m, k⟩
    | n + 1, m, k => if m % 10 = 0 ∧ m ≠ 0 then go n (m / 10) (k + 1) else ⟨m, k⟩

-- The shortest decimal that identifies `d`; seventeen digits are always enough.
def shortest (d : Dyadic) : Scaled :=
  if d.mantissa = 0 then ⟨0, 0⟩ else
    let top := leading d
    match (List.range 17).findSome? fun (n : Nat) => onGrid? d (top - n) with
    | some s => s.trim
    | none   => ⟨below d (top - 16), top - 16⟩

end RpalMachine.Json.Compact.Decimal
