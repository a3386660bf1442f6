import RpalMachine.Json.Value
import RpalMachine.Json.Compact.Shortest

namespace RpalMachine.Json.Compact

def hexDigit (n : Nat) : Char :=
  "0123456789abcdef".toList.getD n '0'

-- How a character is written inside a string.
def escape (c : Char) : List Char :=
  if c = '"' then ['\\', '"']
  else if c = '\\' then ['\\', '\\']
  else if c = '\x08' then ['\\', 'b']
  else if c = '\x0c' then ['\\', 'f']
  else if c = '\n' then ['\\', 'n']
  else if c = '\r' then ['\\', 'r']
  else if c = '\t' then ['\\', 't']
  else if c.toNat < 0x20 then
    ['\\', 'u', '0', '0', hexDigit (c.toNat / 16), hexDigit (c.toNat % 16)]
  else [c]

def quote (s : String) : String :=
  String.ofList ('"' :: s.toList.flatMap escape ++ ['"'])

-- The shortest digits that read back: positional from `10 ^ -5` to below `10 ^ 16`, where at least
-- one digit follows the point, and with an exponent that shows its sign elsewhere.
def floatText (x : Float) : String :=
  let ⟨m, k⟩ := Decimal.shortest (.ofFloat x)
  let digits := Nat.repr m
  let top := k + digits.length - 1
  (if x.toBits.toNat < Nat.pow 2 63 then "" else "-") ++
    if m = 0 then "0.0"
    else if 0 ≤ k ∧ top ≤ 15 then digits.pushn '0' k.toNat ++ ".0"
    else if 0 ≤ top ∧ top ≤ 15 then
      String.ofList (digits.toList.take (top.toNat + 1)) ++ "." ++
        String.ofList (digits.toList.drop (top.toNat + 1))
    else if -5 ≤ top ∧ top < 0 then "0.".pushn '0' (-top - 1).toNat ++ digits
    else
      String.ofList (digits.toList.take 1) ++ (if digits.length = 1 then "" else ".") ++
        String.ofList (digits.toList.drop 1) ++ "e" ++ (if top < 0 then "-" else "+") ++
        Nat.repr top.natAbs

def numberText : Number → String
  | .integer value => toString value
  | .float value   => floatText value

mutual

def text : Value → String
  | .null              => "null"
  | .bool true         => "true"
  | .bool false        => "false"
  | .number value      => numberText value
  | .string s          => quote s
  | .array []          => "[]"
  | .array (v :: vs)   => "[" ++ text v ++ elementsText vs ++ "]"
  | .object []         => "\x7b\x7d"
  | .object ((key, v) :: rest) => "\x7b" ++ quote key ++ ":" ++ text v ++ membersText rest ++ "\x7d"

-- The elements after the first.
def elementsText : List Value → String
  | []      => ""
  | v :: vs => "," ++ text v ++ elementsText vs

-- The members after the first.
def membersText : List (String × Value) → String
  | []               => ""
  | (key, v) :: rest => "," ++ quote key ++ ":" ++ text v ++ membersText rest

end

end RpalMachine.Json.Compact
