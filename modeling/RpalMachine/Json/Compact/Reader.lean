import RpalMachine.Json.Codec
import RpalMachine.Json.Compact.Numeral

namespace RpalMachine.Json.Compact

-- Puts a member in its place; one with the same key gives way.
def insertMember (key : String) (value : Value) : List (String × Value) → List (String × Value)
  | [] => [(key, value)]
  | (k, v) :: rest =>
    if key < k then (key, value) :: (k, v) :: rest
    else if key = k then (key, value) :: rest
    else (k, v) :: insertMember key value rest

-- The object with the given members, of which the last of each key counts.
def ofMembers (members : List (String × Value)) : Value :=
  .object (members.foldl (fun ms (key, value) => insertMember key value ms) [])

-- Takes something off the front of a text.
abbrev Reader :=
  StateT (List Char) Option

namespace Reader

def blanks : Reader Unit :=
  modify (·.dropWhile isBlank)

def next : Reader Char := do
  match ← get with
  | []      => failure
  | c :: cs => set cs; return c

def expect (c : Char) : Reader Unit := do
  guard ((← next) = c)

-- The rest of a word whose meaning is known from its first character.
def word (rest : List Char) (v : α) : Reader α := do
  rest.forM expect
  return v

def digitOf? (c : Char) : Option Nat :=
  if '0' ≤ c ∧ c ≤ '9' then some (c.toNat - 48) else none

def hexDigitOf? (c : Char) : Option Nat :=
  if '0' ≤ c ∧ c ≤ '9' then some (c.toNat - 48)
  else if 'a' ≤ c ∧ c ≤ 'f' then some (c.toNat - 87)
  else if 'A' ≤ c ∧ c ≤ 'F' then some (c.toNat - 55)
  else none

def hex4? (a b c d : Char) : Option Nat := do
  return ((← hexDigitOf? a) * 16 + (← hexDigitOf? b)) * 256 +
    (← hexDigitOf? c) * 16 + (← hexDigitOf? d)

-- The character of a one-letter escape.
def escaped? : Char → Option Char
  | '"'  => some '"'
  | '\\' => some '\\'
  | '/'  => some '/'
  | 'b'  => some '\x08'
  | 'f'  => some '\x0c'
  | 'n'  => some '\n'
  | 'r'  => some '\r'
  | 't'  => some '\t'
  | _    => none

-- The contents of a string up to its closing quote, and what follows. The two halves of a surrogate
-- pair must come together.
def stringBody : List Char → Option (List Char × List Char)
  | [] => none
  | '"' :: cs => some ([], cs)
  | '\\' :: 'u' :: a :: b :: c :: d :: cs => do
    let high ← hex4? a b c d
    if high < 0xD800 ∨ 0xDFFF < high then
      let (body, rest) ← stringBody cs
      return (Char.ofNat high :: body, rest)
    else if 0xDC00 ≤ high then
      none
    else match cs with
      | '\\' :: 'u' :: a :: b :: c :: d :: cs => do
        let low ← hex4? a b c d
        guard (0xDC00 ≤ low ∧ low ≤ 0xDFFF)
        let (body, rest) ← stringBody cs
        return (Char.ofNat ((high - 0xD800) * 0x400 + (low - 0xDC00) + 0x10000) :: body, rest)
      | _ => none
  | '\\' :: c :: cs => do
    let c ← escaped? c
    let (body, rest) ← stringBody cs
    return (c :: body, rest)
  | c :: cs => do
    guard (c ≠ '\\' ∧ 0x20 ≤ c.toNat)
    let (body, rest) ← stringBody cs
    return (c :: body, rest)

-- A string whose opening quote has been taken.
def string : Reader String := fun cs => do
  let (body, rest) ← stringBody cs
  return (String.ofList body, rest)

def digits : Reader (List Nat) := fun cs =>
  some ((cs.takeWhile (digitOf? · |>.isSome)).filterMap digitOf?,
    cs.dropWhile (digitOf? · |>.isSome))

def digits1 : Reader (List Nat) := do
  let ds ← digits
  guard (ds ≠ [])
  return ds

-- Whether the text goes on with one of the given characters, which is then taken.
def skip? (cs : List Char) : Reader Bool := do
  match ← get with
  | c :: rest => if c ∈ cs then set rest; return true else return false
  | []        => return false

def exponent : Reader Int := do
  let negative ← do
    if ← skip? ['-'] then pure true else (do discard (skip? ['+']); pure false)
  let ds ← digits1
  let n : Nat := ds.foldl (fun n d => 10 * n + d) 0
  return if negative then -n else n

-- A number whose sign and first digit have been taken.
def numeral (negative : Bool) (first : Nat) : Reader Numeral := do
  let rest ← digits
  guard (first ≠ 0 ∨ rest = [])
  let fraction ← do if ← skip? ['.'] then digits1 else pure []
  let exponent ← do if ← skip? ['e', 'E'] then some <$> exponent else pure none
  return { negative, whole := first :: rest, fraction, exponent }

def number (negative : Bool) (c : Char) : Reader Value := do
  let first ← digitOf? c
  let n ← numeral negative first
  .number <$> n.value?

-- A value other than an array or an object, by its first character.
def scalar : Char → Reader Value
  | 'n' => word ['u', 'l', 'l'] .null
  | 't' => word ['r', 'u', 'e'] (.bool true)
  | 'f' => word ['a', 'l', 's', 'e'] (.bool false)
  | '"' => .string <$> string
  | '-' => do number true (← next)
  | c   => number false c

-- At least one item, with commas between them and the closing mark after them.
def items (item : Reader α) (close : Char) : Nat → Reader (List α)
  | 0 => failure
  | n + 1 => do
    let x ← item
    blanks
    let c ← next
    if c = ',' then return x :: (← items item close n)
    else if c = close then return [x]
    else failure

-- What stands between an opening mark that has been taken and its closing mark.
def listing (item : Reader α) (close : Char) : Reader (List α) := do
  blanks
  if ← skip? [close] then return []
  else items item close (← get).length

def member (value : Reader Value) : Reader (String × Value) := do
  blanks
  expect '"'
  let key ← string
  blanks
  expect ':'
  return (key, ← value)

-- A value with at most `nesting` arrays and objects around any part of it.
def value : (nesting : Nat) → Reader Value
  | 0 => do blanks; scalar (← next)
  | nesting + 1 => do
    blanks
    match ← next with
    | '[' => .array <$> listing (value nesting) ']'
    | '\x7b' => ofMembers <$> listing (member (value nesting)) '\x7d'
    | c   => scalar c

def document : Reader Value := do
  let v ← value maxNesting
  blanks
  guard ((← get) = [])
  return v

end Reader

-- A text is refused when it is not a document, when a number in it is beyond all doubles, or when
-- it is nested too deep.
def read? (text : String) : Option Value :=
  (Reader.document.run text.toList).map (·.1)

end RpalMachine.Json.Compact
