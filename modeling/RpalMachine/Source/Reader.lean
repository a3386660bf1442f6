import RpalMachine.Fault.Parse
import RpalMachine.Source.Token
import RpalMachine.Tree.Basic

namespace RpalMachine

inductive Refusal
  | unexpected (wanted : Wanted) (rest : List Token)
  | tooDeep (rest : List Token)
  | outOfRange (literal : Token)
  | trailing (token : Token)

abbrev Reader :=
  StateT (List Token) (Except Refusal)

namespace Reader

def refuse (wanted : Wanted) : Reader α := do
  throw (.unexpected wanted (← get))

def tooDeep : Reader α := do
  throw (.tooDeep (← get))

-- Takes a lexeme if it comes next.
def skip? (l : Lexeme) : Reader Bool := do
  match ← get with
  | t :: rest => if t.lexeme = l then set rest; return true else return false
  | []        => return false

def expect (l : Lexeme) : Reader Unit := do
  if !(← skip? l) then refuse (.exactly l.text)

def identifier : Reader Tree := do
  match ← get with
  | ⟨.identifier x, _⟩ :: rest => set rest; return .name x
  | _ => refuse .identifier

-- Takes the next lexeme if it has a meaning.
def takeIf (meaning? : Lexeme → Option α) : Reader (Option α) := do
  match ← get with
  | []        => return none
  | t :: rest =>
    match meaning? t.lexeme with
    | some a => set rest; return some a
    | none   => return none

-- Repeats a step for as long as it gets further. Every step takes a token, so that there are no
-- more steps than tokens.
def iterate (step : α → Reader (Option α)) (a : α) : Reader α := do
  go ((← get).length + 1) a
where
  go : Nat → α → Reader α
    | 0, a => return a
    | n + 1, a => do
      match ← step a with
      | some a => go n a
      | none   => return a

-- Collects items until there are no more. Every item takes a token.
def many (item? : Reader (Option α)) : Reader (List α) := do
  go ((← get).length + 1)
where
  go : Nat → Reader (List α)
    | 0 => return []
    | n + 1 => do
      match ← item? with
      | some a => return a :: (← go n)
      | none   => return []

-- The items that follow a mark each.
def manyAfter (mark : Lexeme) (item : Reader α) : Reader (List α) :=
  many do if ← skip? mark then some <$> item else return none

-- The items before a mark, which is taken too.
def manyUntil (mark : Lexeme) (item : Reader α) : Reader (List α) :=
  many do if ← skip? mark then return none else some <$> item

end Reader

end RpalMachine
