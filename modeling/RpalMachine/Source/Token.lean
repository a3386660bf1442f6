namespace RpalMachine

inductive Lexeme
  | identifier (name : String)
  | keyword (word : String)
  | integer (digits : String)
  | string (body : String)
  | operator (mark : String)
  | punctuation (mark : String)
deriving DecidableEq, Repr

namespace Lexeme

-- A string is given without its quotes.
def text : Lexeme → String
  | identifier s | keyword s | integer s | string s | operator s | punctuation s => s

-- The characters that stand for the lexeme in a program.
def spelling : Lexeme → List Char
  | string body => '\x27' :: body.toList ++ ['\x27']
  | l           => l.text.toList

-- The words that cannot be names.
def keywords : List String :=
  ["let", "in", "fn", "where", "aug", "or", "not", "gr", "ge", "ls", "le", "eq", "ne", "true",
    "false", "nil", "dummy", "within", "and", "rec"]

def ofWord (word : String) : Lexeme :=
  if word ∈ keywords then keyword word else identifier word

end Lexeme

-- A lexeme and the byte offset at which it starts.
structure Token where
  lexeme : Lexeme
  offset : Nat
deriving DecidableEq, Repr

end RpalMachine
