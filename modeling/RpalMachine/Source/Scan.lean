import RpalMachine.Source.Token

namespace RpalMachine.Scan

def isBlank (c : Char) : Bool :=
  c == ' ' || c == '\t' || c == '\r' || c == '\n'

def isLineEnd (c : Char) : Bool :=
  c == '\r' || c == '\n'

def isWordChar (c : Char) : Bool :=
  c.isAlphanum || c == '_'

def isQuote (c : Char) : Bool :=
  c == '\x27'

def isOperatorChar (c : Char) : Bool :=
  c ∈ ['+', '-', '*', '<', '>', '&', '.', '@', '/', ':', '=', '~', '|', '$', '!', '#', '%', '^',
    '_', '[', ']', '\x7b', '\x7d', '"', '\x60', '?']

def isPunctuation (c : Char) : Bool :=
  c ∈ ['(', ')', ',', ';']

-- How many bytes a piece of text takes.
def size (cs : List Char) : Nat :=
  cs.foldr (fun c n => c.utf8Size + n) 0

-- Whether the line ends as lines do, and not with a carriage return alone.
def lineEnds : List Char → Bool
  | [] => true
  | c :: cs =>
    if c = '\n' then true
    else if c = '\r' then cs.head? = some '\n'
    else lineEnds cs

def opensComment : List Char → Bool
  | '/' :: '/' :: cs => lineEnds cs
  | _                => false

-- Drops blanks and comments from the text at a byte offset.
def skipLayout (inComment : Bool) (offset : Nat) : List Char → Nat × List Char
  | [] => (offset, [])
  | c :: cs =>
    if inComment then skipLayout (!isLineEnd c) (offset + c.utf8Size) cs
    else if isBlank c then skipLayout false (offset + c.utf8Size) cs
    else if opensComment (c :: cs) then skipLayout true (offset + c.utf8Size) cs
    else (offset, c :: cs)

-- The contents of a string up to its closing quote, and what follows. A character after a backslash
-- never closes the string.
def stringBody : List Char → Option (List Char × List Char)
  | [] => none
  | '\\' :: c :: cs => (stringBody cs).map fun (body, rest) => ('\\' :: c :: body, rest)
  | c :: cs =>
    if isQuote c then some ([], cs)
    else (stringBody cs).map fun (body, rest) => (c :: body, rest)

inductive Failure
  | unterminatedString
  | invalidCharacter (c : Char)
deriving DecidableEq, Repr

-- The longest lexeme at the front of a text that starts with the given character.
def lexeme (c : Char) (cs : List Char) : Except Failure (Lexeme × List Char) :=
  if c.isAlpha then
    .ok (.ofWord (String.ofList (c :: cs.takeWhile isWordChar)), cs.dropWhile isWordChar)
  else if c.isDigit then
    .ok (.integer (String.ofList (c :: cs.takeWhile Char.isDigit)), cs.dropWhile Char.isDigit)
  else if isQuote c then
    match stringBody cs with
    | some (body, rest) => .ok (.string (String.ofList body), rest)
    | none              => .error .unterminatedString
  else if isOperatorChar c then
    .ok (.operator (String.ofList (c :: cs.takeWhile isOperatorChar)), cs.dropWhile isOperatorChar)
  else if isPunctuation c then
    .ok (.punctuation (String.ofList [c]), cs)
  else
    .error (.invalidCharacter c)

-- The tokens of a text at a byte offset; the first failure is reported with its place. There are at
-- most as many tokens as characters.
def tokens (offset : Nat) (text : List Char) : Except (Failure × Nat) (List Token) :=
  go text.length offset text
where
  go : Nat → Nat → List Char → Except (Failure × Nat) (List Token)
    | 0, _, _ => .ok []
    | n + 1, offset, text =>
      match skipLayout false offset text with
      | (_, []) => .ok []
      | (start, c :: cs) =>
        match lexeme c cs with
        | .error failure => .error (failure, start)
        | .ok (l, rest) => do
          let following ← go n (start + size l.spelling) rest
          return ⟨l, start⟩ :: following

end RpalMachine.Scan
