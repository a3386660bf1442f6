namespace RpalMachine.Snippet

def before : Nat :=
  20

def width : Nat :=
  100

def gap : List Char :=
  ['[', '.', '.', '.', ']']

-- How many characters end at a byte offset, unless it is past the end or inside a character.
def charsBefore? : (offset : Nat) → List Char → Option Nat
  | 0, _ => some 0
  | _ + 1, [] => none
  | n + 1, c :: cs =>
    if c.utf8Size ≤ n + 1 then (charsBefore? (n + 1 - c.utf8Size) cs).map (· + 1) else none

-- Keeps the snippet on one line.
def onOneLine (cs : List Char) : List Char :=
  cs.flatMap fun c => if c = '\n' then ['\\', 'n'] else if c = '\r' then [] else [c]

-- The index of the first character shown.
def start (offset : Nat) (text : List Char) : Nat :=
  (charsBefore? offset text).getD text.length - before

def window (offset : Nat) (text : List Char) : List Char :=
  (text.drop (start offset text)).take width

def around (offset : Nat) (text : List Char) : List Char :=
  let first := start offset text
  let shown := window offset text
  (if 0 < first then gap else []) ++ onOneLine shown ++
    if first + shown.length < text.length then gap else []

end RpalMachine.Snippet

namespace RpalMachine

-- The surroundings of a byte offset in a text.
def snippet (text : String) (offset : Nat) : String :=
  String.ofList (Snippet.around offset text.toList)

end RpalMachine
