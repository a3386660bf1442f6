namespace RpalMachine

-- The character that an escape stands for.
def escapeMeaning? : Char → Option Char
  | 'n'    => some '\n'
  | 't'    => some '\t'
  | '\\'   => some '\\'
  | '\x27' => some '\x27'
  | _      => none

def expandEscapes : List Char → List Char
  | [] => []
  | '\\' :: c :: cs =>
    match escapeMeaning? c with
    | some d => d :: expandEscapes cs
    | none   => '\\' :: c :: expandEscapes cs
  | c :: cs => c :: expandEscapes cs

end RpalMachine
