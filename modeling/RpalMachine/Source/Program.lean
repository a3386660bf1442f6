import RpalMachine.Source.Scan
import RpalMachine.Source.Phrase

namespace RpalMachine

-- The depth to which programs are read unless something else is asked for.
def defaultDepth : Nat :=
  64

-- All tokens must belong to the expression.
def Phrase.readAll (depth : Nat) (tokens : List Token) : Except Refusal Tree := do
  match ← (read depth depth .expression).run tokens with
  | (t, [])         => return t
  | (_, token :: _) => throw (.trailing token)

namespace ParseFault

def ofFailure (source : String) : Scan.Failure × Nat → ParseFault
  | (.unterminatedString, offset) => locate .unterminatedString source offset none
  | (.invalidCharacter c, offset) =>
    locate (.invalidCharacter offset) source offset (String.ofList [c])

def ofRefusal (source : String) (depth : Nat) : Refusal → ParseFault
  | .unexpected wanted [] => { cause := .endOfInput wanted }
  | .unexpected wanted (t :: _) =>
    locate (.unexpected wanted) source t.offset t.lexeme.text
  | .tooDeep rest =>
    locate (.tooDeep depth) source ((rest.head?.map Token.offset).getD source.utf8ByteSize) none
  | .outOfRange t => locate .integerOutOfRange source t.offset t.lexeme.text
  | .trailing t   => locate (.trailing t.offset) source t.offset t.lexeme.text

end ParseFault

def tokenize (source : String) : Except ParseFault (List Token) :=
  (Scan.tokens 0 source.toList).mapError (.ofFailure source)

-- Reads a program whose phrases are nested, and whose tree is high, at most to the given depth.
def Tree.ofSource (depth : Nat) (source : String) : Except ParseFault Tree := do
  match ← tokenize source with
  | []     => throw { cause := .emptyProgram }
  | tokens => (Phrase.readAll depth tokens).mapError (.ofRefusal source depth)

end RpalMachine
