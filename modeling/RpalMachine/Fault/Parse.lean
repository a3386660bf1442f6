import RpalMachine.Text.Snippet

namespace RpalMachine

-- What a program needed to go on with.
inductive Wanted
  | exactly (text : String)
  | identifier
  | operand
deriving DecidableEq, Repr

def Wanted.text : Wanted → String
  | exactly text => "'" ++ text ++ "'"
  | identifier   => "an identifier"
  | operand      => "an operand"

inductive ParseFault.Kind
  | invalidToken
  | invalidSyntax
  | incomplete
  | tooDeeplyNested
  | trailingContent
  | implementationLimit
deriving DecidableEq, Repr

-- Why a document does not hold a tree. What was found in the place of a tree is kept as a document.
inductive DocumentFault
  | malformed (reason : String)
  | unknownLeaf (word : String)
  | unknownForm (word : String)
  | integerOutOfRange (found : String)
  | payload (key found : String)
  | notTree (found : String)
deriving DecidableEq, Repr

def DocumentFault.text : DocumentFault → String
  | malformed reason        => "Invalid JSON: " ++ reason
  | unknownLeaf word        => "Unknown leaf '" ++ word ++ "'"
  | unknownForm word        => "Unknown node tag '" ++ word ++ "'"
  | integerOutOfRange found => "Integer out of range: " ++ found
  | payload key found       => "Invalid payload for '" ++ key ++ "': " ++ found
  | notTree found           => "Expected a node object or leaf string, found " ++ found

inductive ParseFault.Cause
  | invalidCharacter (offset : Nat)
  | unterminatedString
  | emptyProgram
  | unexpected (wanted : Wanted)
  | endOfInput (wanted : Wanted)
  | tooDeep (limit : Nat)
  | integerOutOfRange
  | trailing (offset : Nat)
  | document (fault : DocumentFault)

namespace ParseFault.Cause

def kind : Cause → Kind
  | invalidCharacter _ => .invalidToken
  | unterminatedString => .incomplete
  | emptyProgram       => .incomplete
  | unexpected _       => .invalidSyntax
  | endOfInput _       => .incomplete
  | tooDeep _          => .tooDeeplyNested
  | integerOutOfRange  => .implementationLimit
  | trailing _         => .trailingContent
  | document _         => .invalidSyntax

def text : Cause → String
  | invalidCharacter offset => "Invalid character at position " ++ toString offset
  | unterminatedString      => "Unterminated string literal"
  | emptyProgram            => "Empty program"
  | unexpected wanted       => "Expected " ++ wanted.text
  | endOfInput wanted       => "Expected " ++ wanted.text ++ ", found end of input"
  | tooDeep limit           => "Expression too deeply nested (max depth: " ++ toString limit ++ ")"
  | integerOutOfRange       => "Integer literal out of range"
  | trailing offset         => "Unexpected remaining input at position " ++ toString offset
  | document fault          => fault.text

end ParseFault.Cause

structure ParseFault where
  cause : ParseFault.Cause
  -- The offending part of the text.
  found : Option String := none
  -- The text around it.
  context : Option String := none

namespace ParseFault

-- The lines of a report on a text that was not read.
def report (message : String) (found context : Option String) : String :=
  "ParseError: " ++ message ++ line "Found" found ++ line "Context" context
where
  line (title : String) : Option String → String
    | none      => ""
    | some text => "\n" ++ title ++ ": " ++ text

def message (fault : ParseFault) : String :=
  report fault.cause.text fault.found fault.context

-- A fault at a byte offset of a text.
def locate (cause : Cause) (source : String) (offset : Nat) (found : Option String) :
    ParseFault where
  cause   := cause
  found   := found
  context := snippet source offset

end ParseFault

end RpalMachine
