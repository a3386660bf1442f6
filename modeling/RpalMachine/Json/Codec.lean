import RpalMachine.Json.Value

namespace RpalMachine.Json

-- Reads documents and writes them. One that is not read is refused for a reason, in words.
structure Codec where
  read : String → Except String Value
  write : Value → String

-- The blanks of documents.
def isBlank (c : Char) : Bool :=
  c == ' ' || c == '\n' || c == '\t' || c == '\r'

-- How many arrays and objects may be inside of each other in a document.
def maxNesting : Nat :=
  127

-- What programs rely on when they hand on documents and take them. Nothing is asked of documents
-- with floats in them, nor of the reasons for which documents are refused.
structure Codec.Lawful (codec : Codec) : Prop where
  -- What is written is read as it was, unless it is nested too deep.
  reads_back : ∀ {v}, v.Exact → v.nesting ≤ maxNesting → codec.read (codec.write v) = .ok v
  -- What is nested too deep is refused.
  nesting_le : ∀ {text v}, codec.read text = .ok v → v.nesting ≤ maxNesting
  -- After the blanks, the first character of a document tells which kind of value it is of.
  opensWith : ∀ {text v}, codec.read text = .ok v →
    ∃ c ∈ (text.toList.dropWhile isBlank).head?, v.opensWith c

end RpalMachine.Json
