import RpalMachine.Json.Compact.Reader
import RpalMachine.Json.Compact.Text

namespace RpalMachine.Json

-- The codec of the command line. It writes no blanks.
def compact : Codec where
  read text :=
    match Compact.read? text with
    | some v => .ok v
    | none   => .error "not a document"
  write := Compact.text

end RpalMachine.Json
