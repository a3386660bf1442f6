import RpalMachine.Integer
import RpalMachine.Tree.Basic
import RpalMachine.Fault.Parse
import RpalMachine.Json.Codec

namespace RpalMachine.Tree

mutual

-- Leaves lose their children.
def toJson : Tree → Json.Value
  | node (.leaf (.identifier x)) _ => .object [("id", .string x)]
  | node (.leaf (.integer n)) _    => .object [("int", .number (.integer n.toInt))]
  | node (.leaf (.string s)) _     => .object [("str", .string s)]
  | node (.leaf l) _               => .string l.keyword
  | node (.form f) children        => .object [(f.keyword, .array (forestToJson children))]

def forestToJson : List Tree → List Json.Value
  | []      => []
  | t :: ts => t.toJson :: forestToJson ts

end

section

variable (codec : Json.Codec)

def leafOfNumber (number : Json.Number) : Except DocumentFault Tree :=
  match number with
  | .integer n =>
    match integer? n with
    | some a => .ok (leaf (.integer a))
    | none   => .error (.integerOutOfRange (codec.write (.number number)))
  | .float _ => .error (.integerOutOfRange (codec.write (.number number)))

mutual

-- How many children a node has is not looked at.
def ofJson : Json.Value → Except DocumentFault Tree
  | .string word =>
    match Leaf.ofWord? word with
    | some l => .ok (leaf l)
    | none   => .error (.unknownLeaf word)
  | .object [("id", .string x)]    => .ok (name x)
  | .object [("str", .string s)]   => .ok (leaf (.string s))
  | .object [("int", .number n)]   => leafOfNumber codec n
  | .object [(key, .array values)] =>
    match Form.ofKeyword? key with
    | some f => (forestOfJson values).map (form f)
    | none   => .error (.unknownForm key)
  | .object [(key, payload)] => .error (.payload key (codec.write payload))
  | value                    => .error (.notTree (codec.write value))

def forestOfJson : List Json.Value → Except DocumentFault (List Tree)
  | []      => .ok []
  | v :: vs => do
    let t ← ofJson v
    let ts ← forestOfJson vs
    return t :: ts

end

def jsonText (t : Tree) : String :=
  codec.write t.toJson

def ofDocument (text : String) : Except DocumentFault Tree :=
  match codec.read text with
  | .error reason => .error (.malformed reason)
  | .ok v         => ofJson codec v

def ofJsonText (text : String) : Except ParseFault Tree :=
  (ofDocument codec text).mapError fun fault => { cause := .document fault }

end

end RpalMachine.Tree
