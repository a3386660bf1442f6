import RpalMachine.Fault.Basic

namespace RpalMachine.Tree

abbrev lambda (param body : Tree) : Tree :=
  form .lambda [param, body]

abbrev apply (fn arg : Tree) : Tree :=
  form .gamma [fn, arg]

abbrev equal (name value : Tree) : Tree :=
  form .equal [name, value]

-- Parameters followed by a body, as lambdas within each other.
def curried : Tree → List Tree → Tree
  | body, []       => body
  | param, t :: ts => lambda param (curried t ts)

def checkArity (tag : Tag) (count : Nat) : Except ShapeFault Unit :=
  if tag.arity.accepts count then .ok () else .error (.childCount tag count)

-- The two sides of a definition that `user` is made of.
def sides (user : Form) : Tree → Except ShapeFault (Tree × Tree)
  | node (.form .equal) [name, value] => .ok (name, value)
  | t                                 => .error (.notDefinition user t.tag)

-- The sides of definitions that hold together, each of a single name.
def branches : List Tree → Except ShapeFault (List (Tree × Tree))
  | [] => .ok []
  | t :: ts => do
    let (name, value) ← sides .simultaneous t
    if name.name?.isNone then throw (.compoundName name.tag)
    return (name, value) :: (← branches ts)

-- The meaning of a form whose children are free of sugar and of a legal number.
def reduce : Form → List Tree → Except ShapeFault Tree
  | .letIn, [definition, body] => do
    let (name, value) ← sides .letIn definition
    return apply (lambda name body) value
  | .whereIn, [body, definition] => do
    let (name, value) ← sides .whereIn definition
    return apply (lambda name body) value
  | .function, name :: param :: rest => return equal name (curried param rest)
  | .lambda, param :: rest => return curried param rest
  | .within, [inner, outer] => do
    let (innerName, innerValue) ← sides .within inner
    let (outerName, outerValue) ← sides .within outer
    return equal outerName (apply (lambda innerName outerValue) innerValue)
  | .infixCall, [left, fn, right] => return apply (apply fn left) right
  | .simultaneous, definitions => do
    let parts ← branches definitions
    return equal (form .comma (parts.map (·.1))) (form .tau (parts.map (·.2)))
  | .recursive, [definition] => do
    let (name, value) ← sides .recursive definition
    return equal name (apply (leaf .yStar) (lambda name value))
  | f, children => return form f children

mutual

-- A node is checked before its children and reduced after them.
def desugar : Tree → Except ShapeFault Tree
  | node tag children => do
    checkArity tag children.length
    let children ← desugarForest children
    match tag with
    | .leaf l => return node (.leaf l) children
    | .form f => reduce f children

def desugarForest : List Tree → Except ShapeFault (List Tree)
  | []      => return []
  | t :: ts => do
    let t ← desugar t
    let ts ← desugarForest ts
    return t :: ts

end

end RpalMachine.Tree
