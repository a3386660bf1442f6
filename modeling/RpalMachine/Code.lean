import RpalMachine.Sugar

namespace RpalMachine

structure Numbering where
  nextLambda : Nat := 1
  nextBlock : Nat := 0
deriving DecidableEq, Repr

-- A computation that hands out numbers and keeps those it has used when it fails.
abbrev Numbered :=
  EStateM ShapeFault Numbering

namespace Numbered

def lambdaId : Numbered Nat :=
  modifyGet fun n => (n.nextLambda, { n with nextLambda := n.nextLambda + 1 })

def finish (code : List Symbol) : Numbered (Block Symbol) :=
  modifyGet fun n => (⟨n.nextBlock, code⟩, { n with nextBlock := n.nextBlock + 1 })

def lift (result : Except ShapeFault α) : Numbered α :=
  match result with
  | .ok a    => pure a
  | .error e => throw e

end Numbered

def Leaf.symbol? : Leaf → Option Symbol
  | identifier name => some (.identifier name)
  | integer value   => some (.integer value)
  | string text     => some (.string text)
  | truth value     => some (.truth value)
  | nil             => some .nil
  | dummy           => some .dummy
  | yStar           => some .yStar
  | unit            => none

-- The operation of a form that does nothing but combine the values of its children.
def Form.operation? : Form → (count : Nat) → Option Symbol
  | gamma, _     => some .gamma
  | tau, count   => some (.tau count)
  | unary op, _  => some (.unary op)
  | binary op, _ => some (.binary op)
  | _, _         => none

-- Why a form has no code of its own.
def Form.fault : Form → ShapeFault
  | lambda => .uncurried
  | comma  => .misplaced (.form comma)
  | equal  => .misplaced (.form equal)
  | f      => .sugar (.form f)

namespace Tree

def listedName : Tree → Except ShapeFault String
  | t => match t.name? with
    | some x => .ok x
    | none   => .error (.parameterList t.tag)

-- The names that a parameter binds.
def parameterNames : Tree → Except ShapeFault (List String)
  | node (.leaf (.identifier x)) _ => .ok [x]
  | node (.leaf .unit) _           => .ok []
  | node (.form .comma) names      => names.mapM listedName
  | t                              => .error (.parameter t.tag)

mutual

def code : Tree → Numbered (List Symbol)
  | node tag children => do
    .lift (checkArity tag children.length)
    match tag, children with
    | .leaf l, _ =>
      match l.symbol? with
      | some s => return [s]
      | none   => throw (.misplaced tag)
    | .form .lambda, [param, body] =>
      let params ← .lift param.parameterNames
      let id ← .lambdaId
      let body ← .finish (← code body)
      return [.lambda ⟨id, params, body, none⟩]
    | .form .conditional, [condition, yes, no] =>
      let yes ← .finish (← code yes)
      let no ← .finish (← code no)
      let test ← code condition
      return [.test test, .beta, .delta no, .delta yes]
    | .form f, children =>
      match f.operation? children.length with
      | some s => return (← forestCode children) ++ [s]
      | none   => throw f.fault

-- Numbers the trees from left to right; the last one runs first.
def forestCode : List Tree → Numbered (List Symbol)
  | [] => return []
  | t :: ts => do
    let first ← code t
    let rest ← forestCode ts
    return rest ++ first

end

def block (t : Tree) : Numbered (Block Symbol) := do
  .finish (← t.code)

-- The blocks of several trees that share their numbers. A tree that fails may have used some up.
def blocks (numbering : Numbering) : List Tree → List (Except ShapeFault (Block Symbol))
  | [] => []
  | t :: ts =>
    match t.block numbering with
    | .ok block numbering => .ok block :: blocks numbering ts
    | .error e numbering  => .error e :: blocks numbering ts

end Tree

end RpalMachine
