import RpalMachine.Proofs.Core

namespace RpalMachine

-- What is in scope, innermost first. Environments are numbered in the order they are made in.
structure Scope (α : Type) where
  number : Nat
  bindings : List (String × α)

structure Closure (α : Type) where
  id : Nat
  params : List String
  label : Nat
  body : Core
  scope : Scope α

inductive Value
  | integer (value : Int64)
  | string (text : String)
  | truth (value : Bool)
  | dummy
  | error
  | yStar
  | builtin (fn : Builtin)
  | tuple (elements : List Value)
  | closure (fn : Closure Value)
  | eta (fn : Closure Value)
  | partialCall (fn : Builtin) (args : List Value)

-- A closure as the machine has it: with its body as code, and the number of its environment.
def Closure.abstraction (fn : Closure α) : Abstraction Symbol :=
  ⟨fn.id, fn.params, ⟨fn.label, fn.body.code⟩, fn.scope.number⟩

namespace Value

mutual

def symbol : Value → Symbol
  | integer n           => .integer n
  | string s            => .string s
  | truth b             => .truth b
  | dummy               => .dummy
  | error               => .error
  | yStar               => .yStar
  | builtin fn          => .identifier fn.name
  | tuple vs            => .tuple (symbols vs)
  | closure fn          => .lambda fn.abstraction
  | eta fn              => .eta fn.abstraction
  | partialCall fn args => .partialCall fn (symbols args)

def symbols : List Value → List Symbol
  | []      => []
  | v :: vs => symbol v :: symbols vs

end

-- The value of a symbol that is neither a tuple nor a function.
def ofScalar : Symbol → Value
  | .integer n => .integer n
  | .string s  => .string s
  | .truth b   => .truth b
  | .dummy     => .dummy
  | _          => .error

def ofConstant : Constant → Value
  | .integer n => .integer n
  | .string s  => .string s
  | .truth b   => .truth b
  | .nil       => .tuple []
  | .dummy     => .dummy
  | .yStar     => .yStar

def unary (op : UnaryOperator) (v : Value) : Except Fault Value :=
  (op.apply v.symbol).map ofScalar

-- Only a tuple can have other values in it.
def binary (op : BinaryOperator) (v w : Value) : Except Fault Value :=
  match op, v, w with
  | .aug, .tuple vs, .tuple ws => .ok (.tuple (vs ++ ws))
  | .aug, .tuple vs, w         => .ok (.tuple (vs ++ [w]))
  | op, v, w                   => (op.apply v.symbol w.symbol).map ofScalar

-- Elements are counted from 1.
def select (elements : List Value) : Value → Except Fault Value
  | .integer i =>
    if 1 ≤ i.toInt then
      match elements[i.toInt.toNat - 1]? with
      | some v => .ok v
      | none   => .error (.count (.tupleIndex elements.length i))
    else .error (.count (.tupleIndex elements.length i))
  | v => .error (.type (.tupleIndex v.symbol))

def tie : Value → Except Fault Value
  | .closure fn => .ok (.eta fn)
  | v           => .error (.application (.fixedPoint v.symbol))

-- What the parameters of a lambda are bound to.
def bind (arg : Value) (params : List String) : Except Fault (List (String × Value)) :=
  match params, arg with
  | [], _    => .ok []
  | [x], arg => .ok [(x, arg)]
  | names, .tuple vs =>
    if vs.length = names.length then .ok (Frame.bindAll names vs)
    else .error (.count (.tupleParameter names vs.length))
  | names, _ => .error (.count (.tupleParameter names 1))

end Value

-- What evaluation leaves behind: how many environments there are, and what was put out.
structure World where
  scopes : Nat
  sink : Sink

-- A computation that may not end, and that keeps the world when it ends with a fault.
abbrev Evaluation :=
  ExceptT Fault (StateT World Option)

namespace Evaluation

@[simp]
theorem pure_apply (a : α) (w : World) : (pure a : Evaluation α) w = some (.ok a, w) :=
  rfl

@[simp]
theorem throw_apply (e : Fault) (w : World) :
    (throw e : Evaluation α) w = some (.error e, w) :=
  rfl

theorem bind_apply (x : Evaluation α) (f : α → Evaluation β) (w : World) :
    (x >>= f) w = match x w with
      | some (.ok a, w')    => f a w'
      | some (.error e, w') => some (.error e, w')
      | none                => none := by
  simp only [bind, ExceptT.bind, ExceptT.mk, StateT.bind]
  cases x w
  case none => rfl
  case some r =>
    obtain ⟨e | a, w'⟩ := r <;> rfl

theorem bind_eq_ok {x : Evaluation α} {f : α → Evaluation β} {w w' : World} {b : β} :
    (x >>= f) w = some (.ok b, w') ↔
      ∃ a w₁, x w = some (.ok a, w₁) ∧ f a w₁ = some (.ok b, w') := by
  rw [bind_apply]
  match x w with
  | some (.ok a, w₁) =>
    constructor
    case mp  => exact fun h => ⟨a, w₁, rfl, h⟩
    case mpr => rintro ⟨_, _, ⟨⟩, h⟩; exact h
  | some (.error e, _) => simp
  | none               => simp

def lift (result : Except Fault α) : Evaluation α :=
  fun w => some (result, w)

def endless : Evaluation α :=
  fun _ => none

-- An environment in which some names have been bound within another one.
def extend (scope : Scope Value) (bindings : List (String × Value)) : Evaluation (Scope Value) :=
  fun w => some (.ok ⟨w.scopes, bindings ++ scope.bindings⟩, { w with scopes := w.scopes + 1 })

def onSink (action : EStateM Fault Sink α) : Evaluation α := fun w =>
  match action w.sink with
  | .ok a sink    => some (.ok a, { w with sink })
  | .error e sink => some (.error e, { w with sink })

-- The value of a name: what it is bound to innermost, or else the function it names.
def lookup (scope : Scope Value) (x : String) : Evaluation Value :=
  match scope.bindings.lookup x with
  | some v => return v
  | none   =>
    match Builtin.ofName? x with
    | some fn => return .builtin fn
    | none    => throw (.unbound x)

-- A function of several arguments gets one with each application.
def supply (fn : Builtin) (args : List Value) : Evaluation Value :=
  if args.length < fn.arity then return .partialCall fn args
  else do return .ofScalar (← onSink (fn.call (Value.symbols args)))

end Evaluation

open Evaluation

namespace Core

mutual

-- The value of a tree in a scope, given how functions are applied.
def eval (apply : Value → Value → Evaluation Value) (scope : Scope Value) :
    Core → Evaluation Value
  | name x     => lookup scope x
  | constant c => return .ofConstant c
  | lambda id params label body => return .closure ⟨id, params, label, body, scope⟩
  | .apply fn arg => do
    let arg ← eval apply scope arg
    let fn ← eval apply scope fn
    apply fn arg
  | tuple elements => return .tuple (← forestEval apply scope elements)
  | unary op operand => do
    let v ← eval apply scope operand
    lift (v.unary op)
  | binary op left right => do
    let w ← eval apply scope right
    let v ← eval apply scope left
    lift (v.binary op w)
  | conditional condition _ yes _ no => do
    match ← eval apply scope condition with
    | .truth true  => eval apply scope yes
    | .truth false => eval apply scope no
    | v            => throw (.type (.condition v.symbol))

-- The last of several trees is evaluated first.
def forestEval (apply : Value → Value → Evaluation Value) (scope : Scope Value) :
    List Core → Evaluation (List Value)
  | []      => return []
  | c :: cs => do
    let vs ← forestEval apply scope cs
    let v ← eval apply scope c
    return v :: vs

end

end Core

namespace Value

-- Applies a value to another one, with applications nested within each other at most to a depth.
def apply : (depth : Nat) → Value → Value → Evaluation Value
  | 0, _, _ => endless
  | depth + 1, fn, arg =>
    match fn with
    | .closure fn => do
      let bindings ← lift (arg.bind fn.params)
      let scope ← extend fn.scope bindings
      fn.body.eval (apply depth) scope
    | .eta fn => do
      let unrolled ← apply depth (.closure fn) (.eta fn)
      apply depth unrolled arg
    | .tuple vs            => lift (select vs arg)
    | .yStar               => lift (tie arg)
    | .builtin fn          => supply fn [arg]
    | .partialCall fn args => supply fn (args ++ [arg])
    | v                    => throw (.application (.notFunction v.symbol))

end Value

-- The outermost scope, in which nothing is bound.
def Scope.empty : Scope Value :=
  ⟨0, []⟩

-- The outcome of a tree without sugar and what it has put out, unless its applications are nested
-- deeper than given. The output is flushed if there is a value.
def Tree.meaning? (depth : Nat) (t : Tree) (sink : Sink) : Option (Except Fault Symbol × Sink) :=
  match t.number {} with
  | .error e _ => some (.error (.shape e), sink)
  | .ok core _ =>
    (program core ⟨1, sink⟩).map fun (result, w) => (result, w.sink)
where
  program (core : Core) : Evaluation Symbol := do
    let v ← core.eval (Value.apply depth) .empty
    onSink fun sink =>
      match Sink.flush sink with
      | .ok () sink   => .ok v.symbol sink
      | .error e sink => .error (.evaluation (.flush e)) sink

end RpalMachine
