import RpalMachine.Text.Escape
import RpalMachine.Machine.Sink

namespace RpalMachine

namespace Builtin

def stringArgument (fn : Builtin) : Symbol → Except Fault String
  | .string s => .ok s
  | x         => .error (.type (.stringArgument fn x))

def tupleArgument (fn : Builtin) : Symbol → Except Fault (List Symbol)
  | .tuple xs => .ok xs
  | x         => .error (.type (.tupleArgument fn x))

-- The first character of a string and the rest of it.
def splitArgument (fn : Builtin) (x : Symbol) : Except Fault (Char × List Char) := do
  match (← fn.stringArgument x).toList with
  | []      => throw (.type (.emptyString fn))
  | c :: cs => return (c, cs)

def isCallable : Symbol → Bool
  | .lambda _ | .eta _ | .partialCall _ _ => true
  | .identifier x => (ofName? x).isSome
  | _ => false

-- What a value looks like in the output.
def printed (x : Symbol) : List UInt8 :=
  Sink.bytes (expandEscapes x.text.toList)

-- The value of a function that leaves the output alone.
def value (fn : Builtin) (args : List Symbol) : Except Fault Symbol :=
  match fn, args with
  | stem, [x] => do
    let (c, _) ← fn.splitArgument x
    return .string (String.ofList [c])
  | stern, [x] => do
    let (_, cs) ← fn.splitArgument x
    return .string (String.ofList cs)
  | conc, [x, y] => do
    let s ← fn.stringArgument x
    let t ← fn.stringArgument y
    return .string (s ++ t)
  | order, [x] => do
    let xs ← fn.tupleArgument x
    return .integer (.ofNat xs.length)
  | null, [x] => do
    let xs ← fn.tupleArgument x
    return .truth xs.isEmpty
  | itos, [.integer n]      => return .string (toString n.toInt)
  | itos, [_]               => return .error
  | isInteger, [x]          => return .truth (x matches .integer _)
  | isString, [x]           => return .truth (x matches .string _)
  | isTuple, [x]            => return .truth (x matches .tuple _)
  | isDummy, [x]            => return .truth (x matches .dummy)
  | isTruthvalue, [x]       => return .truth (x matches .truth _)
  | isFunction, [x]         => return .truth (isCallable x)
  | _, _                    => throw (.count (.arguments fn args.length))

-- Calls a function with all of its arguments.
def call (fn : Builtin) (args : List Symbol) : EStateM Fault Sink Symbol := fun sink =>
  match fn, args with
  | print, [x] =>
    match Sink.write (printed x) sink with
    | .ok () sink   => .ok .dummy sink
    | .error e sink => .error (.evaluation (.print e)) sink
  | fn, args =>
    match fn.value args with
    | .ok v    => .ok v sink
    | .error e => .error e sink

end Builtin

end RpalMachine
