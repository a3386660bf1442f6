import RpalMachine.Machine.Frame
import RpalMachine.Machine.Operation
import RpalMachine.Machine.Call

namespace RpalMachine

structure Machine where
  control : List Symbol
  stack : List Symbol
  frames : Array Frame
  current : Nat := 0
  sink : Sink := {}

-- A part of a transition.
abbrev Step :=
  EStateM Fault Machine

namespace Step

variable (m : Machine)

@[simp]
theorem pure_apply (a : α) : (pure a : Step α) m = .ok a m :=
  rfl

@[simp]
theorem throw_apply (e : Fault) : (throw e : Step α) m = .error e m :=
  rfl

@[simp]
theorem get_apply : (get : Step Machine) m = .ok m m :=
  rfl

@[simp]
theorem set_apply (m' : Machine) : (set m' : Step Unit) m = .ok () m' :=
  rfl

@[simp]
theorem bind_apply (x : Step α) (f : α → Step β) :
    (x >>= f) m = match x m with
      | .ok a m    => f a m
      | .error e m => .error e m := by
  simp only [bind, EStateM.bind]
  cases x m <;> rfl

@[simp]
theorem map_apply (f : α → β) (x : Step α) :
    (f <$> x) m = match x m with
      | .ok a m    => .ok (f a) m
      | .error e m => .error e m := by
  simp only [Functor.map, EStateM.map]
  cases x m <;> rfl

end Step

namespace Machine

def push (x : Symbol) : Step Unit :=
  modify fun m => { m with stack := x :: m.stack }

@[simp]
theorem push_apply (x : Symbol) (m : Machine) :
    push x m = .ok () { m with stack := x :: m.stack } :=
  rfl

def schedule (code : List Symbol) : Step Unit :=
  modify fun m => { m with control := code ++ m.control }

@[simp]
theorem schedule_apply (code : List Symbol) (m : Machine) :
    schedule code m = .ok () { m with control := code ++ m.control } :=
  rfl

def lift (result : Except Fault α) : Step α :=
  match result with
  | .ok a    => pure a
  | .error e => throw e

@[simp]
theorem lift_ok (a : α) : lift (.ok a) = pure a :=
  rfl

@[simp]
theorem lift_error (e : Fault) : (lift (.error e) : Step α) = throw e :=
  rfl

-- Takes a value off the stack, on behalf of `task`. A marker in its place is taken as well.
def popValue (task : String) : Step Symbol := fun m =>
  match m.stack with
  | []                => .error (.shape (.noValue task)) m
  | .marker i :: rest => .error (.shape (.markerForValue task i)) { m with stack := rest }
  | x :: rest         => .ok x { m with stack := rest }

-- The topmost value comes first.
def popValues (task : String) : Nat → Step (List Symbol)
  | 0 => return []
  | n + 1 => do
    let x ← popValue task
    let xs ← popValues task n
    return x :: xs

-- A name that no frame binds may still be that of a function.
def load (x : String) : Step Unit := do
  let m ← get
  match lookup? m.frames x m.current with
  | some v => push v
  | none   =>
    if (Builtin.ofName? x).isSome then push (.identifier x) else throw (.unbound x)

def close (fn : Abstraction Symbol) : Step Unit := do
  push (.lambda { fn with env := (← get).current })

-- What the parameters of a lambda are bound to.
def bindParameters (params : List String) (arg : Symbol) :
    Except CountFault (List (String × Symbol)) :=
  match params, arg with
  | [], _    => .ok []
  | [x], arg => .ok [(x, arg)]
  | names, .tuple values =>
    if values.length = names.length then .ok (Frame.bindAll names values)
    else .error (.tupleParameter names values.length)
  | names, _ => .error (.tupleParameter names 1)

-- Runs the body of a lambda in a new frame, which its marker will leave again.
def enter (fn : Abstraction Symbol) : Step Unit := do
  let arg ← popValue "gamma"
  match fn.env with
  | none => throw (.shape (.openLambda fn.id))
  | some parent =>
    match bindParameters fn.params arg with
    | .error e => throw (.count e)
    | .ok bindings =>
      modify fun m =>
        let index := m.frames.size
        { m with
          control := .delta fn.body :: .marker index :: m.control
          stack   := .marker index :: m.stack
          frames  := m.frames.push { index, bindings, parent, caller := m.current }
          current := index }

-- Takes the marker of a frame off the stack.
def popMarker (index : Nat) : Step Unit := fun m =>
  match m.stack with
  | [] => .error (.shape (.wrongMarker index none)) m
  | x :: rest =>
    if x = .marker index then .ok () { m with stack := rest }
    else .error (.shape (.wrongMarker index x)) { m with stack := rest }

def leave (index : Nat) : Step Unit := do
  let result ← popValue "environment exit"
  popMarker index
  let m ← get
  match m.frames[index]? with
  | none => throw (.shape (.unknownFrame index))
  | some frame =>
    set { m with
      frames  := m.frames.setIfInBounds index { frame with removed := true }
      current := frame.caller.getD m.current }
    push result

-- Elements are counted from 1.
def select (elements : List Symbol) : Step Unit := do
  match ← popValue "tuple selection" with
  | .integer i =>
    if 1 ≤ i.toInt then
      match elements[i.toInt.toNat - 1]? with
      | some x => push x
      | none   => throw (.count (.tupleIndex elements.length i))
    else throw (.count (.tupleIndex elements.length i))
  | x => throw (.type (.tupleIndex x))

-- A fixed point is unrolled when it is applied.
def tie : Step Unit := do
  match ← popValue "Y*" with
  | .lambda fn => push (.eta fn)
  | x          => throw (.application (.fixedPoint x))

def unroll (fn : Abstraction Symbol) : Step Unit := do
  schedule [.gamma, .gamma]
  push (.eta fn)
  push (.lambda fn)

def onSink (action : EStateM Fault Sink α) : Step α := fun m =>
  match action m.sink with
  | .ok a sink    => .ok a { m with sink }
  | .error e sink => .error e { m with sink }

-- A function of several arguments gets one with each application.
def callWith (fn : Builtin) (args : List Symbol) : Step Unit := do
  let arg ← popValue fn.name
  let args := args ++ [arg]
  if args.length < fn.arity then push (.partialCall fn args)
  else push (← onSink (fn.call args))

def apply : Step Unit := do
  match ← popValue "gamma" with
  | .lambda fn           => enter fn
  | .tuple elements      => select elements
  | .yStar               => tie
  | .eta fn              => unroll fn
  | .partialCall fn args => callWith fn args
  | .identifier x =>
    match Builtin.ofName? x with
    | some fn => callWith fn []
    | none    => throw (.application (.unknownFunction x))
  | x => throw (.application (.notFunction x))

-- Keeps one of the two blocks on top of the control, of which the upper one is for `false`.
def choose (condition : Bool) : Step Unit := fun m =>
  match m.control with
  | .delta no :: .delta yes :: rest =>
    .ok () { m with control := .delta (if condition then yes else no) :: rest }
  | _ => .error (.shape .noBranches) m

def branch : Step Unit := do
  match ← popValue "beta" with
  | .truth condition => choose condition
  | x                => throw (.type (.condition x))

-- Executes a symbol that was taken off the control.
def execute : Symbol → Step Unit
  | .identifier x => load x
  | .lambda fn    => close fn
  | .gamma        => apply
  | .marker i     => leave i
  | .unary op     => do
    let x ← popValue op.word
    push (← lift (op.apply x))
  | .binary op    => do
    let x ← popValue op.word
    let y ← popValue op.word
    push (← lift (op.apply x y))
  | .tau n        => do push (.tuple (← popValues "tau" n))
  | .beta         => branch
  | .delta block  => schedule block.code
  | .test code    => schedule code
  | value         => push value

end Machine

end RpalMachine
