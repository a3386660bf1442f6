import RpalMachine.Machine.Run

namespace RpalMachine

namespace Machine

-- Puts the value on the stack that a name has in a frame.
def resolve (x : String) (frames : Array Frame) (current : Nat) : Step Unit :=
  match lookup? frames x current with
  | some v => push v
  | none   =>
    if (Builtin.ofName? x).isSome then push (.identifier x) else throw (.unbound x)

-- Begins a call of a function that was made in the frame `parent`.
def openFrame (body : Block Symbol) (bindings : List (String × Symbol)) (parent : Nat) :
    Step Unit :=
  modify fun m =>
    let index := m.frames.size
    { m with
      control := .delta body :: .marker index :: m.control
      stack   := .marker index :: m.stack
      frames  := m.frames.push { index, bindings, parent, caller := m.current }
      current := index }

-- Returns from the call that was made in a frame.
def closeFrame (index : Nat) : Step Unit := fun m =>
  match m.frames[index]? with
  | none => .error (.shape (.unknownFrame index)) m
  | some frame =>
    .ok () { m with
      frames  := m.frames.setIfInBounds index { frame with removed := true }
      current := frame.caller.getD m.current }

theorem leave_eq (index : Nat) :
    leave index = (do
      let result ← popValue "environment exit"
      popMarker index
      closeFrame index
      push result) := by
  rw [leave]
  congr 1
  funext result
  congr 1
  funext _ m
  cases hf : m.frames[index]? <;> simp [closeFrame, hf]

end Machine

-- A property that the smallest parts have. Nothing but a call of a function looks at the output.
structure Step.Compositional (p : {α : Type} → Step α → Prop) : Prop where
  bind {α β : Type} {x : Step α} {f : α → Step β} : p x → (∀ a, p (f a)) → p (x >>= f)
  pure {α : Type} (a : α) : p (Pure.pure a : Step α)
  throw {α : Type} (e : Fault) : p (MonadExcept.throw e : Step α)
  look {α : Type} {f : Array Frame → Nat → Step α} :
    (∀ frames current, p (f frames current)) → p (do let m ← get; f m.frames m.current)
  push (x : Symbol) : p (Machine.push x)
  schedule (code : List Symbol) : p (Machine.schedule code)
  popValue (task : String) : p (Machine.popValue task)
  popMarker (index : Nat) : p (Machine.popMarker index)
  choose (condition : Bool) : p (Machine.choose condition)
  openFrame (body : Block Symbol) (bindings : List (String × Symbol)) (parent : Nat) :
    p (Machine.openFrame body bindings parent)
  closeFrame (index : Nat) : p (Machine.closeFrame index)
  call (fn : Builtin) (args : List Symbol) : p (Machine.onSink (fn.call args))

namespace Step.Compositional

variable {p : {α : Type} → Step α → Prop} (h : Compositional p)
include h

theorem lift (result : Except Fault α) : p (Machine.lift result) := by
  cases result
  case ok a    => exact h.pure a
  case error e => exact h.throw e

theorem popValues (task : String) : (n : Nat) → p (Machine.popValues task n)
  | 0     => h.pure []
  | n + 1 => h.bind (h.popValue task) fun _ => h.bind (popValues task n) fun _ => h.pure _

theorem load (x : String) : p (Machine.load x) := by
  refine h.look (f := Machine.resolve x) fun frames current => ?_
  rw [Machine.resolve]
  split
  case h_1 => exact h.push _
  case h_2 =>
    split
    case isTrue  => exact h.push _
    case isFalse => exact h.throw _

theorem close (fn : Abstraction Symbol) : p (Machine.close fn) :=
  h.look (f := fun _ current => Machine.push (.lambda { fn with env := current }))
    fun _ _ => h.push _

theorem enter (fn : Abstraction Symbol) : p (Machine.enter fn) := by
  refine h.bind (h.popValue _) fun arg => ?_
  split
  case h_1 => exact h.throw _
  case h_2 =>
    split
    case h_1 => exact h.throw _
    case h_2 => exact h.openFrame _ _ _

theorem leave (index : Nat) : p (Machine.leave index) := by
  rw [Machine.leave_eq]
  exact h.bind (h.popValue _) fun _ => h.bind (h.popMarker index) fun _ =>
    h.bind (h.closeFrame index) fun _ => h.push _

theorem select (elements : List Symbol) : p (Machine.select elements) := by
  refine h.bind (h.popValue _) fun arg => ?_
  split
  case h_2 => exact h.throw _
  case h_1 =>
    split
    case isFalse => exact h.throw _
    case isTrue =>
      split
      case h_1 => exact h.push _
      case h_2 => exact h.throw _

theorem tie : p Machine.tie := by
  refine h.bind (h.popValue _) fun arg => ?_
  split
  case h_1 => exact h.push _
  case h_2 => exact h.throw _

theorem unroll (fn : Abstraction Symbol) : p (Machine.unroll fn) :=
  h.bind (h.schedule _) fun _ => h.bind (h.push _) fun _ => h.push _

theorem callWith (fn : Builtin) (args : List Symbol) : p (Machine.callWith fn args) := by
  refine h.bind (h.popValue _) fun arg => ?_
  dsimp only
  split
  case isTrue  => exact h.push _
  case isFalse => exact h.bind (h.call fn _) fun _ => h.push _

theorem apply : p Machine.apply := by
  refine h.bind (h.popValue _) fun fn => ?_
  split
  case h_1 => exact h.enter _
  case h_2 => exact h.select _
  case h_3 => exact h.tie
  case h_4 => exact h.unroll _
  case h_5 => exact h.callWith _ _
  case h_6 =>
    split
    case h_1 => exact h.callWith _ _
    case h_2 => exact h.throw _
  case h_7 => exact h.throw _

theorem branch : p Machine.branch := by
  refine h.bind (h.popValue _) fun condition => ?_
  split
  case h_1 => exact h.choose _
  case h_2 => exact h.throw _

theorem execute (x : Symbol) : p (Machine.execute x) := by
  cases x
  case identifier x => exact h.load x
  case lambda fn    => exact h.close fn
  case gamma        => exact h.apply
  case marker i     => exact h.leave i
  case beta         => exact h.branch
  case delta block  => exact h.schedule _
  case test code    => exact h.schedule _
  case tau n        => exact h.bind (h.popValues _ n) fun _ => h.push _
  case unary op     =>
    exact h.bind (h.popValue _) fun _ => h.bind (h.lift _) fun _ => h.push _
  case binary op    =>
    exact h.bind (h.popValue _) fun _ => h.bind (h.popValue _) fun _ =>
      h.bind (h.lift _) fun _ => h.push _
  all_goals exact h.push _

end Step.Compositional

end RpalMachine
