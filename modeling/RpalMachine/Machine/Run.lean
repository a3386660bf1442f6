import RpalMachine.Machine.Step

namespace RpalMachine

-- What there is to see of a transition: the symbol that is about to be executed, after it has been
-- taken off the control.
structure Transition where
  symbol : Symbol
  stackSize : Nat
  current : Nat

namespace Machine

def finish : Step Symbol := fun m =>
  match Sink.flush m.sink with
  | .error e _ => .error (.evaluation (.flush e)) m
  | .ok () _ =>
    match m.stack with
    | [.marker _] | [] => .error (.shape (.leftOver m.stack.length)) { m with stack := [] }
    | [x]              => .ok x { m with stack := [] }
    | _ :: rest        => .error (.shape (.leftOver m.stack.length)) { m with stack := rest }

-- The next transition, unless the control is empty.
@[inline]
def step? (m : Machine) : Option (EStateM.Result Fault Machine Unit) :=
  match m.control with
  | []        => none
  | x :: rest => some (execute x { m with control := rest })

-- How the machine ends, if it does so within the given number of transitions.
def run : (limit : Nat) → Machine → Option (EStateM.Result Fault Machine Symbol)
  | 0, m => if m.control.isEmpty then some (finish m) else none
  | limit + 1, m =>
    match m.step? with
    | none              => some (finish m)
    | some (.ok () m)   => run limit m
    | some (.error e m) => some (.error e m)

-- The transitions that are made, in order; one that fails is the last.
def history (limit : Nat) (m : Machine) : Array Transition :=
  go limit m #[]
where
  go : Nat → Machine → Array Transition → Array Transition
    | 0, _, seen => seen
    | limit + 1, m, seen =>
      match m.control with
      | []     => seen
      | x :: _ =>
        let seen := seen.push ⟨x, m.stack.length, m.current⟩
        match m.step? with
        | some (.ok () m) => go limit m seen
        | _               => seen

-- The outcome of a run and the machine it leaves behind, which can be run again.
def outcome? (limit : Nat) (m : Machine) : Option (Except Fault Symbol × Machine) :=
  (m.run limit).map fun
    | .ok v m    => (.ok v, m)
    | .error e m => (.error e, m)

-- The machine at the beginning of a program.
def start (program : Block Symbol) (sink : Sink) : Machine where
  control := [.delta program, .marker 0]
  stack   := [.marker 0]
  frames  := #[{}]
  sink    := sink

end Machine

end RpalMachine
