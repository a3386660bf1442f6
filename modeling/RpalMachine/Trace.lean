import RpalMachine.Evaluation

namespace RpalMachine

-- A stage that has been passed, with what is told about it.
inductive Event
  | parsed (tokens : Nat)
  | desugared (root : Tag)
  | built (lambdas blocks : Nat)
  | finished (transitions frames : Nat) (result : Symbol)

namespace Event

def message : Event → String
  | parsed _       => "parsed RPAL program"
  | desugared _    => "standardized parse tree"
  | built _ _      => "built control structures"
  | finished _ _ _ => "evaluation finished"

def fields : Event → List (String × String)
  | parsed tokens        => [("tokens", toString tokens)]
  | desugared root       => [("root", root.label)]
  | built lambdas blocks => [("lambdas", toString lambdas), ("deltas", toString blocks)]
  | finished transitions frames result =>
    [("steps", toString transitions), ("environments", toString frames), ("result", result.text)]

end Event

-- Where an evaluation stops: before the machine is started, or with the machine.
inductive Ending
  | refused (fault : ShapeFault)
  | stopped (result : Except Fault Symbol) (final : Machine)
  | unfinished

structure Trace where
  events : List Event
  transitions : Array Transition
  ending : Ending

namespace Trace

def refused (events : List Event) (fault : ShapeFault) : Trace where
  events      := events
  transitions := #[]
  ending      := .refused fault

def ofMachine (limit : Nat) (events : List Event) (m : Machine) : Trace :=
  let transitions := m.history limit
  match m.outcome? limit with
  | none => { events, transitions, ending := .unfinished }
  | some (.error e, final) => { events, transitions, ending := .stopped (.error e) final }
  | some (.ok v, final) =>
    { events := events ++ [.finished transitions.size final.frames.size v],
      transitions,
      ending := .stopped (.ok v) final }

end Trace

-- An evaluation that is followed for at most the given number of transitions.
def Tree.trace (limit : Nat) (t : Tree) (sink : Sink) : Trace :=
  match t.desugar with
  | .error e => .refused [] e
  | .ok core =>
    match core.machine sink with
    | .error e => .refused [.desugared core.tag] e
    | .ok (m, numbering) =>
      .ofMachine limit
        [.desugared core.tag, .built (numbering.nextLambda - 1) numbering.nextBlock] m

end RpalMachine
