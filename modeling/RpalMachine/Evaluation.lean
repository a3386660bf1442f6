import RpalMachine.Code
import RpalMachine.Machine.Run

namespace RpalMachine

namespace Tree

-- The machine that a tree without sugar starts as, and the numbers given out on the way.
def machine (t : Tree) (sink : Sink) : Except ShapeFault (Machine × Numbering) :=
  match t.block {} with
  | .ok program numbering => .ok (.start program sink, numbering)
  | .error e _            => .error e

def load (t : Tree) (sink : Sink) : Except ShapeFault Machine := do
  let core ← t.desugar
  let (m, _) ← core.machine sink
  return m

-- The outcome of a program and what it wrote, if it ends within the given number of transitions. A
-- tree of the wrong shape is refused before anything is run.
def evaluate (limit : Nat) (t : Tree) (sink : Sink) : Option (Except Fault Symbol × Sink) :=
  match t.load sink with
  | .error e => some (.error (.shape e), sink)
  | .ok m    => (m.outcome? limit).map fun (result, m) => (result, m.sink)

end Tree

end RpalMachine
