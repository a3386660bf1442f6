import RpalMachine.Machine.Symbol

namespace RpalMachine

structure Frame where
  index : Nat := 0
  bindings : List (String × Symbol) := []
  -- Where names are looked up that the frame does not bind.
  parent : Option Nat := none
  -- The frame to return to.
  caller : Option Nat := none
  removed : Bool := false

namespace Frame

-- The value that the frame itself binds to a name.
def get? (frame : Frame) (x : String) : Option Symbol :=
  frame.bindings.lookup x

-- Of parameters with one name the last is bound.
def bindAll (names : List String) (values : List α) : List (String × α) :=
  (names.zip values).reverse

end Frame

-- Looks a name up in a frame and its ancestors. A walk longer than there are frames would not end.
def lookup? (frames : Array Frame) (x : String) (start : Nat) : Option Symbol :=
  go frames.size start
where
  go : Nat → Nat → Option Symbol
    | 0, _ => none
    | n + 1, i => do
      let frame ← frames[i]?
      match frame.get? x with
      | some v => some v
      | none   => go n (← frame.parent)

end RpalMachine
