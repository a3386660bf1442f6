import RpalMachine.Fault.Basic

namespace RpalMachine

structure Sink where
  written : List UInt8 := []
  -- How many bytes fit in all, if that is limited.
  capacity : Option Nat := none
  flushes : Bool := true

namespace Sink

def bytes (text : List Char) : List UInt8 :=
  text.flatMap String.utf8EncodeChar

-- Stores the bytes that fit, and fails unless all of them do.
def write (data : List UInt8) : EStateM SinkFault Sink Unit := fun sink =>
  match sink.capacity with
  | none => .ok () { sink with written := sink.written ++ data }
  | some capacity =>
    let fitting := data.take (capacity - sink.written.length)
    let stored := { sink with written := sink.written ++ fitting }
    if fitting.length = data.length then .ok () stored else .error .full stored

def flush : EStateM SinkFault Sink Unit := fun sink =>
  if sink.flushes then .ok () sink else .error .flushRefused sink

-- What was written, as text. A character that was cut off is shown as a replacement character.
def text (sink : Sink) : String :=
  ((List.range 4).findSome? decode).getD ""
where
  decode (cut : Nat) : Option String :=
    let whole := sink.written.take (sink.written.length - cut)
    (String.fromUTF8? ⟨whole.toArray⟩).map (· ++ if cut = 0 then "" else "\uFFFD")

end Sink

end RpalMachine
