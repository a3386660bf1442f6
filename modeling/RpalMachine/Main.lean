import RpalMachine.Json.Compact
import RpalMachine.Session

namespace RpalMachine

-- What the system says about a file that cannot be read.
def systemMessage : IO.Error → String
  | .noFileOrDirectory ..      => "No such file or directory (os error 2)"
  | .permissionDenied ..       => "Permission denied (os error 13)"
  | .inappropriateType _ 21 _  => "Is a directory (os error 21)"
  | .inappropriateType ..      => "Not a directory (os error 20)"
  | .userError _               => "stream did not contain valid UTF-8"
  | e                          => toString e

def readFile (path : String) : IO (Except String String) := do
  try
    return .ok (← IO.FS.readFile path)
  catch e =>
    return .error (systemMessage e)

partial def hold (input output : IO.FS.Stream) (switches : Switches) : IO Unit := do
  let line ← input.getLine
  if line.isEmpty then
    output.putStr Session.farewell
  else
    match ← Session.respond Json.compact readFile switches line with
    | (text, some switches) => do
      output.putStr text
      output.flush
      hold input output switches
    | (text, none) => output.putStr text

end RpalMachine

open RpalMachine in
def main (args : List String) : IO UInt32 := do
  let invocation := Invocation.ofArgs args
  match invocation.file with
  | some _ => do
    let completion ← invocation.complete Json.compact readFile []
    (← IO.getStdout).putStr completion.stdout
    (← IO.getStderr).putStr completion.stderr
    return completion.status.toUInt32
  | none => do
    let output ← IO.getStdout
    output.putStr Session.banner
    hold (← IO.getStdin) output invocation.switches
    return 0
