import RpalMachine.Evaluation
import RpalMachine.Source.Program
import RpalMachine.Text.Blank
import RpalMachine.Tree.Interchange
import RpalMachine.Tree.Outline

namespace RpalMachine

-- More transitions than any run takes.
def patience : Nat :=
  UInt64.size

-- Which trees are shown before a program is evaluated.
structure Switches where
  tree : Bool := false
  core : Bool := false
  document : Bool := false
deriving DecidableEq, Repr

-- A text that starts with a brace is a document, any other is a program.
def isDocument (source : String) : Bool :=
  (trimLeft source.toList).head? = some '\x7b'

def readProgram (codec : Json.Codec) (source : String) : Except Fault Tree :=
  if isDocument source then
    (Tree.ofJsonText codec source).mapError .parse
  else
    (Tree.ofSource defaultDepth source).mapError .parse

namespace Switches

variable (codec : Json.Codec)

-- What is shown of a tree, up to the point where that fails.
def shown (switches : Switches) (t : Tree) : String × Except ShapeFault Unit :=
  let raw := (if switches.tree then t.outlineText else "") ++
    (if switches.document then t.jsonText codec ++ "\n" else "")
  if switches.core then
    match t.desugar with
    | .ok core => (raw ++ core.outlineText, .ok ())
    | .error e => (raw, .error e)
  else (raw, .ok ())

-- Everything a program puts out, and its outcome, if it ends within the given number of
-- transitions.
def runProgram (switches : Switches) (limit : Nat) (source : String) :
    Option (String × Except Fault Symbol) :=
  match readProgram codec source with
  | .error e => some ("", .error e)
  | .ok t =>
    match switches.shown codec t with
    | (text, .error e) => some (text, .error (.shape e))
    | (text, .ok ())   =>
      (t.evaluate limit {}).map fun (result, sink) => (text ++ sink.text, result)

def answer (switches : Switches) (source : String) : String :=
  match switches.runProgram codec patience source with
  | some (text, .ok v)    => text ++ v.text ++ "\n"
  | some (text, .error e) => text ++ "Error: " ++ e.message ++ "\n"
  | none                  => ""

end Switches

inductive Switch
  | tree
  | core
  | document
deriving DecidableEq, Repr

namespace Switch

def title : Switch → String
  | tree     => "Raw tree printing"
  | core     => "Standardized tree printing"
  | document => "JSON tree printing"

def flip (switches : Switches) : Switch → Bool × Switches
  | tree     => (!switches.tree, { switches with tree := !switches.tree })
  | core     => (!switches.core, { switches with core := !switches.core })
  | document => (!switches.document, { switches with document := !switches.document })

end Switch

inductive Command
  | nothing
  | help
  | flip (switch : Switch)
  | quit
  | load (path : String)
  | program (source : String)
deriving DecidableEq, Repr

namespace Command

-- The command on a line, blanks around it left out.
def ofLine (line : String) : Command :=
  match trim line with
  | ""      => nothing
  | ":help" => help
  | ":ast"  => flip .tree
  | ":st"   => flip .core
  | ":json" => flip .document
  | ":quit" => quit
  | ":exit" => quit
  | line    =>
    if ":load ".toList <+: line.toList then load (String.ofList (line.toList.drop 6))
    else program line

end Command

namespace Session

def banner : String :=
  "RPAL interpreter on a CSE machine\n" ++
  "Enter programs like: let rec F n = n eq 0 -> 1 | n * F (n - 1) in F 5\n" ++
  "Enter JSON trees like: \x7b\"+\": [\x7b\"int\": 1\x7d, \x7b\"int\": 2\x7d]\x7d\n" ++
  "Type :help for more commands, or Ctrl+C to exit.\n" ++
  "\n"

def help : String :=
  "RPAL interpreter commands:\n" ++
  "  :help       - Show this help message\n" ++
  "  :ast        - Toggle printing the raw parse tree\n" ++
  "  :st         - Toggle printing the standardized tree\n" ++
  "  :json       - Toggle printing the raw tree as JSON\n" ++
  "  :load FILE  - Run a program from a file\n" ++
  "  :quit       - Exit the interpreter\n" ++
  "  :exit       - Exit the interpreter\n" ++
  "  Ctrl+C      - Exit the interpreter\n" ++
  "\n" ++
  "Command line: repl [-ast] [-st] [FILE]\n" ++
  "Set RUST_LOG=rpal_cse=trace to follow every machine transition.\n" ++
  "\n" ++
  "Examples:\n" ++
  "  let x = 3 in x + 4\n" ++
  "  Print (Conc 'ab' 'cd')\n" ++
  "  let rec fib n = n ls 2 -> n | fib (n - 1) + fib (n - 2) in fib 10\n" ++
  "  (fn (x, y) . x * y) (6, 7)\n" ++
  "\n"

def farewell : String :=
  "Goodbye!\n"

variable [Monad m] (codec : Json.Codec) (readFile : String → m (Except String String))

-- What is put out for a line, and the switches from then on unless the session is over.
def respond (switches : Switches) (line : String) : m (String × Option Switches) :=
  match Command.ofLine line with
  | .nothing => return ("", switches)
  | .help    => return (help, switches)
  | .quit    => return (farewell, none)
  | .flip switch =>
    let (on, flipped) := switch.flip switches
    return (switch.title ++ (if on then " on\n" else " off\n"), flipped)
  | .load path => do
    match ← readFile (trim path) with
    | .ok source    => return (switches.answer codec source, switches)
    | .error reason => return ("Error: cannot read " ++ path ++ ": " ++ reason ++ "\n", switches)
  | .program source => return (switches.answer codec source, switches)

-- What is put out for lines that end after the last of them.
def converse (switches : Switches) : List String → m String
  | [] => return farewell
  | line :: lines => do
    match ← respond codec readFile switches line with
    | (text, none)          => return text
    | (text, some switches) => return text ++ (← converse switches lines)

end Session

-- How a program that was run on its own ends.
structure Completion where
  status : UInt8 := 0
  stdout : String := ""
  stderr : String := ""
deriving DecidableEq, Repr

namespace Completion

def ofSource (codec : Json.Codec) (switches : Switches) (source : String) : Completion :=
  match switches.runProgram codec patience source with
  | some (text, .ok v)    => { stdout := text ++ v.text ++ "\n" }
  | some (text, .error e) => { status := 1, stdout := text, stderr := e.message ++ "\n" }
  | none                  => { status := 1 }

def unreadable (path reason : String) : Completion where
  status := 1
  stderr := "Cannot read " ++ path ++ ": " ++ reason ++ "\n"

end Completion

-- What the words after the command ask for; of several files the last counts.
structure Invocation where
  switches : Switches := {}
  file : Option String := none
deriving DecidableEq, Repr

namespace Invocation

def add (invocation : Invocation) : String → Invocation
  | "-ast" => { invocation with switches.tree := true }
  | "-st"  => { invocation with switches.core := true }
  | path   => { invocation with file := path }

def ofArgs (args : List String) : Invocation :=
  args.foldl add {}

variable [Monad m] (codec : Json.Codec) (readFile : String → m (Except String String))

-- Runs a file, or else a session on the given lines.
def complete (invocation : Invocation) (lines : List String) : m Completion :=
  match invocation.file with
  | some path => do
    match ← readFile path with
    | .ok source    => return .ofSource codec invocation.switches source
    | .error reason => return .unreadable path reason
  | none => do
    let text ← Session.converse codec readFile invocation.switches lines
    return { stdout := Session.banner ++ text }

end Invocation

end RpalMachine
