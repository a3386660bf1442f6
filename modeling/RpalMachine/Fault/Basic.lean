import RpalMachine.Tree.Basic
import RpalMachine.Machine.Symbol
import RpalMachine.Fault.Parse

namespace RpalMachine

-- Why a tree, or a state of the machine, is not of the shape that is needed.
inductive ShapeFault
  | childCount (tag : Tag) (found : Nat)
  | notDefinition (form : Form) (found : Tag)
  | compoundName (found : Tag)
  | uncurried
  | parameterList (found : Tag)
  | parameter (found : Tag)
  | misplaced (tag : Tag)
  | sugar (tag : Tag)
  | markerForValue (task : String) (index : Nat)
  | noValue (task : String)
  | openLambda (id : Nat)
  | wrongMarker (expected : Nat) (found : Option Symbol)
  | unknownFrame (index : Nat)
  | noBranches
  | leftOver (count : Nat)

namespace ShapeFault

def text : ShapeFault → String
  | childCount tag found =>
    "'" ++ tag.label ++ "' expects " ++ tag.arity.text ++ " children, found " ++ toString found
  | notDefinition form found =>
    "'" ++ form.keyword ++ "' expects a definition, found '" ++ found.label ++ "'"
  | compoundName found => "'and' binds plain identifiers, found '" ++ found.label ++ "'"
  | uncurried => "lambda must be curried before building control"
  | parameterList found => "tuple parameter must list identifiers, found '" ++ found.label ++ "'"
  | parameter found => "invalid lambda parameter '" ++ found.label ++ "'"
  | misplaced tag => "'" ++ tag.label ++ "' is only valid as a lambda parameter or definition"
  | sugar tag => "'" ++ tag.label ++ "' must be standardized before building control"
  | markerForValue task index =>
    task ++ ": expected a value, found environment marker e" ++ toString index
  | noValue task => task ++ ": stack underflow"
  | openLambda id => "lambda " ++ toString id ++ " applied before capturing an environment"
  | wrongMarker expected found =>
    "stack marker mismatch: expected e" ++ toString expected ++ ", found " ++
      (found.map Symbol.text).getD "empty stack"
  | unknownFrame index => "marker for unknown environment e" ++ toString index
  | noBranches => "beta is not preceded by its two branches"
  | leftOver count => "machine halted with " ++ toString count ++ " symbols on the stack"

end ShapeFault

-- An operand or argument of the wrong kind.
inductive TypeFault
  | integerOperand (operator : String) (found : Symbol)
  | truthOperand (operator : String) (found : Symbol)
  | tupleOnLeft (found : Symbol)
  | stringArgument (fn : Builtin) (found : Symbol)
  | emptyString (fn : Builtin)
  | tupleArgument (fn : Builtin) (found : Symbol)
  | tupleIndex (found : Symbol)
  | condition (found : Symbol)

namespace TypeFault

def text : TypeFault → String
  | integerOperand operator found =>
    "'" ++ operator ++ "' expects integer operands, got " ++ found.kind
  | truthOperand operator found =>
    "'" ++ operator ++ "' expects truthvalue operands, got " ++ found.kind
  | tupleOnLeft found       => "'aug' expects a tuple on the left, got " ++ found.kind
  | stringArgument fn found => fn.name ++ " expects a string, got " ++ found.kind
  | emptyString fn          => fn.name ++ " expects a non-empty string"
  | tupleArgument fn found  => fn.name ++ " expects a tuple, got " ++ found.kind
  | tupleIndex found        => "tuple selection expects an integer index, got " ++ found.kind
  | condition found         => "conditional expects a truthvalue, got " ++ found.kind

end TypeFault

-- A value in the place of a function that is none.
inductive ApplicationFault
  | fixedPoint (found : Symbol)
  | unknownFunction (name : String)
  | notFunction (found : Symbol)

namespace ApplicationFault

def text : ApplicationFault → String
  | fixedPoint found     => "Y* applied to " ++ found.kind ++ " '" ++ found.text ++ "'"
  | unknownFunction name => "'" ++ name ++ "' is not a function"
  | notFunction found    => "cannot apply " ++ found.kind ++ " '" ++ found.text ++ "'"

end ApplicationFault

inductive Operation
  | negation
  | addition
  | subtraction
  | multiplication
  | division
  | exponentiation
deriving DecidableEq, Repr

def Operation.noun : Operation → String
  | negation       => "negation"
  | addition       => "addition"
  | subtraction    => "subtraction"
  | multiplication => "multiplication"
  | division       => "division"
  | exponentiation => "exponentiation"

-- Why an output does not take what it is given.
inductive SinkFault
  | full
  | flushRefused
deriving DecidableEq, Repr

def SinkFault.text : SinkFault → String
  | full         => "sink full"
  | flushRefused => "flush refused"

-- A value that does not exist, or an output that does not work.
inductive EvaluationFault
  | overflow (operation : Operation)
  | divisionByZero
  | powerOfZero
  | print (fault : SinkFault)
  | flush (fault : SinkFault)
deriving DecidableEq, Repr

namespace EvaluationFault

def text : EvaluationFault → String
  | overflow operation => "Integer overflow in " ++ operation.noun
  | divisionByZero     => "Division by zero"
  | powerOfZero        => "Division by zero in exponentiation"
  | print fault        => "Print failed: " ++ fault.text
  | flush fault        => "failed to flush output: " ++ fault.text

end EvaluationFault

-- A count other than the expected one; what was found need not be a count.
structure CountFault where
  expected : Nat
  found : Option Nat := none
  context : Option String := none
deriving DecidableEq, Repr

namespace CountFault

def tupleParameter (names : List String) (found : Nat) : CountFault where
  expected := names.length
  found    := found
  context  := "tuple parameter (" ++ ", ".intercalate names ++ ")"

def arguments (fn : Builtin) (found : Nat) : CountFault where
  expected := fn.arity
  found    := found
  context  := fn.name

-- An index that selects nothing from a tuple of the given size.
def tupleIndex (size : Nat) (index : Int64) : CountFault where
  expected := size
  context  := "tuple index " ++ toString index.toInt ++ " out of range 1..=" ++ toString size

def text : CountFault → String
  | ⟨expected, some found, some context⟩ =>
    context ++ ": expected " ++ toString expected ++ ", got " ++ toString found
  | ⟨_, none, some context⟩     => context
  | ⟨expected, some found, none⟩ =>
    "expected " ++ toString expected ++ ", got " ++ toString found
  | ⟨expected, none, none⟩      => "expected " ++ toString expected

end CountFault

inductive Fault
  | parse (fault : ParseFault)
  | shape (fault : ShapeFault)
  | unbound (name : String)
  | type (fault : TypeFault)
  | count (fault : CountFault)
  | application (fault : ApplicationFault)
  | evaluation (fault : EvaluationFault)

namespace Fault

def message : Fault → String
  | parse fault       => fault.message
  | shape fault       => "StructuralError: " ++ fault.text
  | unbound name      => "UnboundNameError: " ++ name
  | type fault        => "TypeMismatchError: " ++ fault.text
  | count fault       => "ArityMismatchError: " ++ fault.text
  | application fault => "ApplicationError: " ++ fault.text
  | evaluation fault  => "EvaluationError: " ++ fault.text

end Fault

end RpalMachine
