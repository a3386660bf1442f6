namespace RpalMachine

inductive Builtin
  | print
  | stem
  | stern
  | conc
  | order
  | null
  | itos
  | isInteger
  | isString
  | isTuple
  | isDummy
  | isTruthvalue
  | isFunction
deriving DecidableEq, Repr

namespace Builtin

-- Every function once, in the order in which they are listed to a user.
def all : List Builtin :=
  [print, stem, stern, conc, order, null, itos, isInteger, isString, isTuple, isDummy,
    isTruthvalue, isFunction]

def name : Builtin → String
  | print        => "Print"
  | stem         => "Stem"
  | stern        => "Stern"
  | conc         => "Conc"
  | order        => "Order"
  | null         => "Null"
  | itos         => "Itos"
  | isInteger    => "Isinteger"
  | isString     => "Isstring"
  | isTuple      => "Istuple"
  | isDummy      => "Isdummy"
  | isTruthvalue => "Istruthvalue"
  | isFunction   => "Isfunction"

def arity : Builtin → Nat
  | conc => 2
  | _    => 1

-- Whether calling the function can reach the output.
def writes : Builtin → Bool
  | print => true
  | _     => false

def ofName? (x : String) : Option Builtin :=
  all.find? (·.name == x)

theorem ofName?_name (b : Builtin) : ofName? b.name = some b := by
  cases b <;> rfl

theorem name_of_ofName? {x : String} {b : Builtin} (h : ofName? x = some b) : b.name = x := by
  simpa using List.find?_some h

theorem arity_pos (b : Builtin) : 0 < b.arity := by
  cases b <;> decide

end Builtin

end RpalMachine
