namespace RpalMachine

inductive UnaryOperator
  | neg
  | not
deriving DecidableEq, Repr

inductive BinaryOperator
  | add
  | sub
  | mul
  | div
  | pow
  | and
  | or
  | eq
  | ne
  | lt
  | le
  | gt
  | ge
  | aug
deriving DecidableEq, Repr

namespace UnaryOperator

def word : UnaryOperator → String
  | neg => "neg"
  | not => "not"

def ofWord? : String → Option UnaryOperator
  | "neg" => some neg
  | "not" => some not
  | _     => none

end UnaryOperator

namespace BinaryOperator

def word : BinaryOperator → String
  | add => "+"
  | sub => "-"
  | mul => "*"
  | div => "/"
  | pow => "**"
  | and => "&"
  | or  => "or"
  | eq  => "eq"
  | ne  => "ne"
  | lt  => "ls"
  | le  => "le"
  | gt  => "gr"
  | ge  => "ge"
  | aug => "aug"

def ofWord? : String → Option BinaryOperator
  | "+"   => some add
  | "-"   => some sub
  | "*"   => some mul
  | "/"   => some div
  | "**"  => some pow
  | "&"   => some and
  | "or"  => some or
  | "eq"  => some eq
  | "ne"  => some ne
  | "ls"  => some lt
  | "le"  => some le
  | "gr"  => some gt
  | "ge"  => some ge
  | "aug" => some aug
  | _     => none

end BinaryOperator

end RpalMachine
