import RpalMachine.Integer
import RpalMachine.Source.Reader

namespace RpalMachine

-- The phrases at which reading goes a level deeper.
inductive Phrase
  | expression
  | conditional
  | power
  | definition
deriving DecidableEq, Repr

-- What the readers of a level are made from.
structure Level where
  maxHeight : Nat
  -- The phrases of the level below.
  nested : Phrase → Reader Tree

namespace Level

open Reader

variable (level : Level)

def build (f : Form) (children : List Tree) : Reader Tree := do
  let t := Tree.form f children
  if t.height ≤ level.maxHeight then return t else tooDeep

-- An operator and its second operand, if there is one.
def operation (operator? : Lexeme → Option BinaryOperator) (operand : Reader Tree)
    (left : Tree) : Reader (Option Tree) := do
  match ← takeIf operator? with
  | some op => some <$> (do level.build (.binary op) [left, ← operand])
  | none    => return none

-- Operands joined by operators that group to the left.
def leftChain (operator? : Lexeme → Option BinaryOperator) (operand : Reader Tree)
    (first : Tree) : Reader Tree :=
  iterate (level.operation operator? operand) first

-- A phrase that a mark and another phrase can follow.
def joined (mark : Lexeme) (f : Form) (first second : Reader Tree) : Reader Tree := do
  let t ← first
  if ← skip? mark then level.build f [t, ← second] else return t

-- A phrase that can have a mark in front.
def marked (mark : Lexeme) (f : Form) (phrase : Reader Tree) : Reader Tree := do
  if ← skip? mark then level.build f [← phrase] else phrase

def only (l : Lexeme) (op : BinaryOperator) (m : Lexeme) : Option BinaryOperator :=
  if m = l then some op else none

def comparison? : Lexeme → Option BinaryOperator
  | .keyword "gr" | .operator ">"  => some .gt
  | .keyword "ge" | .operator ">=" => some .ge
  | .keyword "ls" | .operator "<"  => some .lt
  | .keyword "le" | .operator "<=" => some .le
  | .keyword "eq"                  => some .eq
  | .keyword "ne"                  => some .ne
  | _                              => none

def sum? : Lexeme → Option BinaryOperator
  | .operator "+" => some .add
  | .operator "-" => some .sub
  | _             => none

def product? : Lexeme → Option BinaryOperator
  | .operator "*" => some .mul
  | .operator "/" => some .div
  | _             => none

-- The number that a row of decimal digits stands for.
def literal (digits : String) : Nat :=
  Nat.ofDigitChars 10 digits.toList 0

-- The operand that a literal stands for, if its number is in range.
def number (t : Token) : Option Int64 → Reader Tree
  | some n => return .leaf (.integer n)
  | none   => throw (.outOfRange t)

-- The operand that a word stands for.
def word? : String → Option Leaf
  | "true"  => some (.truth true)
  | "false" => some (.truth false)
  | "nil"   => some .nil
  | "dummy" => some .dummy
  | _       => none

def startsOperand : Lexeme → Bool
  | .identifier _ | .integer _ | .string _ => true
  | .keyword w     => (word? w).isSome
  | .punctuation p => p == "("
  | .operator _    => false

-- Rn
def operand : Reader Tree := do
  match ← get with
  | [] => refuse .operand
  | t :: rest =>
    match t.lexeme with
    | .identifier x => set rest; return .name x
    | .string s     => set rest; return .leaf (.string s)
    | .integer ds   => set rest; number t (integer? (literal ds))
    | .keyword w =>
      match word? w with
      | some l => set rest; return .leaf l
      | none   => refuse .operand
    | .punctuation p =>
      if p = "(" then
        set rest
        let e ← level.nested .expression
        expect (.punctuation ")")
        return e
      else refuse .operand
    | .operator _ => refuse .operand

def argument (fn : Tree) : Reader (Option Tree) := do
  if (← get).head?.any (startsOperand ·.lexeme) then
    some <$> (do level.build .gamma [fn, ← level.operand])
  else return none

-- What is left of R after its first operand.
def argumentsAfter (fn : Tree) : Reader Tree :=
  iterate level.argument fn

-- R
def application : Reader Tree := do
  level.argumentsAfter (← level.operand)

def call (left : Tree) : Reader (Option Tree) := do
  if ← skip? (.operator "@") then
    let fn ← identifier
    some <$> (do level.build .infixCall [left, fn, ← level.application])
  else return none

-- What is left of Ap after its first operand.
def callsAfter (left : Tree) : Reader Tree :=
  iterate level.call left

-- Ap
def infixCall : Reader Tree := do
  level.callsAfter (← level.application)

-- Af
def power : Reader Tree :=
  level.joined (.operator "**") (.binary .pow) level.infixCall (level.nested .power)

-- At
def product : Reader Tree := do
  let first ← level.nested .power
  level.leftChain product? (level.nested .power) first

-- The first operand of a sum, which may have a sign.
def signed : Reader Tree := do
  if ← skip? (.operator "-") then
    let t ← level.product
    level.build (.unary .neg) [t]
  else if ← skip? (.operator "+") then
    level.product
  else level.product

-- A
def sum : Reader Tree := do
  let first ← level.signed
  level.leftChain sum? level.product first

-- Bp
def comparison : Reader Tree := do
  let left ← level.sum
  match ← takeIf comparison? with
  | some op => do
    let right ← level.sum
    level.build (.binary op) [left, right]
  | none => return left

-- Bs
def negation : Reader Tree :=
  level.marked (.keyword "not") (.unary .not) level.comparison

-- Bt
def conjunction : Reader Tree := do
  let first ← level.negation
  level.leftChain (only (.operator "&") .and) level.negation first

-- B
def disjunction : Reader Tree := do
  let first ← level.conjunction
  level.leftChain (only (.keyword "or") .or) level.conjunction first

-- Tc
def conditional : Reader Tree := do
  let condition ← level.disjunction
  if ← skip? (.operator "->") then
    let yes ← level.nested .conditional
    expect (.operator "|")
    let no ← level.nested .conditional
    level.build .conditional [condition, yes, no]
  else return condition

-- Ta
def augmentation : Reader Tree := do
  let first ← level.nested .conditional
  level.leftChain (only (.keyword "aug") .aug) (level.nested .conditional) first

-- One item stands for itself; several become the children of a form.
def gather (f : Form) (first : Tree) (rest : List Tree) : Reader Tree :=
  if rest.isEmpty then return first else level.build f (first :: rest)

-- What is left of a series after its first item.
def seriesAfter (f : Form) (mark : Lexeme) (item : Reader Tree) (first : Tree) : Reader Tree := do
  let rest ← manyAfter mark item
  level.gather f first rest

-- T
def tuple : Reader Tree := do
  level.seriesAfter .tau (.punctuation ",") level.augmentation (← level.augmentation)

-- What is left of Vl after its first name.
def namesAfter : Tree → Reader Tree :=
  level.seriesAfter .comma (.punctuation ",") identifier

-- Vb
def parameter : Reader Tree := do
  if ← skip? (.punctuation "(") then
    if ← skip? (.punctuation ")") then return .leaf .unit
    else
      let first ← identifier
      let names ← level.namesAfter first
      expect (.punctuation ")")
      return names
  else identifier

-- Db
def binding : Reader Tree := do
  if ← skip? (.punctuation "(") then
    let d ← level.nested .definition
    expect (.punctuation ")")
    return d
  else
    let name ← identifier
    if (← get).head?.any (startsParameter ·.lexeme) then
      let params ← manyUntil (.operator "=") level.parameter
      let body ← level.nested .expression
      level.build .function (name :: params ++ [body])
    else
      let names ← level.namesAfter name
      expect (.operator "=")
      let value ← level.nested .expression
      level.build .equal [names, value]
where
  startsParameter : Lexeme → Bool
    | .identifier _  => true
    | .punctuation p => p == "("
    | _              => false

-- Dr
def recursion : Reader Tree :=
  level.marked (.keyword "rec") .recursive level.binding

-- Da
def simultaneous : Reader Tree := do
  level.seriesAfter .simultaneous (.keyword "and") level.recursion (← level.recursion)

-- D
def definition : Reader Tree :=
  level.joined (.keyword "within") .within level.simultaneous (level.nested .definition)

-- Ew
def clause : Reader Tree :=
  level.joined (.keyword "where") .whereIn level.tuple level.recursion

-- E
def expression : Reader Tree := do
  if ← skip? (.keyword "let") then
    let d ← level.nested .definition
    expect (.keyword "in")
    let body ← level.nested .expression
    level.build .letIn [d, body]
  else if ← skip? (.keyword "fn") then
    let first ← level.parameter
    let params ← manyUntil (.operator ".") level.parameter
    let body ← level.nested .expression
    level.build .lambda (first :: params ++ [body])
  else level.clause

def phrase : Phrase → Reader Tree
  | .expression  => level.expression
  | .conditional => level.conditional
  | .power       => level.power
  | .definition  => level.definition

end Level

namespace Phrase

-- Reads a phrase with the given number of levels to go.
def read (maxHeight : Nat) : (depth : Nat) → Phrase → Reader Tree
  | 0, _              => Reader.tooDeep
  | depth + 1, phrase => Level.phrase ⟨maxHeight, read maxHeight depth⟩ phrase

end Phrase

end RpalMachine
