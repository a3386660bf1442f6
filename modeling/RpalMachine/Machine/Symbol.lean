import RpalMachine.Operator
import RpalMachine.Machine.Builtin

namespace RpalMachine

-- Numbered code, with what runs first in front.
structure Block (σ : Type) where
  label : Nat
  code : List σ
deriving DecidableEq

-- A lambda, together with the frame it was evaluated in once that has happened.
structure Abstraction (σ : Type) where
  id : Nat
  params : List String
  body : Block σ
  env : Option Nat
deriving DecidableEq

-- The first parameter and the number of a lambda.
def Abstraction.signature (fn : Abstraction σ) : String :=
  fn.params.headD "()" ++ ": " ++ toString fn.id

inductive Symbol
  | identifier (name : String)
  | integer (value : Int64)
  | string (text : String)
  | truth (value : Bool)
  | dummy
  | error
  | tuple (elements : List Symbol)
  | lambda (fn : Abstraction Symbol)
  | eta (fn : Abstraction Symbol)
  | partialCall (fn : Builtin) (args : List Symbol)
  | yStar
  | gamma
  | tau (count : Nat)
  | unary (op : UnaryOperator)
  | binary (op : BinaryOperator)
  | beta
  | delta (block : Block Symbol)
  | test (code : List Symbol)
  | marker (index : Nat)

namespace Symbol

abbrev nil : Symbol :=
  tuple []

def kind : Symbol → String
  | identifier _    => "identifier"
  | integer _       => "integer"
  | string _        => "string"
  | truth _         => "truthvalue"
  | dummy           => "dummy"
  | error           => "error"
  | tuple _         => "tuple"
  | lambda _        => "function"
  | eta _           => "eta"
  | partialCall _ _ => "function"
  | yStar           => "Y*"
  | gamma           => "gamma"
  | tau _           => "tau"
  | unary _         => "unary operator"
  | binary _        => "binary operator"
  | beta            => "beta"
  | delta _         => "delta"
  | test _          => "condition"
  | marker _        => "environment marker"

mutual

-- The printed form. A closure shows its first parameter and its number, not its code.
def text : Symbol → String
  | identifier name     => name
  | integer value       => toString value.toInt
  | string text         => text
  | truth true          => "true"
  | truth false         => "false"
  | dummy               => "dummy"
  | error               => "error"
  | tuple []            => "nil"
  | tuple (x :: xs)     => "(" ++ x.text ++ restText xs ++ ")"
  | lambda fn           => "[lambda closure: " ++ fn.signature ++ "]"
  | eta fn              => "[eta closure: " ++ fn.signature ++ "]"
  | partialCall fn []   => "[partial " ++ fn.name ++ "]"
  | partialCall fn (x :: xs) => "[partial " ++ fn.name ++ ": " ++ x.text ++ restText xs ++ "]"
  | yStar               => "<Y*>"
  | gamma               => "gamma"
  | tau count           => "tau" ++ toString count
  | unary op            => op.word
  | binary op           => op.word
  | beta                => "beta"
  | delta ⟨label, _⟩    => "delta" ++ toString label
  | test _              => "b"
  | marker index        => "e" ++ toString index

def restText : List Symbol → String
  | []      => ""
  | x :: xs => ", " ++ x.text ++ restText xs

end

mutual

def same : Symbol → Symbol → Bool
  | identifier x, identifier y => x == y
  | integer m, integer n       => m == n
  | string s, string t         => s == t
  | truth a, truth b           => a == b
  | dummy, dummy               => true
  | error, error               => true
  | tuple xs, tuple ys         => sameAll xs ys
  | lambda ⟨i, ps, ⟨l, xs⟩, e⟩, lambda ⟨j, qs, ⟨m, ys⟩, f⟩ =>
    i == j && ps == qs && l == m && sameAll xs ys && e == f
  | eta ⟨i, ps, ⟨l, xs⟩, e⟩, eta ⟨j, qs, ⟨m, ys⟩, f⟩ =>
    i == j && ps == qs && l == m && sameAll xs ys && e == f
  | partialCall f xs, partialCall g ys     => f == g && sameAll xs ys
  | yStar, yStar                           => true
  | gamma, gamma                           => true
  | tau m, tau n                           => m == n
  | unary f, unary g                       => f == g
  | binary f, binary g                     => f == g
  | beta, beta                             => true
  | delta ⟨l, xs⟩, delta ⟨m, ys⟩           => l == m && sameAll xs ys
  | test xs, test ys                       => sameAll xs ys
  | marker m, marker n                     => m == n
  | _, _                                   => false
termination_by structural x => x

def sameAll : List Symbol → List Symbol → Bool
  | [], []           => true
  | x :: xs, y :: ys => same x y && sameAll xs ys
  | _, _             => false
termination_by structural x => x

end

mutual

theorem same_iff : (a b : Symbol) → (same a b ↔ a = b)
  | identifier _, b | integer _, b | string _, b | truth _, b | dummy, b | error, b | yStar, b
  | gamma, b | tau _, b | unary _, b | binary _, b | beta, b | marker _, b => by
    cases b <;> simp [same]
  | tuple xs, b => by
    cases b <;> simp [same, sameAll_iff xs]
  | lambda ⟨_, _, ⟨_, xs⟩, _⟩, b => by
    cases b <;> simp only [same, Bool.and_eq_true, beq_iff_eq, reduceCtorEq, Bool.false_eq_true]
    case lambda fn =>
      obtain ⟨_, _, ⟨_, ys⟩, _⟩ := fn
      simp [sameAll_iff xs ys, and_assoc]
  | eta ⟨_, _, ⟨_, xs⟩, _⟩, b => by
    cases b <;> simp only [same, Bool.and_eq_true, beq_iff_eq, reduceCtorEq, Bool.false_eq_true]
    case eta fn =>
      obtain ⟨_, _, ⟨_, ys⟩, _⟩ := fn
      simp [sameAll_iff xs ys, and_assoc]
  | partialCall _ xs, b => by
    cases b <;> simp [same, sameAll_iff xs]
  | delta ⟨_, xs⟩, b => by
    cases b <;> simp only [same, Bool.and_eq_true, beq_iff_eq, reduceCtorEq, Bool.false_eq_true]
    case delta block =>
      obtain ⟨_, ys⟩ := block
      simp [sameAll_iff xs ys]
  | test xs, b => by
    cases b <;> simp [same, sameAll_iff xs]
termination_by structural x => x

theorem sameAll_iff : (as bs : List Symbol) → (sameAll as bs ↔ as = bs)
  | [], bs      => by cases bs <;> simp [sameAll]
  | a :: as, [] => by simp [sameAll]
  | a :: as, b :: bs => by simp [sameAll, same_iff a b, sameAll_iff as bs]
termination_by structural x => x

end

instance : DecidableEq Symbol :=
  fun a b => decidable_of_iff _ (same_iff a b)

end Symbol

end RpalMachine
