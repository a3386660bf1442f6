import RpalMachine.Proofs.Direct

namespace RpalMachine

-- Whether a program can end with the fault once it runs.
def Fault.isRuntime : Fault → Bool
  | parse _ | shape _ => false
  | _ => true

-- Whether an operation on values can fail so.
def Fault.isOperational : Fault → Bool
  | parse _ | shape _ | unbound _ => false
  | _ => true

theorem Fault.isRuntime_of_isOperational {e : Fault} (h : e.isOperational) : e.isRuntime := by
  cases e <;> first | rfl | contradiction

-- A result is as said, and a fault is one of an operation on values.
def Outcome (p : α → Prop) : Except Fault α → Prop
  | .ok a    => p a
  | .error e => e.isOperational

namespace Outcome

variable {p : α → Prop} {q : β → Prop}

theorem bind {x : Except Fault α} {f : α → Except Fault β} (hx : Outcome p x)
    (hf : ∀ a, p a → Outcome q (f a)) : Outcome q (x >>= f) := by
  cases x
  case ok a    => exact hf a hx
  case error e => exact hx

theorem map {x : Except Fault α} {f : α → β} (hx : Outcome p x) (hf : ∀ a, p a → q (f a)) :
    Outcome q (x.map f) := by
  cases x
  case ok a    => exact hf a hx
  case error e => exact hx

theorem ofEvaluation (x : Except EvaluationFault α) :
    Outcome (fun _ => True) (Fault.ofEvaluation x) := by
  cases x <;> trivial

end Outcome

def Symbol.isScalar : Symbol → Bool
  | integer _ | string _ | truth _ | dummy | error => true
  | _ => false

theorem Value.symbol_ofScalar {s : Symbol} (h : s.isScalar) : (ofScalar s).symbol = s := by
  cases s <;> first | rfl | contradiction

theorem Symbol.toInteger_outcome (operator : String) (x : Symbol) :
    Outcome (fun _ => True) (x.toInteger operator) := by
  cases x <;> trivial

theorem Symbol.toTruth_outcome (operator : String) (x : Symbol) :
    Outcome (fun _ => True) (x.toTruth operator) := by
  cases x <;> trivial

theorem UnaryOperator.apply_outcome (op : UnaryOperator) (x : Symbol) :
    Outcome (·.isScalar) (op.apply x) := by
  cases op
  case neg =>
    exact (x.toInteger_outcome _).bind fun _ _ => (Outcome.ofEvaluation _).bind fun _ _ => rfl
  case not => exact (x.toTruth_outcome _).bind fun _ _ => rfl

namespace BinaryOperator

variable {op : BinaryOperator} (x y : Symbol)

theorem arithmetic_outcome (f : Int64 → Int64 → Except EvaluationFault Int64) :
    Outcome (·.isScalar) (op.arithmetic f x y) :=
  (x.toInteger_outcome _).bind fun _ _ => (y.toInteger_outcome _).bind fun _ _ =>
    (Outcome.ofEvaluation _).bind fun _ _ => rfl

theorem comparison_outcome (f : Int64 → Int64 → Bool) :
    Outcome (·.isScalar) (op.comparison f x y) :=
  (x.toInteger_outcome _).bind fun _ _ => (y.toInteger_outcome _).bind fun _ _ => rfl

theorem connective_outcome (f : Bool → Bool → Bool) :
    Outcome (·.isScalar) (op.connective f x y) :=
  (x.toTruth_outcome _).bind fun _ _ => (y.toTruth_outcome _).bind fun _ _ => rfl

theorem apply_outcome (ha : op ≠ .aug) : Outcome (·.isScalar) (op.apply x y) := by
  cases op
  case add | sub | mul | div | pow => exact arithmetic_outcome x y _
  case lt | le | gt | ge           => exact comparison_outcome x y _
  case and | or                    => exact connective_outcome x y _
  case eq | ne                     => rfl
  case aug                         => contradiction

end BinaryOperator

namespace Builtin

variable (fn : Builtin) (x : Symbol)

theorem stringArgument_outcome : Outcome (fun _ => True) (fn.stringArgument x) := by
  cases x <;> trivial

theorem tupleArgument_outcome : Outcome (fun _ => True) (fn.tupleArgument x) := by
  cases x <;> trivial

theorem splitArgument_outcome : Outcome (fun _ => True) (fn.splitArgument x) :=
  (fn.stringArgument_outcome x).bind fun s _ => by cases s.toList <;> trivial

theorem value_outcome (args : List Symbol) : Outcome (·.isScalar) (fn.value args) := by
  simp only [value]
  split
  case h_1 | h_2 => exact (splitArgument_outcome _ _).bind fun _ _ => rfl
  case h_3 =>
    exact (stringArgument_outcome _ _).bind fun _ _ =>
      (stringArgument_outcome _ _).bind fun _ _ => rfl
  case h_4 | h_5 => exact (tupleArgument_outcome _ _).bind fun _ _ => rfl
  all_goals rfl

theorem call_outcome (args : List Symbol) (sink : Sink) :
    match fn.call args sink with
    | .ok s _    => s.isScalar
    | .error e _ => e.isOperational := by
  cases hc : fn.call args sink
  all_goals
    simp only [call] at hc
    split at hc
  case h_1 | h_1 =>
    split at hc <;> cases hc
    rfl
  case h_2 | h_2 =>
    have h := value_outcome fn args
    split at hc <;> cases hc
    case _ hv => rwa [hv] at h

end Builtin

namespace Value

theorem symbols_eq_map : (vs : List Value) → symbols vs = vs.map symbol
  | []      => rfl
  | v :: vs => by simp [symbols, symbols_eq_map vs]

@[simp]
theorem symbols_append (vs ws : List Value) : symbols (vs ++ ws) = symbols vs ++ symbols ws := by
  simp [symbols_eq_map]

@[simp]
theorem length_symbols (vs : List Value) : (symbols vs).length = vs.length := by
  simp [symbols_eq_map]

mutual

-- The closures in a value, but not those in their scopes.
def closures : Value → List (Closure Value)
  | tuple vs              => forestClosures vs
  | closure fn            => [fn]
  | eta fn                => [fn]
  | partialCall _ args    => forestClosures args
  | _                     => []

def forestClosures : List Value → List (Closure Value)
  | []      => []
  | v :: vs => closures v ++ forestClosures vs

end

theorem forestClosures_eq_flatMap :
    (vs : List Value) → forestClosures vs = vs.flatMap closures
  | []      => rfl
  | v :: vs => by simp [forestClosures, forestClosures_eq_flatMap vs]

theorem map_symbol_unary (op : UnaryOperator) (v : Value) :
    (v.unary op).map symbol = op.apply v.symbol := by
  rw [unary]
  cases h : op.apply v.symbol
  case ok s =>
    have hs := op.apply_outcome v.symbol
    rw [h] at hs
    simp [Except.map, symbol_ofScalar hs]
  case error e => rfl

theorem binary_eq_of_ne {op : BinaryOperator} (ha : op ≠ .aug) (v w : Value) :
    v.binary op w = (op.apply v.symbol w.symbol).map ofScalar := by
  cases op <;> first | rfl | contradiction

theorem map_symbol_binary (op : BinaryOperator) (v w : Value) :
    (v.binary op w).map symbol = op.apply v.symbol w.symbol := by
  by_cases ha : op = .aug
  case pos =>
    subst ha
    cases v <;> try rfl
    case tuple vs =>
      cases w <;>
        simp [binary, BinaryOperator.apply, symbol, symbols, Symbol.augment, Except.map]
  case neg =>
    rw [binary_eq_of_ne ha]
    cases h : op.apply v.symbol w.symbol
    case ok s =>
      have hs := BinaryOperator.apply_outcome v.symbol w.symbol ha
      rw [h] at hs
      simp [Except.map, symbol_ofScalar hs]
    case error e => rfl

-- The bindings as the machine has them.
def shown (bindings : List (String × Value)) : List (String × Symbol) :=
  bindings.map fun (x, v) => (x, v.symbol)

theorem lookup_shown (x : String) (bindings : List (String × Value)) :
    (shown bindings).lookup x = (bindings.lookup x).map symbol := by
  induction bindings
  case nil => rfl
  case cons b bs hi =>
    obtain ⟨y, v⟩ := b
    simp only [shown, List.map_cons, List.lookup_cons] at hi ⊢
    cases x == y <;> simp [hi]

theorem shown_bindAll (names : List String) (vs : List Value) :
    shown (Frame.bindAll names vs) = Frame.bindAll names (symbols vs) := by
  simp [shown, Frame.bindAll, symbols_eq_map, List.zip_map_right]

theorem map_shown_bind (params : List String) (arg : Value) :
    (arg.bind params).map shown = (Machine.bindParameters params arg.symbol).mapError .count := by
  match params with
  | []  => rfl
  | [x] => rfl
  | x :: y :: names =>
    cases arg
    case tuple vs =>
      simp only [bind, Machine.bindParameters, symbol, length_symbols]
      split
      case isTrue  => exact congrArg Except.ok (shown_bindAll ..)
      case isFalse => rfl
    all_goals rfl

end Value

end RpalMachine
