import RpalMachine.Proofs.Scopes
import RpalMachine.Machine.Run

namespace RpalMachine

variable {control stack : List Symbol} {frames : Array Frame} {current : Nat} {sink : Sink}
variable {scopes : List (Scope Value)} {w : World} {v : Value} {vs : List Value}

-- A transition puts the value of a computation on top of the stack, or fails as the computation
-- does. Nothing else is changed but the output.
def Delivers (scopes : List (Scope Value)) (control stack : List Symbol) (frames : Array Frame)
    (current : Nat) (w : World) (r : EStateM.Result Fault Machine Unit) :
    Option (Except Fault Value × World) → Prop
  | some (.ok v, w') =>
    r = .ok () ⟨control, v.symbol :: stack, frames, current, w'.sink⟩ ∧ v.Known scopes ∧
      w'.scopes = w.scopes
  | some (.error e, w') => (∃ m, r = .error e m ∧ m.sink = w'.sink) ∧ e.isRuntime
  | none => False

namespace Machine

@[simp]
theorem popValue_symbol (task : String) (v : Value) :
    popValue task ⟨control, v.symbol :: stack, frames, current, sink⟩ =
      .ok v.symbol ⟨control, stack, frames, current, sink⟩ := by
  cases v <;> rfl

@[simp]
theorem popValues_symbols (task : String) (vs : List Value) :
    popValues task vs.length ⟨control, Value.symbols vs ++ stack, frames, current, sink⟩ =
      .ok (Value.symbols vs) ⟨control, stack, frames, current, sink⟩ := by
  induction vs
  case nil           => rfl
  case cons v vs hi => simp [popValues, Value.symbols, hi]

theorem push_delivers (hv : v.Known scopes) :
    Delivers scopes control stack frames current w
      (push v.symbol ⟨control, stack, frames, current, w.sink⟩) ((pure v : Evaluation Value) w) :=
  ⟨rfl, hv, rfl⟩

-- What is pushed is the value, and what the transition fails with is the fault.
theorem lift_delivers {x : Except Fault Value} (hx : Outcome (·.Known scopes) x) :
    Delivers scopes control stack frames current w
      ((do push (← lift (x.map Value.symbol))) ⟨control, stack, frames, current, w.sink⟩)
      (Evaluation.lift x w) := by
  cases x
  case ok v    => exact ⟨rfl, hx, rfl⟩
  case error e => exact ⟨⟨_, rfl, rfl⟩, Fault.isRuntime_of_isOperational hx⟩

theorem load_delivers {scope : Scope Value} (r : Represents frames scopes w)
    (hs : scopes[scope.number]? = some scope) (x : String) :
    Delivers scopes control stack frames scope.number w
      (load x ⟨control, stack, frames, scope.number, w.sink⟩) (Evaluation.lookup scope x w) := by
  have hl := r.lookup?_eq x hs
  rw [Evaluation.lookup]
  simp only [load, Step.bind_apply, Step.get_apply, hl]
  cases hb : scope.bindings.lookup x
  case some v => exact push_delivers ((r.held hs).known _ (mem_of_lookup_eq_some hb))
  case none =>
    cases hf : Builtin.ofName? x
    case some fn =>
      rw [← Builtin.name_of_ofName? hf]
      exact push_delivers (v := .builtin fn) (Value.known_of_closures_eq_nil rfl)
    case none => exact ⟨⟨_, rfl, rfl⟩, rfl⟩

theorem close_delivers {scope : Scope Value} (hs : scopes[scope.number]? = some scope) (id : Nat)
    (params : List String) (label : Nat) (body : Core) :
    Delivers scopes control stack frames scope.number w
      (execute (.lambda ⟨id, params, ⟨label, body.code⟩, none⟩)
        ⟨control, stack, frames, scope.number, w.sink⟩)
      ((pure (.closure ⟨id, params, label, body, scope⟩) : Evaluation Value) w) :=
  ⟨rfl, by simpa [Value.Known, Value.closures], rfl⟩

theorem unary_delivers (op : UnaryOperator) (v : Value) :
    Delivers scopes control stack frames current w
      (execute (.unary op) ⟨control, v.symbol :: stack, frames, current, w.sink⟩)
      (Evaluation.lift (v.unary op) w) := by
  simpa only [execute, Step.bind_apply, popValue_symbol, Value.map_symbol_unary] using
    lift_delivers (Value.unary_outcome op v)

theorem binary_delivers (op : BinaryOperator) {u : Value} (hu : u.Known scopes)
    (hv : v.Known scopes) :
    Delivers scopes control stack frames current w
      (execute (.binary op) ⟨control, u.symbol :: v.symbol :: stack, frames, current, w.sink⟩)
      (Evaluation.lift (u.binary op v) w) := by
  simpa only [execute, Step.bind_apply, popValue_symbol, Value.map_symbol_binary] using
    lift_delivers (Value.binary_outcome op hu hv)

theorem tau_delivers (hvs : ∀ v ∈ vs, v.Known scopes) :
    Delivers scopes control stack frames current w
      (execute (.tau vs.length) ⟨control, Value.symbols vs ++ stack, frames, current, w.sink⟩)
      ((pure (.tuple vs) : Evaluation Value) w) := by
  simp only [execute, Step.bind_apply, popValues_symbols]
  exact push_delivers (v := .tuple vs) (Value.known_tuple_iff.mpr hvs)

theorem select_delivers (hvs : ∀ v ∈ vs, v.Known scopes) (arg : Value) :
    Delivers scopes control stack frames current w
      (select (Value.symbols vs) ⟨control, arg.symbol :: stack, frames, current, w.sink⟩)
      (Evaluation.lift (Value.select vs arg) w) := by
  have ho := Value.select_outcome hvs arg
  simp only [select, Step.bind_apply, popValue_symbol]
  cases arg
  case integer i =>
    simp only [Value.symbol, Value.select, Value.symbols_eq_map, List.getElem?_map,
      List.length_map] at ho ⊢
    by_cases hi : 1 ≤ i.toInt
    case pos =>
      rw [if_pos hi] at ho
      rw [if_pos hi, if_pos hi]
      cases he : vs[i.toInt.toNat - 1]? <;> rw [he] at ho <;> exact lift_delivers ho
    case neg =>
      rw [if_neg hi, if_neg hi]
      exact ⟨⟨_, rfl, rfl⟩, rfl⟩
  all_goals exact ⟨⟨_, rfl, rfl⟩, rfl⟩

theorem tie_delivers {arg : Value} (ha : arg.Known scopes) :
    Delivers scopes control stack frames current w
      (tie ⟨control, arg.symbol :: stack, frames, current, w.sink⟩)
      (Evaluation.lift (Value.tie arg) w) := by
  have ho := Value.tie_outcome ha
  cases arg
  case closure fn => exact ⟨rfl, ho, rfl⟩
  all_goals exact ⟨⟨_, rfl, rfl⟩, rfl⟩

theorem callWith_delivers (fn : Builtin) (args : List Value) (arg : Value)
    (hk : ∀ v ∈ args ++ [arg], v.Known scopes) :
    Delivers scopes control stack frames current w
      (callWith fn (Value.symbols args) ⟨control, arg.symbol :: stack, frames, current, w.sink⟩)
      (Evaluation.supply fn (args ++ [arg]) w) := by
  have ha : Value.symbols args ++ [arg.symbol] = Value.symbols (args ++ [arg]) := by
    simp [Value.symbols]
  simp only [callWith, Step.bind_apply, popValue_symbol, ha, Value.length_symbols]
  rw [Evaluation.supply]
  by_cases hl : (args ++ [arg]).length < fn.arity
  case pos =>
    rw [if_pos hl, if_pos hl]
    exact push_delivers (v := .partialCall fn _) (Value.known_partialCall_iff.mpr hk)
  case neg =>
    rw [if_neg hl, if_neg hl]
    have hc := fn.call_outcome (Value.symbols (args ++ [arg])) w.sink
    simp only [Step.bind_apply, onSink, Evaluation.bind_apply, Evaluation.onSink]
    generalize fn.call (Value.symbols (args ++ [arg])) w.sink = result at hc ⊢
    cases result
    case error e sink => exact ⟨⟨_, rfl, rfl⟩, Fault.isRuntime_of_isOperational hc⟩
    case ok s sink    =>
      refine ⟨?_, Value.known_ofScalar s, rfl⟩
      rw [Value.symbol_ofScalar hc]
      rfl

-- Applying anything but a closure is one transition.
theorem apply_delivers {fn arg : Value} (depth : Nat) (hf : fn.Known scopes) (ha : arg.Known scopes)
    (hc : ∀ c, fn ≠ .closure c) (he : ∀ c, fn ≠ .eta c) :
    Delivers scopes control stack frames current w
      (execute .gamma ⟨control, fn.symbol :: arg.symbol :: stack, frames, current, w.sink⟩)
      (fn.apply (depth + 1) arg w) := by
  cases fn
  case closure fn => exact absurd rfl (hc fn)
  case eta fn     => exact absurd rfl (he fn)
  case tuple vs   => exact select_delivers (Value.known_tuple_iff.mp hf) arg
  case yStar      => exact tie_delivers ha
  case builtin fn =>
    have h := @callWith_delivers control stack frames current scopes w fn [] arg (by simpa)
    cases fn <;> exact h
  case partialCall fn args =>
    refine callWith_delivers fn args arg fun v hv => ?_
    cases List.mem_append.mp hv
    case inl hv => exact Value.known_partialCall_iff.mp hf v hv
    case inr hv => exact List.mem_singleton.mp hv ▸ ha
  all_goals exact ⟨⟨_, rfl, rfl⟩, rfl⟩

-- The frame that a call of a closure is made in.
def frameOf (fn : Closure Value) (bindings : List (String × Value)) (index caller : Nat) :
    Frame where
  index    := index
  bindings := Value.shown bindings
  parent   := fn.scope.number
  caller   := caller

theorem enter_symbol (fn : Closure Value) (arg : Value) :
    enter fn.abstraction ⟨control, arg.symbol :: stack, frames, current, sink⟩ =
      match arg.bind fn.params with
      | .error e     => .error e ⟨control, stack, frames, current, sink⟩
      | .ok bindings =>
        .ok () ⟨.delta ⟨fn.label, fn.body.code⟩ :: .marker frames.size :: control,
          .marker frames.size :: stack, frames.push (frameOf fn bindings frames.size current),
          frames.size, sink⟩ := by
  have hm := Value.map_shown_bind fn.params arg
  simp only [enter, Step.bind_apply, popValue_symbol, Closure.abstraction]
  cases hb : arg.bind fn.params <;> cases hp : bindParameters fn.params arg.symbol <;>
    rw [hb, hp] at hm <;> cases hm <;> rfl

theorem leave_symbol {i : Nat} {frame : Frame} (hf : frames[i]? = some frame) (v : Value) :
    leave i ⟨control, v.symbol :: .marker i :: stack, frames, current, sink⟩ =
      .ok () ⟨control, v.symbol :: stack, frames.setIfInBounds i { frame with removed := true },
        frame.caller.getD current, sink⟩ := by
  simp [leave, popMarker, hf]

end Machine

end RpalMachine
