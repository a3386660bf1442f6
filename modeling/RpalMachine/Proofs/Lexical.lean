import RpalMachine.Proofs.FreeNames
import RpalMachine.Proofs.Refinement

namespace RpalMachine

variable {free : String → Prop}

def Scope.names (s : Scope α) : List String :=
  s.bindings.map (·.1)

-- Each name that is free in the body of a closure is a parameter of it, or bound in the scope that
-- it was made in, or else free in the program. The same goes for the closures in that scope.
inductive Closure.Lexical (free : String → Prop) : Closure Value → Prop
  | intro {fn : Closure Value} :
    (∀ x, fn.body.Free x → x ∈ fn.params ∨ x ∈ fn.scope.names ∨ free x) →
    (∀ b ∈ fn.scope.bindings, ∀ fn' ∈ b.2.closures, Lexical free fn') → Lexical free fn

def Value.Lexical (free : String → Prop) (v : Value) : Prop :=
  v.All (Closure.Lexical free)

-- The values in the scope hold no closures but such ones.
def Scope.Lexical (free : String → Prop) (s : Scope Value) : Prop :=
  ∀ b ∈ s.bindings, b.2.Lexical free

-- The scope binds what is free in the core, but for what is free in the program.
def Scope.Covers (free : String → Prop) (s : Scope Value) (c : Core) : Prop :=
  ∀ x, c.Free x → x ∈ s.names ∨ free x

-- A name that is reported as unbound is free in the program, and no function is named so.
def Fault.Lexical (free : String → Prop) : Fault → Prop
  | unbound x => Builtin.ofName? x = none ∧ free x
  | _         => True

theorem Fault.lexical_of_isOperational {e : Fault} (h : e.isOperational) : e.Lexical free := by
  cases e <;> trivial

-- If the computation ends, its result is as said, or its fault is lexical.
def Evaluation.Lexical (free : String → Prop) (p : α → Prop) (x : Evaluation α) : Prop :=
  ∀ w, match x w with
    | some (.ok a, _)    => p a
    | some (.error e, _) => e.Lexical free
    | none               => True

namespace Closure

variable {fn : Closure Value} {bindings : List (String × Value)} {n : Nat}

-- The scope of a call covers the body that is run in it.
theorem Lexical.covers (h : fn.Lexical free) (hb : ∀ x ∈ fn.params, ∃ b ∈ bindings, b.1 = x) :
    Scope.Covers free ⟨n, bindings ++ fn.scope.bindings⟩ fn.body := by
  obtain ⟨hx, -⟩ := h
  intro x hf
  simp only [Scope.names, List.map_append, List.mem_append, List.mem_map]
  match hx x hf with
  | .inl hp        => exact .inl (.inl (hb x hp))
  | .inr (.inl hs) => exact .inl (.inr (List.mem_map.mp hs))
  | .inr (.inr hx) => exact .inr hx

theorem Lexical.scope (h : fn.Lexical free) (hb : ∀ b ∈ bindings, b.2.Lexical free) :
    Scope.Lexical free ⟨n, bindings ++ fn.scope.bindings⟩ := by
  obtain ⟨-, hs⟩ := h
  exact fun b hm => (List.mem_append.mp hm).elim (hb b) (hs b)

-- A lambda makes a closure of the scope that it is evaluated in.
theorem lexical_of_covers {s : Scope Value} {id label : Nat} {params : List String} {body : Core}
    (hs : s.Lexical free) (hc : s.Covers free (.lambda id params label body)) :
    Lexical free ⟨id, params, label, body, s⟩ := by
  refine .intro (fun x hx => ?_) hs
  by_cases hp : x ∈ params
  case pos => exact .inl hp
  case neg => exact .inr (hc x (.lambda hp hx))

end Closure

-- There is a binding for every parameter.
theorem Value.exists_binding_of_mem {arg : Value} {params : List String} {x : String}
    {bindings : List (String × Value)} (h : arg.bind params = .ok bindings) (hx : x ∈ params) :
    ∃ b ∈ bindings, b.1 = x := by
  match params, arg with
  | [y], arg =>
    cases h
    exact ⟨(y, arg), .head _, (List.mem_singleton.mp hx).symm⟩
  | y :: z :: names, .tuple vs =>
    simp only [bind] at h
    split at h <;> cases h
    case _ hl =>
      rw [← List.map_fst_zip (Nat.le_of_eq hl.symm), List.mem_map] at hx
      obtain ⟨b, hb, he⟩ := hx
      exact ⟨b, List.mem_reverse.mpr hb, he⟩

namespace Evaluation

variable {p : α → Prop} {q : β → Prop}

namespace Lexical

theorem pure {a : α} (h : p a) : Lexical free p (Pure.pure a) :=
  fun _ => h

theorem throw {e : Fault} (h : e.Lexical free) : Lexical free p (MonadExcept.throw e) :=
  fun _ => h

theorem lift {result : Except Fault α} (h : Outcome p result) :
    Lexical free p (Evaluation.lift result) := by
  cases result
  case ok    => exact fun _ => h
  case error => exact fun _ => Fault.lexical_of_isOperational h

theorem bind {x : Evaluation α} {f : α → Evaluation β} (hx : Lexical free p x)
    (hf : ∀ a, p a → Lexical free q (f a)) : Lexical free q (x >>= f) := by
  intro w
  have hx := hx w
  rw [bind_apply]
  match x w, hx with
  | some (.ok a, w'), hx   => exact hf a hx w'
  | some (.error _, _), hx => exact hx
  | none, _                => trivial

end Lexical

variable {s : Scope Value} {x : String} {v : Value} {vs : List Value}

theorem lookup_lexical (hs : s.Lexical free) (hx : x ∈ s.names ∨ free x) :
    Lexical free (·.Lexical free) (lookup s x) := by
  rw [lookup]
  split
  case h_1 hl => exact .pure (hs _ (mem_of_lookup_eq_some hl))
  case h_2 hl =>
    split
    case h_1 => exact .pure (Value.all_of_closures_eq_nil rfl)
    case h_2 hb =>
      refine .throw ⟨hb, hx.resolve_left fun hm => ?_⟩
      obtain ⟨b, hm', rfl⟩ := List.mem_map.mp hm
      simpa using List.lookup_eq_none_iff.mp hl b hm'

theorem supply_lexical (fn : Builtin) (hv : ∀ v ∈ vs, v.Lexical free) :
    Lexical free (·.Lexical free) (supply fn vs) := by
  rw [supply]
  split
  case isTrue => exact .pure (Value.all_partialCall_iff.mpr hv)
  case isFalse =>
    intro w
    have hc := fn.call_outcome (Value.symbols vs) w.sink
    rw [bind_apply, onSink]
    generalize fn.call (Value.symbols vs) w.sink = result at hc ⊢
    cases result
    case ok s _    => exact Value.all_ofScalar s
    case error e _ => exact Fault.lexical_of_isOperational hc

end Evaluation

-- How applications are expected to go.
def AppliesLexically (free : String → Prop) (apply : Value → Value → Evaluation Value) : Prop :=
  ∀ {fn arg : Value}, fn.Lexical free → arg.Lexical free →
    (apply fn arg).Lexical free (·.Lexical free)

namespace Core

variable {apply : Value → Value → Evaluation Value} {s : Scope Value}

mutual

theorem eval_lexical (ha : AppliesLexically free apply) (hs : s.Lexical free) :
    (c : Core) → s.Covers free c → (c.eval apply s).Lexical free (·.Lexical free)
  | name x, hc => by
    rw [eval]
    exact Evaluation.lookup_lexical hs (hc x .name)
  | constant c, _ => by
    rw [eval]
    exact .pure (Value.all_ofConstant c)
  | lambda id params label body, hc => by
    rw [eval]
    exact .pure (Value.all_closure_iff.mpr (Closure.lexical_of_covers hs hc))
  | .apply fn arg, hc => by
    rw [eval]
    refine (eval_lexical ha hs arg fun x hx => hc x (.arg hx)).bind fun _ harg => ?_
    exact (eval_lexical ha hs fn fun x hx => hc x (.fn hx)).bind fun _ hfn => ha hfn harg
  | tuple elements, hc => by
    rw [eval]
    refine (forestEval_lexical ha hs elements fun c hm x hx => hc x (.element hm hx)).bind ?_
    exact fun _ hv => .pure (Value.all_tuple_iff.mpr hv)
  | unary op operand, hc => by
    rw [eval]
    refine (eval_lexical ha hs operand fun x hx => hc x (.operand hx)).bind fun v _ => ?_
    exact .lift (Value.unary_outcome op v)
  | binary op left right, hc => by
    rw [eval]
    refine (eval_lexical ha hs right fun x hx => hc x (.right hx)).bind fun _ hr => ?_
    refine (eval_lexical ha hs left fun x hx => hc x (.left hx)).bind fun _ hl => ?_
    exact .lift (Value.binary_outcome op hl hr)
  | conditional condition yesLabel yes noLabel no, hc => by
    rw [eval]
    refine (eval_lexical ha hs condition fun x hx => hc x (.condition hx)).bind fun _ _ => ?_
    split
    case h_1 => exact eval_lexical ha hs yes fun x hx => hc x (.yes hx)
    case h_2 => exact eval_lexical ha hs no fun x hx => hc x (.no hx)
    case h_3 => exact .throw trivial

theorem forestEval_lexical (ha : AppliesLexically free apply) (hs : s.Lexical free) :
    (cs : List Core) → (∀ c ∈ cs, s.Covers free c) →
      (forestEval apply s cs).Lexical free (∀ v ∈ ·, v.Lexical free)
  | [], _ => by
    rw [forestEval]
    exact .pure (by simp)
  | c :: cs, hc => by
    rw [List.forall_mem_cons] at hc
    rw [forestEval]
    refine (forestEval_lexical ha hs cs hc.2).bind fun vs hvs => ?_
    refine (eval_lexical ha hs c hc.1).bind fun v hv => ?_
    exact .pure (List.forall_mem_cons.mpr ⟨hv, hvs⟩)

end

end Core

namespace Value

-- A call evaluates the body of a closure in a scope of its own, whichever scope the call is in.
theorem closure_apply_lexical {depth : Nat} (ha : AppliesLexically free (apply depth))
    {fn : Closure Value} {arg : Value} (hf : fn.Lexical free) (hv : arg.Lexical free) :
    (apply (depth + 1) (.closure fn) arg).Lexical free (·.Lexical free) := by
  have ho := bind_outcome hv fn.params
  rw [apply]
  cases hb : arg.bind fn.params <;> rw [hb] at ho
  case error e => exact .throw (Fault.lexical_of_isOperational ho)
  case ok bindings =>
    intro w
    exact fn.body.eval_lexical ha (hf.scope ho) (hf.covers fun _ => exists_binding_of_mem hb) _

theorem apply_lexical : (depth : Nat) → AppliesLexically free (apply depth)
  | 0, _, _, _, _ => fun _ => trivial
  | depth + 1, fn, arg, hf, hv => by
    have ha : AppliesLexically free (apply depth) := apply_lexical depth
    cases fn
    case closure fn => exact closure_apply_lexical ha (all_closure_iff.mp hf) hv
    case eta fn =>
      have hc : (closure fn).Lexical free := hf
      exact (ha hc hf).bind fun _ hu => ha hu hv
    case tuple vs   => exact .lift (select_outcome (all_tuple_iff.mp hf) arg)
    case yStar      => exact .lift (tie_outcome hv)
    case builtin fn => exact Evaluation.supply_lexical fn (by simpa)
    case partialCall fn args =>
      refine Evaluation.supply_lexical fn fun v hm => ?_
      cases List.mem_append.mp hm
      case inl hm => exact all_partialCall_iff.mp hf v hm
      case inr hm => exact List.mem_singleton.mp hm ▸ hv
    all_goals exact .throw trivial

end Value

namespace Tree

variable {t : Tree} {core : Core} {limit : Nat} {sink out : Sink} {x : String}

-- Flushing the output reports no names.
theorem program_lexical (depth : Nat) (hc : Scope.empty.Covers free core) :
    (meaning?.program depth core).Lexical free (fun _ => True) := by
  refine (core.eval_lexical (Value.apply_lexical depth) (by simp [Scope.Lexical, Scope.empty])
    hc).bind fun v _ w => ?_
  simp only [Evaluation.onSink, Sink.flush]
  cases w.sink.flushes <;> trivial

-- What a machine ends with is what its core evaluates to.
theorem exists_program_of_outcome {label : Nat} {result : Except Fault Symbol} {final : Machine}
    (h : (Machine.start ⟨label, core.code⟩ sink).outcome? limit = some (result, final)) :
    ∃ depth w, meaning?.program depth core ⟨1, sink⟩ = some (result, w) := by
  have y := ends_of_yields core label (limit + 1)
    (core.eval_implements (Value.apply_applies (limit + 1)) (.initial sink) rfl)
  split at y
  case h_1 result' w hw =>
    obtain ⟨rfl, -⟩ := Machine.Ends.deterministic ⟨limit, final, h, rfl⟩ y
    exact ⟨_, w, hw⟩
  case h_2 =>
    have ⟨m', hr⟩ := y
    simp [Machine.outcome?, hr.run_eq_none (Nat.lt_succ_self limit)] at h

-- Neither removing the sugar nor numbering makes a name free.
theorem exists_core_of_load {m : Machine} (h : t.load sink = .ok m) :
    ∃ (core : Core) (label : Nat), m = .start ⟨label, core.code⟩ sink ∧
      ∀ x, core.Free x → Free x t := by
  obtain ⟨s, n, hs, hm⟩ := load_eq_ok_iff.mp h
  obtain ⟨core, k, hn, rfl, -⟩ := machine_eq_ok_iff.mp hm
  exact ⟨core, k.nextBlock, rfl, fun x hx => hs.free_iff.mp ((elaborates_of_number s hn).free hx)⟩

theorem free_of_evaluate_eq_unbound
    (h : t.evaluate limit sink = some (.error (.unbound x), out)) :
    Builtin.ofName? x = none ∧ Free x t := by
  rw [evaluate] at h
  split at h
  case h_1 => cases h
  case h_2 m hm =>
    obtain ⟨core, label, rfl, hc⟩ := exists_core_of_load hm
    obtain ⟨⟨_, final⟩, ho, he⟩ := Option.map_eq_some_iff.mp h
    cases he
    obtain ⟨depth, w, hp⟩ := exists_program_of_outcome ho
    have hl : (meaning?.program depth core).Lexical (Free · t) (fun _ => True) :=
      program_lexical depth fun x hx => .inr (hc x hx)
    have hl := hl ⟨1, sink⟩
    rwa [hp] at hl

-- Only a name that is free in the program, and that no function has, is ever reported as unbound.
-- If functions are all that a program leaves free, it reports none.
theorem evaluate_lexical (t : Tree) :
    (∀ limit sink x out, t.evaluate limit sink = some (.error (.unbound x), out) →
      Builtin.ofName? x = none ∧ Free x t) ∧
    ((∀ x, Free x t → (Builtin.ofName? x).isSome) →
      ∀ limit sink x out, t.evaluate limit sink ≠ some (.error (.unbound x), out)) := by
  constructor
  case left => exact fun _ _ _ _ => free_of_evaluate_eq_unbound
  case right =>
    intro hb limit sink x out h
    have ⟨hn, hf⟩ := free_of_evaluate_eq_unbound h
    have hx := hb x hf
    rw [hn] at hx
    contradiction

-- A function that is called where the name in its body is bound, but that was not made there.
def callerOnly : Tree :=
  form .letIn [equal (.name "f") (lambda (.name "y") (.name "w")),
    form .letIn [equal (.name "w") (.leaf (.integer 1)),
      apply (.name "f") (.leaf (.integer 2))]]

theorem callerOnly_lexical :
    callerOnly.evaluate 100 {} = some (.error (.unbound "w"), {}) ∧ Free "w" callerOnly :=
  ⟨rfl, ((evaluate_lexical callerOnly).1 100 {} "w" {} rfl).2⟩

end Tree

end RpalMachine
