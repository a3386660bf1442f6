import RpalMachine.Proofs.Admission
import RpalMachine.Proofs.Safety
import RpalMachine.Proofs.Steps

namespace RpalMachine

namespace Sink

variable {sink s : Sink} {data more : List UInt8} {capacity : Nat} {e : SinkFault}

theorem write_of_unlimited (hc : sink.capacity = none) :
    write data sink = .ok () { sink with written := sink.written ++ data } := by
  rw [write, hc]

theorem write_of_le (hc : sink.capacity = some capacity)
    (h : sink.written.length + data.length ≤ capacity) :
    write data sink = .ok () { sink with written := sink.written ++ data } := by
  have h : data.length ≤ capacity - sink.written.length := by omega
  simp only [write, hc, List.take_of_length_le h, if_true]

theorem write_of_lt (hc : sink.capacity = some capacity)
    (h : capacity < sink.written.length + data.length) (hw : sink.written.length ≤ capacity) :
    write data sink = .error .full
      { sink with written := sink.written ++ data.take (capacity - sink.written.length) } := by
  have h : (data.take (capacity - sink.written.length)).length ≠ data.length := by
    rw [List.length_take]
    omega
  simp only [write, hc, h, if_false]

theorem write_nil : write [] sink = .ok () sink := by
  cases sink
  simp only [write, List.take_nil, List.append_nil, if_true]
  split <;> rfl

-- Bytes can be written piece by piece.
theorem write_append_of_ok (h : write data sink = .ok () s) :
    write (data ++ more) sink = write more s := by
  cases hc : sink.capacity
  case none =>
    cases (write_of_unlimited hc).symm.trans h
    simp [write, hc]
  case some capacity =>
    simp only [write, hc] at h
    split at h <;> cases h
    case isTrue hl =>
      have hl : data.length ≤ capacity - sink.written.length := by
        rw [List.length_take] at hl
        omega
      simp [write, hc, List.take_append, List.take_of_length_le hl, Nat.sub_sub]

theorem write_append_of_error (h : write data sink = .error e s) :
    write (data ++ more) sink = .error e s := by
  cases hc : sink.capacity
  case none => simp [write, hc] at h
  case some capacity =>
    simp only [write, hc] at h
    split at h <;> cases h
    case isFalse hl =>
      have hl : capacity - sink.written.length < data.length := by
        rw [List.length_take] at hl
        omega
      have hm : min (capacity - sink.written.length) data.length ≠ data.length + more.length := by
        omega
      simp [write, hc, List.take_append_of_le_length hl.le, hm]

-- What is stored, and whether that is all, does not depend on whether the output can be flushed.
theorem exists_write (data : List UInt8) (sink : Sink) : ∃ written,
    (∀ flushes, write data { sink with flushes } = .ok () { sink with written, flushes }) ∨
      ∀ flushes, write data { sink with flushes } =
        .error .full { sink with written, flushes } := by
  cases hc : sink.capacity
  case none => exact ⟨sink.written ++ data, .inl fun _ => by simp only [write]⟩
  case some capacity =>
    let fitting := data.take (capacity - sink.written.length)
    refine ⟨sink.written ++ fitting, ?_⟩
    by_cases hl : fitting.length = data.length
    case pos => exact .inl fun _ => by simp only [write, hl, fitting, if_true]
    case neg => exact .inr fun _ => by simp only [write, hl, fitting, if_false]

end Sink

-- Only what prints writes anything.
theorem Builtin.call_of_not_print {fn : Builtin} {args : List Symbol}
    (h : ¬ ∃ x, fn = .print ∧ args = [x]) (sink : Sink) : fn.call args sink =
      match fn.value args with | .ok v => .ok v sink | .error e => .error e sink := by
  unfold call
  split
  case h_1 x => exact absurd ⟨x, rfl, rfl⟩ h
  case h_2   => rfl

namespace Step

-- The same, but for the output.
def withSink (sink : Sink) : EStateM.Result Fault Machine α → EStateM.Result Fault Machine α
  | .ok a m    => .ok a { m with sink }
  | .error e m => .error e { m with sink }

def sinkOf : EStateM.Result Fault Machine α → Sink
  | .ok _ m | .error _ m => m.sink

@[simp]
theorem sinkOf_withSink (sink : Sink) (r : EStateM.Result Fault Machine α) :
    sinkOf (withSink sink r) = sink := by
  cases r <;> rfl

-- What becomes of a step that would end as given after having written the bytes. It stops where the
-- output does not take them.
inductive Writes (data : List UInt8) (r : EStateM.Result Fault Machine α) (sink : Sink) :
    EStateM.Result Fault Machine α → Prop
  | stored {s : Sink} : Sink.write data sink = .ok () s → Writes data r sink (withSink s r)
  | refused {e : SinkFault} {m : Machine} :
    Sink.write data sink = .error e m.sink →
      Writes data r sink (.error (.evaluation (.print e)) m)

namespace Writes

variable {data more : List UInt8} {sink : Sink} {e : Fault} {a : α} {m m' : Machine}
variable {r : EStateM.Result Fault Machine α} {r' : EStateM.Result Fault Machine β}
variable {x : Step α} {f : α → Step β}

theorem silent : Writes [] r sink (withSink sink r) :=
  .stored Sink.write_nil

theorem bind_error (w : Writes data (.error e m) sink (x m')) :
    Writes data (.error e m) sink ((x >>= f) m') := by
  rw [bind_apply]
  generalize x m' = y at w
  cases w
  case stored h  => exact .stored h
  case refused h => exact .refused h

theorem bind_ok (w : Writes data (.ok a m) sink (x m'))
    (hf : ∀ sink, Writes more r' sink (f a { m with sink })) :
    Writes (data ++ more) r' sink ((x >>= f) m') := by
  rw [bind_apply]
  generalize x m' = y at w
  cases w
  case refused h => exact .refused (Sink.write_append_of_error h)
  case stored s h =>
    have w := hf s
    simp only [withSink]
    generalize f a { m with sink := s } = y at w
    cases w
    case stored h'  => exact .stored ((Sink.write_append_of_ok h).trans h')
    case refused h' => exact .refused ((Sink.write_append_of_ok h).trans h')

end Writes

-- What the step writes, and how it ends if that is taken, is the same for every output.
def Appends (x : Step α) : Prop :=
  ∀ m : Machine, ∃ data r, ∀ sink, Writes data r sink (x { m with sink })

namespace Appends

theorem bind {x : Step α} {f : α → Step β} (hx : x.Appends) (hf : ∀ a, (f a).Appends) :
    (x >>= f).Appends := by
  intro m
  have ⟨data, r, hx⟩ := hx m
  cases r
  case error e m₁ => exact ⟨data, .error e m₁, fun sink => (hx sink).bind_error⟩
  case ok a m₁ =>
    have ⟨more, r, hf⟩ := hf a m₁
    exact ⟨data ++ more, r, fun sink => (hx sink).bind_ok hf⟩

-- Most steps neither write nor look at the output.
theorem of_withSink {x : Step α} (h : ∀ m sink, x { m with sink } = withSink sink (x m)) :
    x.Appends :=
  fun m => ⟨[], x m, fun sink => h m sink ▸ .silent⟩

theorem popValue (task : String) : (Machine.popValue task).Appends := by
  refine of_withSink fun m sink => ?_
  simp only [Machine.popValue]
  split <;> rfl

theorem popMarker (i : Nat) : (Machine.popMarker i).Appends := by
  refine of_withSink fun m sink => ?_
  simp only [Machine.popMarker]
  split
  case h_1 => rfl
  case h_2 => split <;> rfl

theorem choose (condition : Bool) : (Machine.choose condition).Appends := by
  refine of_withSink fun m sink => ?_
  simp only [Machine.choose]
  split <;> rfl

theorem closeFrame (i : Nat) : (Machine.closeFrame i).Appends := by
  refine of_withSink fun m sink => ?_
  simp only [Machine.closeFrame]
  split <;> rfl

theorem call (fn : Builtin) (args : List Symbol) : (Machine.onSink (fn.call args)).Appends := by
  intro m
  by_cases h : ∃ x, fn = .print ∧ args = [x]
  case pos =>
    obtain ⟨x, rfl, rfl⟩ := h
    refine ⟨Builtin.printed x, .ok .dummy m, fun sink => ?_⟩
    simp only [Machine.onSink, Builtin.call]
    cases hw : Sink.write (Builtin.printed x) sink
    case ok    => exact .stored hw
    case error => exact .refused hw
  case neg =>
    have hc := Builtin.call_of_not_print h
    cases hv : fn.value args
    case ok v =>
      exact ⟨[], .ok v m, fun _ => by simpa [Machine.onSink, hc, hv] using .silent⟩
    case error e =>
      exact ⟨[], .error e m, fun _ => by simpa [Machine.onSink, hc, hv] using .silent⟩

theorem compositional : Step.Compositional @Step.Appends where
  bind           := bind
  pure _         := of_withSink fun _ _ => rfl
  throw _        := of_withSink fun _ _ => rfl
  look h m       := h m.frames m.current m
  push _         := of_withSink fun _ _ => rfl
  schedule _     := of_withSink fun _ _ => rfl
  popValue       := popValue
  popMarker      := popMarker
  choose         := choose
  openFrame _ _ _ := of_withSink fun _ _ => rfl
  closeFrame     := closeFrame
  call           := call

end Appends

end Step

namespace Machine

-- Makes transitions until the control is empty, and tells whether it came to that within as many as
-- are allowed.
def exhaust : (limit : Nat) → Step Bool
  | 0, m => .ok m.control.isEmpty m
  | limit + 1, m =>
    match m.control with
    | []        => .ok true m
    | x :: rest => (execute x >>= fun _ => exhaust limit) { m with control := rest }

-- What a run has come to when it is over.
def reached : EStateM.Result Fault Machine Bool → Option (Except Fault Symbol)
  | .ok true m  => m.stack.head?.map .ok
  | .ok false _ => none
  | .error e _  => some (.error e)

@[simp]
theorem reached_withSink (sink : Sink) (r : EStateM.Result Fault Machine Bool) :
    reached (Step.withSink sink r) = reached r :=
  match r with
  | .ok true _ | .ok false _ | .error _ _ => rfl

variable {m m' : Machine} {limit : Nat}

-- A run is that, and then the output is flushed.
theorem run_eq_exhaust (limit : Nat) (m : Machine) : m.run limit =
    match exhaust limit m with
    | .ok true m  => some (finish m)
    | .ok false _ => none
    | .error e m  => some (.error e m) := by
  induction limit generalizing m
  case zero =>
    simp only [run, exhaust]
    cases m.control.isEmpty <;> rfl
  case succ limit hi =>
    cases hc : m.control
    case nil => simp only [run, exhaust, step?, hc]
    case cons x rest =>
      simp only [run, exhaust, step?, hc, Step.bind_apply]
      cases execute x { m with control := rest }
      case ok    => exact hi _
      case error => rfl

theorem reaches_of_exhaust (h : exhaust limit m = .ok true m') :
    ∃ k, m.Reaches k m' ∧ m'.control = [] := by
  induction limit generalizing m
  case zero =>
    have ⟨hc, hm⟩ : m.control.isEmpty = true ∧ m = m' := by simpa [exhaust] using h
    subst hm
    exact ⟨0, .refl _, List.isEmpty_iff.mp hc⟩
  case succ limit hi =>
    simp only [exhaust] at h
    split at h
    case h_1 hc =>
      cases h
      exact ⟨0, .refl _, hc⟩
    case h_2 x rest hc =>
      rw [Step.bind_apply] at h
      split at h
      case h_2 => contradiction
      case h_1 hx =>
        have ⟨k, r, hm⟩ := hi h
        exact ⟨k + 1, .step (by simp [step?, hc, hx]) r, hm⟩

-- All that a run does to the output is to add to it.
theorem exhaust_appends (limit : Nat) : (exhaust limit).Appends := by
  induction limit
  case zero => exact .of_withSink fun _ _ => rfl
  case succ limit hi =>
    intro ⟨control, stack, frames, current, sink⟩
    cases control
    case nil => exact ⟨[], .ok true ⟨[], stack, frames, current, sink⟩, fun _ => .silent⟩
    case cons x rest =>
      exact (Step.Appends.compositional.execute x).bind (fun _ => hi)
        ⟨rest, stack, frames, current, sink⟩

-- Only the output can refuse to end with a value that is there.
theorem finish_of_value {v : Value} (h : m.stack = [v.symbol]) : m.finish =
    match Sink.flush m.sink with
    | .ok () _   => .ok v.symbol { m with stack := [] }
    | .error e _ => .error (.evaluation (.flush e)) m := by
  rw [finish]
  cases Sink.flush m.sink
  case error => rfl
  case ok    => rw [h]; cases v <;> rfl

end Machine

namespace Sink

-- What becomes of an outcome when the output is flushed.
def flushed (sink : Sink) : Except Fault Symbol → Except Fault Symbol
  | .ok v    =>
    match flush sink with
    | .ok () _   => .ok v
    | .error e _ => .error (.evaluation (.flush e))
  | .error e => .error e

@[simp]
theorem flushed_eq_self (written : List UInt8) (capacity : Option Nat) (r : Except Fault Symbol) :
    flushed { written, capacity } r = r := by
  cases r <;> rfl

-- What is seen of a program with this output, if it writes the bytes before it comes to an outcome.
def observe (data : List UInt8) (outcome? : Option (Except Fault Symbol)) (sink : Sink) :
    Option (Except Fault Symbol × Sink) :=
  match write data sink with
  | .ok () sink   => outcome?.map fun r => (sink.flushed r, sink)
  | .error e sink => some (.error (.evaluation (.print e)), sink)

variable {data : List UInt8} {outcome? : Option (Except Fault Symbol)} {capacity : Nat}

theorem observe_unlimited :
    observe data outcome? {} = outcome?.map fun r => (r, { written := data }) := by
  simp [observe, write]

theorem observe_of_le (h : data.length ≤ capacity) :
    observe data outcome? { capacity := some capacity } =
      outcome?.map fun r => (r, { written := data, capacity := some capacity }) := by
  have hw : write data { capacity := some capacity } =
      .ok () { written := data, capacity := some capacity } :=
    write_of_le rfl (by simpa using h)
  simp [observe, hw]

theorem observe_of_lt (h : capacity < data.length) :
    observe data outcome? { capacity := some capacity } =
      some (.error (.evaluation (.print .full)),
        { written := data.take capacity, capacity := some capacity }) := by
  have hw : write data { capacity := some capacity } =
      .error .full { written := data.take capacity, capacity := some capacity } :=
    write_of_lt rfl (by simpa using h) (Nat.zero_le _)
  simp [observe, hw]

theorem observe_refusing (capacity : Option Nat) :
    observe data outcome? { capacity, flushes := false } =
      (observe data outcome? { capacity }).map fun (r, s) =>
        (flushed { flushes := false } r, { s with flushes := false }) := by
  have ⟨written, h⟩ := exists_write data { capacity }
  cases h
  case inl h =>
    simp only [observe, h true, h false, Option.map_map]
    congr 1
    funext r
    cases r <;> rfl
  case inr h =>
    simp only [observe, h true, h false]
    rfl

end Sink

namespace Tree

variable {t : Tree} {m : Machine} {limit : Nat} {r : Except Fault Symbol} {out : Sink}

theorem load_eq (t : Tree) (sink : Sink) : t.load sink = (t.load {}).map ({ · with sink }) := by
  simp only [load, machine]
  cases t.desugar
  case error => rfl
  case ok core =>
    simp only [bind, Except.bind]
    cases core.block {} <;> rfl

-- When a program has been run to its end there is a value.
theorem exists_value_of_exhaust {final : Machine} (h : t.load sink = .ok m)
    (he : m.exhaust limit = .ok true final) : ∃ v : Value, final.stack = [v.symbol] := by
  have ⟨core, n, _, accepted⟩ := load_eq_ok_iff.mp h
  have ⟨_, reaches, hc⟩ := Machine.reaches_of_exhaust he
  have ⟨_, _, s⟩ := sound_of_reaches accepted reaches
  exact (s.balanced.of_nil hc).2

theorem evaluate_eq_exhaust (h : t.load sink = .ok m) (limit : Nat) : t.evaluate limit sink =
    let r := m.exhaust limit
    (Machine.reached r).map fun result => ((Step.sinkOf r).flushed result, Step.sinkOf r) := by
  simp only [evaluate, h, Machine.outcome?, Machine.run_eq_exhaust]
  cases he : m.exhaust limit
  case error => rfl
  case ok b final =>
    cases b
    case false => rfl
    case true  =>
      obtain ⟨v, hv⟩ := exists_value_of_exhaust h he
      simp only [Machine.finish_of_value hv, Machine.reached, hv, Step.sinkOf]
      cases hf : Sink.flush final.sink <;> simp [Sink.flushed, hf]

-- A program writes the same and comes to the same outcome whatever the output is like.
theorem exists_observe (t : Tree) (limit : Nat) :
    ∃ data outcome?, ∀ sink, t.evaluate limit sink = sink.observe data outcome? := by
  cases hm : t.load {}
  case error e =>
    refine ⟨[], some (.error (.shape e)), fun sink => ?_⟩
    simp only [evaluate, load_eq t sink, hm, Except.map, Sink.observe, Sink.write_nil]
    rfl
  case ok m =>
    have hm (sink : Sink) : t.load sink = .ok { m with sink } := by rw [load_eq, hm]; rfl
    obtain ⟨data, r, h⟩ := Machine.exhaust_appends limit m
    refine ⟨data, Machine.reached r, fun sink => ?_⟩
    have w := h sink
    simp only [evaluate_eq_exhaust (hm sink) limit, Sink.observe]
    generalize Machine.exhaust limit { m with sink } = x at w
    cases w
    case stored hs  => simp [hs]
    case refused hs => simp [hs, Machine.reached, Step.sinkOf, Sink.flushed]

-- What is seen without a limit tells what is seen with any output.
theorem evaluate_eq_observe (h : t.evaluate limit {} = some (r, out)) (sink : Sink) :
    t.evaluate limit sink = sink.observe out.written (some r) := by
  have ⟨data, outcome?, ho⟩ := exists_observe t limit
  rw [ho, Sink.observe_unlimited, Option.map_eq_some_iff] at h
  have ⟨_, hr, he⟩ := h
  cases he
  rw [ho, hr]

-- What a program writes and comes to shows with any output. One with room for all of it makes no
-- difference, one with less room holds the beginning of it and the program fails, and one that is
-- refused to be flushed takes nothing away but the value.
theorem evaluate_with_output :
    (∀ r out, t.evaluate limit {} = some (r, out) → ∀ capacity,
      (out.written.length ≤ capacity →
        t.evaluate limit { capacity := some capacity } =
          some (r, { written := out.written, capacity := some capacity })) ∧
      (capacity < out.written.length →
        t.evaluate limit { capacity := some capacity } =
          some (.error (.evaluation (.print .full)),
            { written := out.written.take capacity, capacity := some capacity }))) ∧
    (∀ capacity r out, t.evaluate limit { capacity } = some (r, out) →
      t.evaluate limit { capacity, flushes := false } =
        some (match r with
          | .ok _    => .error (.evaluation (.flush .flushRefused))
          | .error e => .error e, { out with flushes := false })) := by
  have ⟨data, outcome?, h⟩ := exists_observe t limit
  simp only [h]
  constructor
  case left =>
    intro r out hr capacity
    have hr : outcome? = some r ∧ out.written = data := by
      rw [Sink.observe_unlimited, Option.map_eq_some_iff] at hr
      have ⟨_, ho, he⟩ := hr
      cases he
      exact ⟨ho, rfl⟩
    have ⟨ho, hd⟩ := hr
    subst hd
    exact ⟨fun hc => by rw [Sink.observe_of_le hc, ho]; rfl, Sink.observe_of_lt⟩
  case right =>
    intro capacity r out hr
    rw [Sink.observe_refusing, hr]
    rfl

example : (Fault.evaluation (.print .full)).message = "EvaluationError: Print failed: sink full" :=
  rfl

-- A program that prints two letters.
def greeting : Tree :=
  apply (name "Print") (node (.leaf (.string "hi")) [])

theorem greeting_with_output :
    greeting.evaluate 9 {} = some (.ok .dummy, { written := [104, 105] }) ∧
      greeting.evaluate 9 { capacity := some 1 } =
        some (.error (.evaluation (.print .full)), { written := [104], capacity := some 1 }) ∧
      greeting.evaluate 9 { flushes := false } =
        some (.error (.evaluation (.flush .flushRefused)),
          { written := [104, 105], flushes := false }) :=
  have h : greeting.evaluate 9 {} = some (.ok .dummy, { written := [104, 105] }) := rfl
  ⟨h, (evaluate_with_output.1 _ _ h 1).2 (by decide), evaluate_with_output.2 none _ _ h⟩

end Tree

end RpalMachine
