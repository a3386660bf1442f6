import RpalMachine.Proofs.Output

namespace RpalMachine

namespace Machine

-- The machine as it was, but for what was taken off the stack.
structure Popped (m m' : Machine) : Prop where
  control : m'.control = m.control
  stack   : m'.stack <:+ m.stack
  frames  : m'.frames = m.frames
  current : m'.current = m.current
  sink    : m'.sink = m.sink

namespace Popped

variable {m m' m'' : Machine}

theorem refl : m.Popped m :=
  ⟨rfl, List.suffix_refl _, rfl, rfl, rfl⟩

theorem trans (h : m.Popped m') (h' : m'.Popped m'') : m.Popped m'' :=
  ⟨h'.control.trans h.control, h'.stack.trans h.stack, h'.frames.trans h.frames,
    h'.current.trans h.current, h'.sink.trans h.sink⟩

end Popped

end Machine

namespace Step

def machineOf : EStateM.Result Fault Machine α → Machine
  | .ok _ m | .error _ m => m

-- The step does nothing but to take symbols off the stack, whether it fails or not.
def Pops (x : Step α) : Prop :=
  ∀ m : Machine, m.Popped (machineOf (x m))

-- The step has done nothing else if it fails.
def Recoils (x : Step α) : Prop :=
  ∀ {m : Machine} {e : Fault} {m' : Machine}, x m = .error e m' → m.Popped m'

-- The step does not fail.
def Succeeds (x : Step α) : Prop :=
  ∀ m, ∃ a m', x m = .ok a m'

theorem Succeeds.not_error {x : Step α} (h : x.Succeeds) {m m' : Machine} {e : Fault} :
    x m ≠ .error e m' := by
  obtain ⟨a, m'', hm⟩ := h m
  exact fun he => nomatch hm.symm.trans he

namespace Pops

theorem pure (a : α) : (Pure.pure a : Step α).Pops :=
  fun _ => .refl

theorem throw (e : Fault) : (MonadExcept.throw e : Step α).Pops :=
  fun _ => .refl

theorem bind {x : Step α} {f : α → Step β} (hx : x.Pops) (hf : ∀ a, (f a).Pops) :
    (x >>= f).Pops := by
  intro m
  have hx := hx m
  rw [bind_apply]
  cases h : x m <;> rw [h] at hx
  case ok a m'    => exact hx.trans (hf a m')
  case error e m' => exact hx

theorem lift (result : Except Fault α) : (Machine.lift result).Pops := by
  cases result
  case ok a    => exact pure a
  case error e => exact throw e

theorem of_tail {m : Machine} {x : Symbol} {rest : List Symbol} (h : m.stack = x :: rest) :
    m.Popped { m with stack := rest } :=
  ⟨rfl, h ▸ List.suffix_cons x rest, rfl, rfl, rfl⟩

theorem popValue (task : String) : (Machine.popValue task).Pops := by
  intro m
  rw [Machine.popValue]
  split
  case h_1   => exact .refl
  case h_2 h => exact of_tail h
  case h_3 h => exact of_tail h

theorem popValues (task : String) : (n : Nat) → (Machine.popValues task n).Pops
  | 0     => pure []
  | n + 1 => bind (popValue task) fun _ => bind (popValues task n) fun _ => pure _

theorem popMarker (index : Nat) : (Machine.popMarker index).Pops := by
  intro m
  rw [Machine.popMarker]
  split
  case h_1 => exact .refl
  case h_2 h =>
    split
    case isTrue  => exact of_tail h
    case isFalse => exact of_tail h

end Pops

namespace Recoils

variable {x : Step α} {f : α → Step β}

theorem throw (e : Fault) : (MonadExcept.throw e : Step α).Recoils := by
  intro _ _ _ h
  cases h
  exact .refl

theorem of_succeeds (h : x.Succeeds) : x.Recoils :=
  fun hx => (h.not_error hx).elim

-- Nothing has been done yet when the second step fails.
theorem bind (hx : x.Pops) (hf : ∀ a, (f a).Recoils) : (x >>= f).Recoils := by
  intro m e m' h
  have hx := hx m
  rw [bind_apply] at h
  cases hm : x m <;> rw [hm] at h hx
  case ok a m'' => exact hx.trans (hf a h)
  case error    => cases h; exact hx

-- Only the first step can fail.
theorem andThen (hx : x.Recoils) (hf : ∀ a, (f a).Succeeds) : (x >>= f).Recoils := by
  intro m e m' h
  rw [bind_apply] at h
  cases hm : x m <;> rw [hm] at h
  case ok a m'' => exact ((hf a).not_error h).elim
  case error    => cases h; exact hx hm

theorem push (x : Symbol) : (Machine.push x).Recoils :=
  of_succeeds fun _ => ⟨_, _, rfl⟩

theorem schedule (code : List Symbol) : (Machine.schedule code).Recoils :=
  of_succeeds fun _ => ⟨_, _, rfl⟩

theorem closeFrame (index : Nat) : (Machine.closeFrame index).Recoils := by
  intro m e m' h
  rw [Machine.closeFrame] at h
  split at h <;> cases h
  exact .refl

theorem choose (condition : Bool) : (Machine.choose condition).Recoils := by
  intro m e m' h
  rw [Machine.choose] at h
  split at h <;> cases h
  exact .refl

theorem load (x : String) : (Machine.load x).Recoils := by
  have h (frames : Array Frame) (current : Nat) :
      (Machine.resolve x frames current).Recoils := by
    rw [Machine.resolve]
    split
    case h_1 => exact push _
    case h_2 =>
      split
      case isTrue  => exact push _
      case isFalse => exact throw _
  exact fun {m _ _} hm => h m.frames m.current hm

theorem close (fn : Abstraction Symbol) : (Machine.close fn).Recoils :=
  of_succeeds fun _ => ⟨_, _, rfl⟩

theorem enter (fn : Abstraction Symbol) : (Machine.enter fn).Recoils := by
  refine bind (.popValue _) fun arg => ?_
  split
  case h_1 => exact throw _
  case h_2 =>
    split
    case h_1 => exact throw _
    case h_2 => exact of_succeeds fun _ => ⟨_, _, rfl⟩

theorem leave (index : Nat) : (Machine.leave index).Recoils := by
  rw [Machine.leave_eq]
  exact bind (.popValue _) fun _ => bind (.popMarker index) fun _ =>
    andThen (closeFrame index) fun _ _ => ⟨_, _, rfl⟩

theorem select (elements : List Symbol) : (Machine.select elements).Recoils := by
  refine bind (.popValue _) fun arg => ?_
  split
  case h_2 => exact throw _
  case h_1 =>
    split
    case isFalse => exact throw _
    case isTrue =>
      split
      case h_1 => exact push _
      case h_2 => exact throw _

theorem tie : Machine.tie.Recoils := by
  refine bind (.popValue _) fun arg => ?_
  split
  case h_1 => exact push _
  case h_2 => exact throw _

theorem unroll (fn : Abstraction Symbol) : (Machine.unroll fn).Recoils :=
  of_succeeds fun _ => ⟨_, _, rfl⟩

theorem branch : Machine.branch.Recoils := by
  refine bind (.popValue _) fun condition => ?_
  split
  case h_1 => exact choose _
  case h_2 => exact throw _

-- Nothing but an application can write to the output.
theorem execute {x : Symbol} (hx : x ≠ .gamma) : (Machine.execute x).Recoils := by
  cases x
  case gamma        => contradiction
  case identifier x => exact load x
  case lambda fn    => exact close fn
  case marker i     => exact leave i
  case beta         => exact branch
  case delta block  => exact schedule _
  case test code    => exact schedule _
  case tau n        => exact bind (.popValues _ n) fun _ => push _
  case unary op     => exact bind (.popValue _) fun _ => bind (.lift _) fun _ => push _
  case binary op    =>
    exact bind (.popValue _) fun _ => bind (.popValue _) fun _ => bind (.lift _) fun _ => push _
  all_goals exact push _

end Recoils

end Step

-- What `Print` is when it is applied.
def Symbol.IsPrint (x : Symbol) : Prop :=
  x = .identifier Builtin.print.name ∨ x = .partialCall .print []

namespace Machine

-- The symbols were taken off the stack, and the output has not taken what the value is printed as.
structure PrintFails (taken : List Symbol) (v : Symbol) (m : Machine) (e : Fault) (m' : Machine) :
    Prop where
  control : m'.control = m.control
  stack   : m.stack = taken ++ m'.stack
  frames  : m'.frames = m.frames
  current : m'.current = m.current
  fault   : ∃ fault, e = .evaluation (.print fault) ∧
    Sink.write (Builtin.printed v) m.sink = .error fault m'.sink

section

variable {m m' m'' : Machine} {e : Fault} {v x : Symbol} {fn : Builtin} {args : List Symbol}
  {task : String}

theorem of_popValue (h : popValue task m = .ok x m') :
    m' = { m with stack := m'.stack } ∧ m.stack = x :: m'.stack := by
  rw [popValue] at h
  split at h <;> cases h
  case h_3 hs => exact ⟨rfl, hs⟩

theorem PrintFails.of_popValue {taken : List Symbol} (hp : m'.PrintFails taken v e m'')
    (h : popValue task m = .ok x m') : m.PrintFails (x :: taken) v e m'' := by
  obtain ⟨hr, hs⟩ := Machine.of_popValue h
  rw [hr] at hp
  exact { hp with stack := by rw [hs, hp.stack, List.cons_append] }

-- A call that is not one of `Print` with its argument has done nothing to the output.
theorem call_error {sink sink' : Sink} (h : fn.call args sink = .error e sink') :
    sink' = sink ∨ ∃ v fault, fn = .print ∧ args = [v] ∧ e = .evaluation (.print fault) ∧
      Sink.write (Builtin.printed v) sink = .error fault sink' := by
  by_cases hp : ∃ v, fn = .print ∧ args = [v]
  case pos =>
    obtain ⟨v, rfl, rfl⟩ := hp
    refine .inr ⟨v, ?_⟩
    simp only [Builtin.call] at h
    cases hw : Sink.write (Builtin.printed v) sink <;> rw [hw] at h <;> cases h
    exact ⟨_, rfl, rfl, rfl, rfl⟩
  case neg =>
    rw [Builtin.call_of_not_print hp] at h
    cases hv : fn.value args <;> rw [hv] at h <;> cases h
    exact .inl rfl

theorem callWith_error (h : callWith fn args m = .error e m') :
    m.Popped m' ∨ fn = .print ∧ args = [] ∧ ∃ v, m.PrintFails [v] v e m' := by
  have hm := Step.Pops.popValue fn.name m
  rw [callWith, Step.bind_apply] at h
  cases hv : popValue fn.name m <;> rw [hv] at h hm
  case error => cases h; exact .inl hm
  case ok v m₁ =>
    dsimp only at h
    split at h
    case isTrue => cases h
    case isFalse =>
      rw [Step.bind_apply, onSink] at h
      cases hc : fn.call (args ++ [v]) m₁.sink <;> rw [hc] at h <;> cases h
      case error sink =>
      obtain rfl | ⟨w, fault, hf, ha, he, hw⟩ := call_error hc
      case inl => exact .inl hm
      case inr =>
        obtain ⟨rfl, rfl⟩ : args = [] ∧ v = w := by simpa [List.append_eq_singleton_iff] using ha
        have hp : m₁.PrintFails [] v e { m₁ with sink } :=
          ⟨rfl, rfl, rfl, rfl, fault, he, hw⟩
        exact .inr ⟨hf, rfl, v, hp.of_popValue hv⟩

theorem apply_error (h : apply m = .error e m') :
    m.Popped m' ∨ ∃ fn v, fn.IsPrint ∧ m.PrintFails [fn, v] v e m' := by
  have hm := Step.Pops.popValue "gamma" m
  rw [apply, Step.bind_apply] at h
  cases hv : popValue "gamma" m <;> rw [hv] at h hm
  case error => cases h; exact .inl hm
  case ok x m₁ =>
    have hcall {fn : Builtin} {args : List Symbol} (h : callWith fn args m₁ = .error e m')
        (hf : fn = .print → args = [] → x.IsPrint) :
        m.Popped m' ∨ ∃ fn v, fn.IsPrint ∧ m.PrintFails [fn, v] v e m' := by
      obtain hp | ⟨hp, ha, v, hv'⟩ := callWith_error h
      case inl => exact .inl (hm.trans hp)
      case inr => exact .inr ⟨x, v, hf hp ha, hv'.of_popValue hv⟩
    dsimp only at h
    split at h
    case h_1 => exact .inl (hm.trans (Step.Recoils.enter _ h))
    case h_2 => exact .inl (hm.trans (Step.Recoils.select _ h))
    case h_3 => exact .inl (hm.trans (Step.Recoils.tie h))
    case h_4 => exact .inl (hm.trans (Step.Recoils.unroll _ h))
    case h_5 => exact hcall h fun hf ha => .inr (hf ▸ ha ▸ rfl)
    case h_6 x =>
      cases hn : Builtin.ofName? x <;> simp only [hn] at h
      case none => cases h; exact .inl hm
      case some fn =>
        exact hcall h fun hf _ => .inl (by rw [← Builtin.name_of_ofName? hn, hf])
    case h_7 => cases h; exact .inl hm

-- A transition that fails has changed nothing but what it consumed: its symbol is off the control,
-- and symbols may be off the stack. The output is as it was too, unless what fails is that `Print`
-- writes its argument.
theorem failure_only_consumes {y : Symbol} {rest : List Symbol} (hc : m.control = y :: rest)
    (h : m.step? = some (.error e m')) :
    m'.control = rest ∧ m'.stack <:+ m.stack ∧ m'.frames = m.frames ∧ m'.current = m.current ∧
      (m'.sink = m.sink ∨ y = .gamma ∧ ∃ fn v fault, fn.IsPrint ∧ m.stack = fn :: v :: m'.stack ∧
        e = .evaluation (.print fault) ∧
        Sink.write (Builtin.printed v) m.sink = .error fault m'.sink) := by
  rw [step?, hc] at h
  have h : execute y { m with control := rest } = .error e m' := Option.some.inj h
  by_cases hy : y = .gamma
  case neg =>
    have hp := Step.Recoils.execute hy h
    exact ⟨hp.control, hp.stack, hp.frames, hp.current, .inl hp.sink⟩
  case pos =>
    subst hy
    obtain hp | ⟨fn, v, hf, hp⟩ := apply_error h
    case inl => exact ⟨hp.control, hp.stack, hp.frames, hp.current, .inl hp.sink⟩
    case inr =>
      obtain ⟨fault, he, hw⟩ := hp.fault
      exact ⟨hp.control, ⟨[fn, v], hp.stack.symm⟩, hp.frames, hp.current,
        .inr ⟨rfl, fn, v, fault, hf, hp.stack, he, hw⟩⟩

end

-- `Print true`, with an output that takes two bytes.
def cramped : Machine where
  control := [.gamma, .marker 0]
  stack   := [.partialCall .print [], .truth true, .marker 0]
  frames  := #[{}]
  sink    := { capacity := some 2 }

theorem cramped_only_consumes : ∃ m',
    cramped.step? = some (.error (.evaluation (.print .full)) m') ∧
      m'.control = [.marker 0] ∧ m'.stack <:+ cramped.stack ∧ m'.frames = cramped.frames ∧
      m'.current = 0 ∧ m'.sink ≠ cramped.sink ∧ ∃ fn v fault, fn.IsPrint ∧
        cramped.stack = fn :: v :: m'.stack ∧
        Sink.write (Builtin.printed v) cramped.sink = .error fault m'.sink := by
  obtain ⟨m', hm, hs⟩ : ∃ m', cramped.step? = some (.error (.evaluation (.print .full)) m') ∧
      m'.sink.written = [116, 114] :=
    ⟨_, rfl, by decide⟩
  have hs : m'.sink ≠ cramped.sink := fun h => absurd (hs.symm.trans (congrArg _ h)) (by decide)
  obtain ⟨hc, hp, hf, hr, ho⟩ := failure_only_consumes (y := .gamma) rfl hm
  obtain ⟨-, fn, v, fault, hn, hv, -, hw⟩ := ho.resolve_left hs
  exact ⟨m', hm, hc, hp, hf, hr, hs, fn, v, fault, hn, hv, hw⟩

end Machine

end RpalMachine
