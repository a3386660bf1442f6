import RpalMachine.Proofs.Balance
import RpalMachine.Proofs.Links
import RpalMachine.Proofs.Runs

namespace RpalMachine

-- What holds of every machine that a program comes to.
structure Machine.Sound (m : Machine) (scopes : List (Scope Value)) (markers : List Nat) :
    Prop where
  balanced   : Balanced scopes 0 markers m.control m.stack
  represents : Represents m.frames scopes ⟨scopes.length, m.sink⟩
  linked     : Linked m.frames markers m.current

-- A transition leads to such a machine again, or fails as a running program does.
def Continues : EStateM.Result Fault Machine Unit → Prop
  | .ok () m   => ∃ scopes markers, m.Sound scopes markers
  | .error e _ => e.isRuntime

namespace Machine.Sound

variable {m : Machine} {scopes : List (Scope Value)} {markers : List Nat} {i : Nat}
variable {control stack code : List Symbol} {vs : List Value}

theorem start (label : Nat) (core : Core) (sink : Sink) :
    (Machine.start ⟨label, core.code⟩ sink).Sound [.empty] [0] where
  balanced :=
    have hc : Ready (([] : List Value).length + 0) [.delta ⟨label, core.code⟩] :=
      .delta label core .done
    .call [] 0 hc (by simp) (.bottom [] rfl (by simp))
  represents := .initial sink
  linked     := .initial

-- The current scope.
theorem scope (s : m.Sound scopes markers) :
    ∃ scope, scopes[m.current]? = some scope ∧ scope.number = m.current := by
  have hs := List.getElem?_eq_getElem (s.represents.size ▸ s.linked.current_lt)
  exact ⟨_, hs, (s.represents.held hs).number⟩

-- The code ahead and the values change, and perhaps the output.
theorem resume (s : m.Sound scopes (i :: markers)) (b : Balanced scopes 1 markers control stack)
    (vs : List Value) (ready : Ready vs.length code) (hk : ∀ v ∈ vs, v.Known scopes) (sink : Sink) :
    Sound ⟨code ++ .marker i :: control, Value.symbols vs ++ .marker i :: stack, m.frames,
      m.current, sink⟩ scopes (i :: markers) where
  balanced   := .call vs i ready hk b
  represents := ⟨s.represents.size, s.represents.count, s.represents.held⟩
  linked     := s.linked

theorem deliver (s : m.Sound scopes (i :: markers)) (b : Balanced scopes 1 markers control stack)
    (ready : Ready (vs.length + 1) code) (hk : ∀ v ∈ vs, v.Known scopes)
    {r : EStateM.Result Fault Machine Unit} {result : Option (Except Fault Value × World)}
    (hd : Delivers scopes (code ++ .marker i :: control) (Value.symbols vs ++ .marker i :: stack)
      m.frames m.current ⟨scopes.length, m.sink⟩ r result) : Continues r := by
  match result, hd with
  | some (.ok v, w), ⟨hr, hv, _⟩ =>
    subst hr
    have hvs := List.forall_mem_cons.mpr ⟨hv, hk⟩
    exact ⟨scopes, i :: markers, s.resume b (v :: vs) ready hvs w.sink⟩
  | some (.error e, _), ⟨⟨_, hr, _⟩, he⟩ => exact hr ▸ he

-- A call is begun: it makes a frame, and its body is ahead of a new marker.
theorem enter (s : m.Sound scopes (i :: markers)) (b : Balanced scopes 1 markers control stack)
    (ready : Ready (vs.length + 1) code) (hk : ∀ v ∈ vs, v.Known scopes) {fn : Closure Value}
    {arg : Value} (hf : (Value.closure fn).Known scopes) (ha : arg.Known scopes) :
    Continues (Machine.enter fn.abstraction ⟨code ++ .marker i :: control,
      arg.symbol :: (Value.symbols vs ++ .marker i :: stack), m.frames, m.current, m.sink⟩) := by
  simp only [Value.Known, Value.closures, List.mem_singleton, forall_eq] at hf
  have ho := Value.bind_outcome ha fn.params
  rw [Machine.enter_symbol]
  cases hb : arg.bind fn.params <;> rw [hb] at ho
  case error e => exact Fault.isRuntime_of_isOperational ho
  case ok bindings =>
    let scope : Scope Value := ⟨scopes.length, bindings ++ fn.scope.bindings⟩
    have hc : Ready (([] : List Value).length + 0) [.delta ⟨fn.label, fn.body.code⟩] :=
      .delta fn.label fn.body .done
    refine ⟨scopes ++ [scope], m.frames.size :: i :: markers, ?_, ?_, ?_⟩
    case refine_1 =>
      have b' : Balanced scopes 1 (i :: markers) (code ++ .marker i :: control)
          (Value.symbols vs ++ .marker i :: stack) := .call vs i ready hk b
      exact .call [] m.frames.size hc (by simp) (b'.mono (List.prefix_append ..))
    case refine_2 => simpa using s.represents.push (w := ⟨scopes.length, m.sink⟩) _ hf ho rfl rfl
    case refine_3 => exact s.linked.push (s.represents.lt_size hf) bindings

-- A call is over: its value is that of the caller's.
theorem leave (s : m.Sound scopes (i :: markers)) (b : Balanced scopes 1 markers control stack)
    {v : Value} (hv : v.Known scopes) :
    Continues (Machine.leave i
      ⟨control, v.symbol :: .marker i :: stack, m.frames, m.current, m.sink⟩) := by
  have ⟨frame, hf⟩ : ∃ frame, m.frames[i]? = some frame :=
    ⟨_, Array.getElem?_eq_getElem (s.linked.lt_size (List.mem_cons_self ..))⟩
  rw [Machine.leave_symbol hf v]
  exact ⟨scopes, markers, b.push hv, s.represents.retire hf, s.linked.retire hf⟩

-- An application takes two values.
theorem gamma (s : m.Sound scopes (i :: markers)) (b : Balanced scopes 1 markers control stack)
    (ready : Ready (vs.length + 1) code) (hk : ∀ v ∈ vs, v.Known scopes) {fn arg : Value}
    (hf : fn.Known scopes) (ha : arg.Known scopes) :
    Continues (Machine.execute .gamma ⟨code ++ .marker i :: control,
      fn.symbol :: arg.symbol :: (Value.symbols vs ++ .marker i :: stack), m.frames, m.current,
      m.sink⟩) := by
  match fn with
  | .closure fn => exact s.enter b ready hk hf ha
  | .eta fn =>
    let vs' := .closure fn :: .eta fn :: arg :: vs
    have ready' : Ready vs'.length (.gamma :: .gamma :: code) := .gamma (.gamma ready)
    have hk' : ∀ v ∈ vs', v.Known scopes := by simpa [vs'] using ⟨hf, hf, ha, hk⟩
    exact ⟨scopes, i :: markers, s.resume b vs' ready' hk' m.sink⟩
  | .tuple _ | .yStar | .builtin _ | .partialCall _ _ | .integer _ | .string _ | .truth _ | .dummy
  | .error =>
    exact s.deliver b ready hk (Machine.apply_delivers 0 hf ha nofun nofun)

-- A conditional goes on with one of its branches.
theorem beta (s : m.Sound scopes (i :: markers)) (b : Balanced scopes 1 markers control stack)
    (ready : Ready (vs.length + 1) code) (hk : ∀ v ∈ vs, v.Known scopes) (v : Value)
    (noLabel yesLabel : Nat) (no yes : Core) :
    Continues (Machine.execute .beta ⟨.delta ⟨noLabel, no.code⟩ :: .delta ⟨yesLabel, yes.code⟩ ::
      (code ++ .marker i :: control), v.symbol :: (Value.symbols vs ++ .marker i :: stack),
      m.frames, m.current, m.sink⟩) := by
  match v with
  | .truth true =>
    exact ⟨scopes, i :: markers, s.resume b vs (.delta yesLabel yes ready) hk m.sink⟩
  | .truth false =>
    exact ⟨scopes, i :: markers, s.resume b vs (.delta noLabel no ready) hk m.sink⟩
  | .integer _ | .string _ | .dummy | .error | .yStar | .builtin _ | .tuple _ | .closure _
  | .eta _ | .partialCall _ _ => rfl

-- The next transition when there are values enough for the code that is ahead.
theorem step_of_ready (s : m.Sound scopes (i :: markers))
    (b : Balanced scopes 1 markers control stack) (ready : Ready vs.length code)
    (hk : ∀ v ∈ vs, v.Known scopes) {r : EStateM.Result Fault Machine Unit}
    (h : Machine.step? ⟨code ++ .marker i :: control, Value.symbols vs ++ .marker i :: stack,
      m.frames, m.current, m.sink⟩ = some r) : Continues r := by
  have ⟨scope, hs, hc⟩ := s.scope
  generalize hn : vs.length = n at ready
  cases ready <;> cases Option.some.inj h
  case done =>
    match vs, hn with
    | [v], _ => exact s.leave b (hk v (List.mem_singleton_self v))
  case name x ready =>
    rw [← hc] at hs
    exact s.deliver b (hn ▸ ready) hk (hc ▸ Machine.load_delivers s.represents hs x)
  case constant c ready =>
    have hc : (Value.ofConstant c).Known scopes := Value.known_ofConstant c
    cases c <;> exact s.deliver b (hn ▸ ready) hk (Machine.push_delivers hc)
  case lambda id params label body ready =>
    rw [← hc] at hs
    exact s.deliver b (hn ▸ ready) hk (hc ▸ Machine.close_delivers hs id params label body)
  case gamma ready =>
    match vs, hn with
    | fn :: arg :: vs, hn =>
      simp only [List.forall_mem_cons] at hk
      exact s.gamma b (Nat.succ.inj (Nat.succ.inj hn) ▸ ready) hk.2.2 hk.1 hk.2.1
  case tau n _ count ready =>
    have ⟨us, rest, hv, hu, hr⟩ :
        ∃ us rest, vs = us ++ rest ∧ us.length = count ∧ rest.length = n :=
      ⟨vs.take count, vs.drop count, (List.take_append_drop ..).symm, by simp [hn], by simp [hn]⟩
    subst hv hu
    rw [List.forall_mem_append] at hk
    rw [Value.symbols_append, List.append_assoc]
    exact s.deliver b (hr ▸ ready) hk.2 (Machine.tau_delivers hk.1)
  case unary op ready =>
    match vs, hn with
    | v :: vs, hn =>
      simp only [List.forall_mem_cons] at hk
      exact s.deliver b (Nat.succ.inj hn ▸ ready) hk.2 (Machine.unary_delivers op v)
  case binary op ready =>
    match vs, hn with
    | v :: w :: vs, hn =>
      simp only [List.forall_mem_cons] at hk
      exact s.deliver b (Nat.succ.inj (Nat.succ.inj hn) ▸ ready) hk.2.2
        (Machine.binary_delivers op hk.1 hk.2.1)
  case test condition ready =>
    have h := s.resume b vs (hn ▸ condition.ready ready) hk m.sink
    exact ⟨scopes, i :: markers, by simpa using h⟩
  case beta noLabel yesLabel no yes ready =>
    match vs, hn with
    | v :: vs, hn =>
      simp only [List.forall_mem_cons] at hk
      exact s.beta b (Nat.succ.inj hn ▸ ready) hk.2 v noLabel yesLabel no yes
  case delta label body ready =>
    have h := s.resume b vs (hn ▸ body.ready ready) hk m.sink
    exact ⟨scopes, i :: markers, by simpa using h⟩

theorem step (s : m.Sound scopes markers) {r : EStateM.Result Fault Machine Unit}
    (h : m.step? = some r) : Continues r := by
  obtain ⟨control, stack, frames, current, sink⟩ := m
  have b := s.balanced
  cases b
  case bottom => contradiction
  case call i hk b hr => exact s.step_of_ready b hr hk h

theorem of_reaches (s : m.Sound scopes markers) (r : m.Reaches k m₁) :
    ∃ scopes markers, m₁.Sound scopes markers :=
  r.invariant (p := fun m => ∃ scopes markers, m.Sound scopes markers)
    (fun ⟨_, _, s⟩ h => s.step h) ⟨scopes, markers, s⟩

end Machine.Sound

-- Every machine that a program comes to is sound.
theorem Tree.sound_of_reaches {t : Tree} {sink : Sink} {m m₁ : Machine} {n : Numbering} {k : Nat}
    (accepted : t.machine sink = .ok (m, n)) (r : m.Reaches k m₁) :
    ∃ scopes markers, m₁.Sound scopes markers := by
  obtain ⟨core, _, _, rfl, _⟩ := machine_eq_ok_iff.mp accepted
  exact (Machine.Sound.start _ core sink).of_reaches r

end RpalMachine
