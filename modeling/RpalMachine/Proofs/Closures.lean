import RpalMachine.Proofs.Grounded

namespace RpalMachine

theorem Ready.isInstruction {n i : Nat} {x : Symbol} {code control rest : List Symbol}
    (ready : Ready n code) (h : code ++ .marker i :: control = x :: rest) : x.isInstruction := by
  cases ready <;> cases h
  case constant c _ => cases c <;> rfl
  all_goals rfl

theorem Machine.Sound.isInstruction {m : Machine} {scopes : List (Scope Value)}
    {markers : List Nat} {x : Symbol} {rest : List Symbol} (s : m.Sound scopes markers)
    (h : m.control = x :: rest) : x.isInstruction := by
  obtain ⟨control, stack, frames, current, sink⟩ := m
  have b := s.balanced
  cases b
  case bottom     => contradiction
  case call ready => exact ready.isInstruction h

-- The function that a symbol stands for, and the arguments it has been given already.
def Symbol.called? : Symbol → Option (Builtin × List Symbol)
  | identifier x        => (Builtin.ofName? x).map (·, [])
  | partialCall fn args => some (fn, args)
  | _                   => none

-- There is always an argument missing.
theorem Symbol.Grounded.length_lt_arity {count : Nat} {x : Symbol} {fn : Builtin}
    {args : List Symbol} (h : x.Grounded count) (hc : x.called? = some (fn, args)) :
    args.length < fn.arity := by
  cases h <;> try contradiction
  case builtin b =>
    rw [called?, Builtin.ofName?_name] at hc
    cases hc
    exact fn.arity_pos
  case partialCall hl _ =>
    cases hc
    exact hl

-- The frame lies inside the other one, or something in it is bound to what a closure of the other
-- one is part of.
def LeadsTo (frames : Array Frame) (i j : Nat) : Prop :=
  ∃ frame, frames[i]? = some frame ∧
    (frame.parent = some j ∨ ∃ b ∈ frame.bindings, b.2.Captures j)

namespace Machine

-- An application is next that gives the function the last of its arguments.
def Invokes (m : Machine) (fn : Builtin) (args : List Symbol) : Prop :=
  ∃ (f x : Symbol) (given control stack : List Symbol), m.control = .gamma :: control ∧
    m.stack = f :: x :: stack ∧ (∀ i, x ≠ .marker i) ∧ f.called? = some (fn, given) ∧
    args = given ++ [x] ∧ fn.arity ≤ args.length

variable {m m₁ : Machine} {fn : Builtin} {args : List Symbol}

theorem popValue_of_ne {x : Symbol} {stack : List Symbol} (task : String)
    (hs : m.stack = x :: stack) (hx : ∀ i, x ≠ .marker i) :
    popValue task m = .ok x { m with stack } := by
  rw [popValue, hs]
  cases x
  case marker i => exact absurd rfl (hx i)
  all_goals rfl

theorem apply_of_called {f : Symbol} {given stack : List Symbol}
    (hf : f.called? = some (fn, given)) (hs : m.stack = f :: stack) :
    apply m = callWith fn given { m with stack } := by
  cases f <;> try contradiction
  case identifier x =>
    obtain ⟨b, hb, hf⟩ := Option.map_eq_some_iff.mp hf
    cases hf
    simp [apply, popValue_of_ne _ hs, hb]
  case partialCall fn' args' =>
    cases hf
    simp [apply, popValue_of_ne _ hs]

-- The transition is the call.
theorem step?_of_invokes (h : m.Invokes fn args) : ∃ control stack,
    m.step? = some ((do push (← onSink (fn.call args))) { m with control, stack }) := by
  obtain ⟨f, x, given, control, stack, hc, hs, hx, hf, rfl, hl⟩ := h
  refine ⟨control, stack, ?_⟩
  have ha : apply { m with control } = callWith fn given { m with control, stack := x :: stack } :=
    apply_of_called hf hs
  have hp : popValue fn.name { m with control, stack := x :: stack }
      = .ok x { m with control, stack } := popValue_of_ne fn.name rfl hx
  rw [step?, hc]
  simp only [execute, ha, callWith, Step.bind_apply, hp, if_neg (Nat.not_lt.mpr hl)]

-- A call is given as many arguments as the function has.
theorem Grounded.length_of_invokes (h : m.Grounded) (hi : m.Invokes fn args) :
    args.length = fn.arity := by
  obtain ⟨f, x, given, _, stack, _, hs, _, hf, rfl, hl⟩ := hi
  have hg := h.stack f (by simp [hs])
  match hg with
  | .inl ⟨i, hi⟩ => subst hi; contradiction
  | .inr hg =>
    have := hg.length_lt_arity hf
    simp at hl ⊢
    omega

-- What a frame leads to is older.
theorem Grounded.lt_of_leadsTo {markers : List Nat} {i j : Nat} (h : m.Grounded)
    (l : Linked m.frames markers m.current) (hl : LeadsTo m.frames i j) : j < i := by
  obtain ⟨frame, hf, hp | ⟨b, hb, hc⟩⟩ := hl
  case inl =>
    have hi := (l.placed hf).parent
    split at hi
    case isTrue => cases hp.symm.trans hi
    case isFalse =>
      have ⟨p, hlt, hi⟩ := hi
      cases hp.symm.trans hi
      exact hlt
  case inr => exact (h.bindings i frame hf b hb).lt_of_captures hc

theorem Grounded.lt_of_transGen {markers : List Nat} {i j : Nat} (h : m.Grounded)
    (l : Linked m.frames markers m.current) (hl : Relation.TransGen (LeadsTo m.frames) i j) :
    j < i := by
  induction hl
  case single hl     => exact h.lt_of_leadsTo l hl
  case tail _ hl hlt => exact Nat.lt_trans (h.lt_of_leadsTo l hl) hlt

theorem Grounded.start (program : Block Symbol) (sink : Sink) :
    (Machine.start program sink).Grounded where
  stack    := by simp [Machine.start]
  bindings := by
    intro i frame hf
    cases i <;> simp [Machine.start] at hf
    subst hf
    exact nofun

theorem Sound.grounded_step {scopes : List (Scope Value)} {markers : List Nat}
    {r : EStateM.Result Fault Machine Unit} (s : m.Sound scopes markers) (h : m.Grounded)
    (hs : m.step? = some r) :
    (∀ m₁, r = .ok () m₁ → m₁.Grounded) ∧ ∀ e m₁, r = .error e m₁ → ¬ e.Miscounts := by
  rw [step?] at hs
  split at hs <;> cases hs
  case h_2 x rest hc =>
    have h' : Grounded { m with control := rest } := ⟨h.stack, h.bindings⟩
    have hx := h'.execute s.linked.current_lt (s.isInstruction hc)
    rw [Step.Leads] at hx
    constructor
    case left  => intro m₁ he; rwa [he] at hx
    case right => intro e m₁ he; rwa [he] at hx

theorem Grounded.of_finish {x : Symbol} {final : Machine} (h : m.Grounded)
    (hf : m.finish = .ok x final) : x.Grounded final.frames.size := by
  rw [finish] at hf
  split at hf <;> try contradiction
  split at hf <;> cases hf
  case h_3.refl hne hs =>
    refine (h.stack x (by simp [hs])).resolve_left ?_
    rintro ⟨i, rfl⟩
    exact hne i rfl

theorem not_miscounts_of_finish {e : Fault} {final : Machine} (h : m.finish = .error e final) :
    ¬ e.Miscounts := by
  rintro ⟨fn, count, rfl⟩
  rw [finish] at h
  split at h
  case h_1 => cases h
  case h_2 => split at h <;> cases h

end Machine

namespace Tree

variable {t : Tree} {sink : Sink} {m m₁ : Machine} {n : Numbering} {k : Nat}

theorem grounded_of_reaches (accepted : t.machine sink = .ok (m, n)) (r : m.Reaches k m₁) :
    (∃ scopes markers, m₁.Sound scopes markers) ∧ m₁.Grounded := by
  refine r.invariant (p := fun m => (∃ scopes markers, m.Sound scopes markers) ∧ m.Grounded) ?_ ?_
  case refine_1 =>
    rintro m m' ⟨⟨_, _, s⟩, h⟩ hs
    exact ⟨s.step hs, (s.grounded_step h hs).1 m' rfl⟩
  case refine_2 =>
    refine ⟨sound_of_reaches accepted (.refl m), ?_⟩
    obtain ⟨_, _, _, rfl, _⟩ := machine_eq_ok_iff.mp accepted
    exact .start _ sink

-- Whatever a program comes to, its values are values at every depth, no closure in them leads back
-- to the frame it is bound in, and calls have as many arguments as their functions. A run does not
-- fail for a wrong number of arguments, and ends with such a value.
theorem values_grounded (accepted : t.machine sink = .ok (m, n)) :
    (∀ k m₁, m.Reaches k m₁ → m₁.Grounded ∧
      (∀ i, ¬ Relation.TransGen (LeadsTo m₁.frames) i i) ∧
      ∀ fn args, m₁.Invokes fn args → args.length = fn.arity) ∧
    ∀ limit r, m.run limit = some r →
      match r with
      | .ok x final => x.Grounded final.frames.size
      | .error e _  => ¬ e.Miscounts := by
  constructor
  case left =>
    intro k m₁ r
    have ⟨⟨_, _, s⟩, h⟩ := grounded_of_reaches accepted r
    exact ⟨h, fun i hi => Nat.lt_irrefl i (h.lt_of_transGen s.linked hi),
      fun _ _ => h.length_of_invokes⟩
  case right =>
    intro limit r hr
    have ⟨k, m₁, hm, hr⟩ := Machine.run_eq_some hr
    have ⟨⟨_, _, s⟩, h⟩ := grounded_of_reaches accepted hm
    match hr with
    | .inr ⟨e, m₂, hs, he⟩ =>
      subst he
      exact (s.grounded_step h hs).2 e m₂ rfl
    | .inl ⟨hc, he⟩ =>
      subst he
      cases hf : m₁.finish
      case error => exact Machine.not_miscounts_of_finish hf
      case ok x final => exact h.of_finish hf

theorem factorial_values_grounded :
    ∃ m n, (factorial 3).machine {} = .ok (m, n) ∧ ∀ k m₁, m.Reaches k m₁ → m₁.Grounded :=
  ⟨_, _, rfl, fun k m₁ r => ((values_grounded (t := factorial 3) rfl).1 k m₁ r).1⟩

end Tree

end RpalMachine
