import RpalMachine.Machine.Run

namespace RpalMachine.Machine

-- The machine makes the given number of transitions, all of which succeed.
inductive Reaches : Nat → Machine → Machine → Prop
  | refl (m : Machine) : Reaches 0 m m
  | step {m m₁ m₂ : Machine} {k : Nat} :
    m.step? = some (.ok () m₁) → Reaches k m₁ m₂ → Reaches (k + 1) m m₂

namespace Reaches

variable {m m₁ m₂ : Machine} {j k limit : Nat}

theorem single (h : m.step? = some (.ok () m₁)) : Reaches 1 m m₁ :=
  .step h (.refl _)

theorem trans (r₁ : Reaches j m m₁) (r₂ : Reaches k m₁ m₂) : Reaches (j + k) m m₂ := by
  induction r₁
  case refl => simpa using r₂
  case step j h _ hi =>
    have := Reaches.step h (hi r₂)
    rwa [Nat.add_right_comm] at this

theorem prefix_of_le (r : Reaches k m m₂) (h : j ≤ k) : ∃ m₁, Reaches j m m₁ := by
  induction r generalizing j
  case refl =>
    cases Nat.le_zero.mp h
    exact ⟨_, .refl _⟩
  case step hs _ hi =>
    cases j
    case zero   => exact ⟨_, .refl _⟩
    case succ j =>
      have ⟨_, r⟩ := hi (Nat.le_of_succ_le_succ h)
      exact ⟨_, .step hs r⟩

-- What holds at first and is kept by every transition holds from then on.
theorem invariant {p : Machine → Prop} (hp : ∀ {m m₁}, p m → m.step? = some (.ok () m₁) → p m₁)
    (r : Reaches k m m₁) (h : p m) : p m₁ := by
  induction r
  case refl         => exact h
  case step hs _ hi => exact hi (hp h hs)

theorem run_add (r : Reaches k m m₁) : m.run (k + limit) = m₁.run limit := by
  induction r
  case refl         => simp
  case step hs _ hi => simp [Nat.add_right_comm, run, hs, hi]

end Reaches

variable {m m₁ m₂ : Machine} {k limit limit' : Nat}

theorem step?_eq_none_iff : m.step? = none ↔ m.control = [] := by
  rw [step?]
  split <;> simp_all

theorem control_ne_nil (h : m.step? = some s) : m.control ≠ [] :=
  fun hc => nomatch h.symm.trans (step?_eq_none_iff.mpr hc)

-- As long as it goes on there is no outcome.
theorem Reaches.run_eq_none (r : Reaches k m m₁) (h : limit < k) : m.run limit = none := by
  induction r generalizing limit
  case refl => contradiction
  case step hs _ hi =>
    cases limit
    case zero       => simp [run, control_ne_nil hs]
    case succ limit => simp [run, hs, hi (Nat.lt_of_succ_lt_succ h)]

theorem run_of_control_eq_nil (h : m.control = []) : m.run limit = some (finish m) := by
  cases limit <;> simp [run, step?, h]

theorem run_mono (hr : m.run limit = some r) (hl : limit ≤ limit') : m.run limit' = some r := by
  induction limit generalizing m limit'
  case zero =>
    simp only [run] at hr
    split at hr <;> try contradiction
    case _ hc => exact hr ▸ run_of_control_eq_nil (List.isEmpty_iff.mp hc)
  case succ limit hi =>
    cases limit' <;> try contradiction
    case succ limit' =>
      simp only [run] at hr ⊢
      split at hr <;> simp_all

theorem eq_of_finish {x : Symbol} {final : Machine} (h : m.finish = .ok x final) :
    final = { m with stack := [] } := by
  rw [finish] at h
  split at h <;> try contradiction
  split at h <;> cases h
  rfl

-- A run goes on until the control is empty or a transition fails.
theorem run_eq_some {r : EStateM.Result Fault Machine Symbol} (h : m.run limit = some r) :
    ∃ k m₁, m.Reaches k m₁ ∧ (m₁.control = [] ∧ r = finish m₁ ∨
      ∃ e m₂, m₁.step? = some (.error e m₂) ∧ r = .error e m₂) := by
  induction limit generalizing m
  case zero =>
    simp only [run] at h
    split at h <;> cases h
    case _ hc => exact ⟨0, m, .refl m, .inl ⟨List.isEmpty_iff.mp hc, rfl⟩⟩
  case succ limit hi =>
    simp only [run] at h
    split at h
    case h_1 hs => exact ⟨0, m, .refl m, .inl ⟨step?_eq_none_iff.mp hs, (Option.some.inj h).symm⟩⟩
    case h_2 hs =>
      have ⟨k, m₁, hr, h⟩ := hi h
      exact ⟨k + 1, m₁, .step hs hr, h⟩
    case h_3 hs => exact ⟨0, m, .refl m, .inr ⟨_, _, hs, (Option.some.inj h).symm⟩⟩

-- The machine ends with the given result, its output being left as given.
def Ends (m : Machine) (result : Except Fault Symbol) (sink : Sink) : Prop :=
  ∃ limit final, m.outcome? limit = some (result, final) ∧ final.sink = sink

namespace Ends

variable {result result' : Except Fault Symbol} {sink sink' : Sink}

theorem deterministic (e : m.Ends result sink) (e' : m.Ends result' sink') :
    result = result' ∧ sink = sink' := by
  have ⟨limit, _, h, hs⟩ := e
  have ⟨limit', _, h', hs'⟩ := e'
  simp only [outcome?, Option.map_eq_some_iff] at h h'
  have ⟨_, hr, ho⟩ := h
  have ⟨_, hr', ho'⟩ := h'
  have hr := run_mono hr (Nat.le_max_left limit limit')
  have hr' := run_mono hr' (Nat.le_max_right limit limit')
  cases hr.symm.trans hr'
  cases ho.symm.trans ho'
  exact ⟨rfl, hs.symm.trans hs'⟩

theorem of_reaches (r : Reaches k m m₁) (e : m₁.Ends result sink) : m.Ends result sink := by
  have ⟨limit, final, h, hs⟩ := e
  refine ⟨k + limit, final, ?_, hs⟩
  simpa [outcome?, r.run_add] using h

theorem of_error (h : m.step? = some (.error e m₁)) : m.Ends (.error e) m₁.sink :=
  ⟨1, m₁, by simp [outcome?, run, h], rfl⟩

end Ends

end RpalMachine.Machine
