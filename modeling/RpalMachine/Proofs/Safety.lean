import RpalMachine.Proofs.Sound

namespace RpalMachine

-- Whether a symbol stands for a value, rather than for an operation or a marker.
def Symbol.IsValue (x : Symbol) : Prop :=
  ∃ v : Value, v.symbol = x

-- Everything that the next transition takes is in place. At the end there is one value.
def Machine.Prepared (m : Machine) : Prop :=
  match m.control with
  | []            => ∃ x, m.stack = [x] ∧ x.IsValue
  | .gamma :: _   => ∃ fn arg rest, m.stack = fn :: arg :: rest ∧ fn.IsValue ∧ arg.IsValue ∧
    ∀ c, fn = .lambda c ∨ fn = .eta c → ∃ i < m.frames.size, c.env = some i
  | .tau n :: _   => ∃ xs rest, m.stack = xs ++ rest ∧ xs.length = n ∧ ∀ x ∈ xs, x.IsValue
  | .unary _ :: _ => ∃ x rest, m.stack = x :: rest ∧ x.IsValue
  | .binary _ :: _ => ∃ x y rest, m.stack = x :: y :: rest ∧ x.IsValue ∧ y.IsValue
  | .beta :: next => (∃ x rest, m.stack = x :: rest ∧ x.IsValue) ∧
    ∃ no yes rest, next = .delta no :: .delta yes :: rest
  | .marker i :: _ => (∃ x rest, m.stack = x :: .marker i :: rest ∧ x.IsValue) ∧ i < m.frames.size
  | _ => True

namespace Value

variable {scopes : List (Scope Value)} {v : Value} {vs : List Value}

theorem isValue (v : Value) : v.symbol.IsValue :=
  ⟨v, rfl⟩

theorem isValue_of_mem {x : Symbol} (h : x ∈ symbols vs) : x.IsValue := by
  rw [symbols_eq_map] at h
  have ⟨v, _, hv⟩ := List.mem_map.mp h
  exact ⟨v, hv⟩

-- A function value has the environment it was made in.
theorem env_of_known {frames : Array Frame} {w : World} {c : Abstraction Symbol}
    (r : Represents frames scopes w) (hk : v.Known scopes)
    (h : v.symbol = .lambda c ∨ v.symbol = .eta c) : ∃ i < frames.size, c.env = some i := by
  match v, h with
  | .closure fn, .inl h | .eta fn, .inr h =>
    cases h
    exact ⟨fn.scope.number, r.lt_size (hk fn (List.mem_singleton_self fn)), rfl⟩

end Value

namespace Machine.Sound

variable {m : Machine} {scopes : List (Scope Value)} {markers : List Nat} {i n : Nat}
variable {control stack code : List Symbol} {frames : Array Frame} {current : Nat} {sink : Sink}
variable {vs : List Value}

theorem prepared_of_ready
    (s : Sound ⟨code ++ .marker i :: control, Value.symbols vs ++ .marker i :: stack, frames,
      current, sink⟩ scopes (i :: markers))
    (ready : Ready n code) (hn : vs.length = n) (hk : ∀ v ∈ vs, v.Known scopes) :
    Prepared ⟨code ++ .marker i :: control, Value.symbols vs ++ .marker i :: stack, frames, current,
      sink⟩ := by
  match ready, vs, hn with
  | .done, [v], _ => exact ⟨⟨_, _, rfl, v.isValue⟩, s.linked.lt_size (List.mem_cons_self ..)⟩
  | .gamma _, fn :: arg :: _, _ =>
    have hf := hk fn (List.mem_cons_self ..)
    exact ⟨_, _, _, rfl, fn.isValue, arg.isValue, fun _ h => Value.env_of_known s.represents hf h⟩
  | .tau (n := n) count _, vs, hn =>
    refine ⟨Value.symbols (vs.take count), Value.symbols (vs.drop count) ++ .marker i :: stack,
      ?_, by simp [hn], fun _ => Value.isValue_of_mem⟩
    rw [← List.append_assoc, ← Value.symbols_append, List.take_append_drop]
  | .unary _ _, v :: _, _       => exact ⟨_, _, rfl, v.isValue⟩
  | .binary _ _, v :: w :: _, _ => exact ⟨_, _, _, rfl, v.isValue, w.isValue⟩
  | .beta _ _ _ _ _, v :: _, _  => exact ⟨⟨_, _, rfl, v.isValue⟩, _, _, _, rfl⟩
  | .constant c _, _, _         => cases c <;> trivial
  | .name _ _, _, _ | .lambda _ _ _ _ _, _, _ | .test _ _, _, _ | .delta _ _ _, _, _ => trivial

theorem prepared (s : m.Sound scopes markers) : m.Prepared := by
  obtain ⟨control, stack, frames, current, sink⟩ := m
  have b := s.balanced
  cases b
  case bottom =>
    have ⟨_, v, h⟩ := s.balanced.of_nil rfl
    exact ⟨_, h, v.isValue⟩
  case call i hk _ ready => exact s.prepared_of_ready ready rfl hk

end Machine.Sound

namespace Tree

variable {t : Tree} {sink : Sink} {m : Machine} {n : Numbering}

-- Once the control is empty only flushing the output can fail.
theorem isRuntime_of_finish {e : Fault} {final : Machine} {v : Value} (h : m.stack = [v.symbol])
    (hf : m.finish = .error e final) : e.isRuntime := by
  rw [Machine.finish] at hf
  split at hf
  case h_1 => cases hf; rfl
  case h_2 =>
    rw [h] at hf
    cases v <;> contradiction

-- Whatever a program comes to, the next transition finds what it takes, and no run fails but with
-- a fault of the program itself.
theorem never_stuck (accepted : t.machine sink = .ok (m, n)) :
    (∀ k m₁, m.Reaches k m₁ → m₁.Prepared) ∧
      ∀ limit e final, m.run limit = some (.error e final) → e.isRuntime := by
  constructor
  case left =>
    intro k m₁ r
    have ⟨_, _, s⟩ := sound_of_reaches accepted r
    exact s.prepared
  case right =>
    intro limit e final h
    have ⟨k, m₁, r, h⟩ := Machine.run_eq_some h
    have ⟨_, _, s⟩ := sound_of_reaches accepted r
    match h with
    | .inl ⟨hc, hf⟩ =>
      have ⟨_, v, hs⟩ := s.balanced.of_nil hc
      exact isRuntime_of_finish hs hf.symm
    | .inr ⟨e', m₂, hs, he⟩ =>
      cases he
      exact s.step hs

theorem factorial_never_stuck :
    ∃ m n, (factorial 3).machine {} = .ok (m, n) ∧ (∀ k m₁, m.Reaches k m₁ → m₁.Prepared) ∧
      ∀ limit e final, m.run limit = some (.error e final) → e.isRuntime :=
  ⟨_, _, rfl, never_stuck (t := factorial 3) rfl⟩

end Tree

end RpalMachine
