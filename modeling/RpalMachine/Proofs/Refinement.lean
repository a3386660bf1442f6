import RpalMachine.Proofs.Runs
import RpalMachine.Proofs.Transitions

namespace RpalMachine

-- A machine gets from `m` to where a computation has put its values on top of the stack, or fails
-- as the computation does. While the computation has not ended the machine goes on for `n`
-- transitions at least.
def Yields (values : α → List Value) (n : Nat) (m : Machine) (scopes : List (Scope Value))
    (control stack : List Symbol) (current : Nat) : Option (Except Fault α × World) → Prop
  | some (.ok a, w) =>
    ∃ k frames scopes',
      m.Reaches k ⟨control, Value.symbols (values a) ++ stack, frames, current, w.sink⟩ ∧
      Represents frames scopes' w ∧ Extends m.frames frames scopes scopes' ∧
      ∀ v ∈ values a, v.Known scopes'
  | some (.error e, w) =>
    ∃ k m₁ m₂, m.Reaches k m₁ ∧ m₁.step? = some (.error e m₂) ∧ m₂.sink = w.sink
  | none => ∃ m', m.Reaches n m'

namespace Yields

variable {values : α → List Value} {values' : β → List Value} {n n' : Nat} {m m' : Machine}
variable {scopes scopes' : List (Scope Value)} {control control' stack stack' : List Symbol}
variable {current current' : Nat} {w : World}

theorem mono {r} (y : Yields values n m scopes control stack current r) (h : n' ≤ n) :
    Yields values n' m scopes control stack current r := by
  match r, y with
  | some (.ok _, _), y    => exact y
  | some (.error _, _), y => exact y
  | none, ⟨_, y⟩          => exact y.prefix_of_le h

theorem step {r} (m' : Machine) (hs : m.step? = some (.ok () m'))
    (he : Extends m.frames m'.frames scopes scopes')
    (y : Yields values n m' scopes' control stack current r) :
    Yields values (n + 1) m scopes control stack current r := by
  match r, y with
  | some (.ok _, _), ⟨k, frames, scopes', hr, hp, he', hk⟩ =>
    exact ⟨k + 1, frames, scopes', .step hs hr, hp, he.trans he', hk⟩
  | some (.error _, _), ⟨k, m₁, m₂, hr, h⟩ => exact ⟨k + 1, m₁, m₂, .step hs hr, h⟩
  | none, ⟨_, hr⟩                          => exact ⟨_, .step hs hr⟩

theorem after {r} (m' : Machine) (hs : m.step? = some (.ok () m'))
    (he : Extends m.frames m'.frames scopes scopes')
    (y : Yields values n m' scopes' control stack current r) :
    Yields values n m scopes control stack current r :=
  (step m' hs he y).mono (Nat.le_add_right ..)

theorem bind {x : Evaluation α} {f : α → Evaluation β}
    (hx : Yields values n m scopes control stack current (x w))
    (hf : ∀ {a frames scopes' w'}, x w = some (.ok a, w') → Represents frames scopes' w' →
      scopes <+: scopes' → (∀ v ∈ values a, v.Known scopes') →
      Yields values' n ⟨control, Value.symbols (values a) ++ stack, frames, current, w'.sink⟩
        scopes' control' stack' current' (f a w')) :
    Yields values' n m scopes control' stack' current' ((x >>= f) w) := by
  rw [Evaluation.bind_apply]
  match hx' : x w, hx with
  | some (.ok a, w'), ⟨k, frames, scopes', hr, hp, he, hk⟩ =>
    have y := hf hx' hp he.scopes hk
    simp only
    match f a w', y with
    | some (.ok _, _), ⟨k', frames', scopes'', hr', hp', he', hk'⟩ =>
      exact ⟨k + k', frames', scopes'', hr.trans hr', hp', he.trans he', hk'⟩
    | some (.error _, _), ⟨k', m₁, m₂, hr', h⟩ => exact ⟨k + k', m₁, m₂, hr.trans hr', h⟩
    | none, ⟨m', hr'⟩ => exact (hr.trans hr').prefix_of_le (Nat.le_add_left ..)
  | some (.error _, _), hx => exact hx
  | none, hx               => exact hx

theorem of_delivers {x : Evaluation Value} {r}
    (hd : Delivers scopes control stack m.frames current w r (x w)) (hs : m.step? = some r)
    (hr : Represents m.frames scopes w) :
    Yields ([·]) n m scopes control stack current (x w) := by
  match x w, hd with
  | some (.ok v, _), ⟨he, hv, hw⟩ =>
    subst he
    exact ⟨1, m.frames, scopes, .single hs, ⟨hr.size, hw.trans hr.count, hr.held⟩, .refl, by simpa⟩
  | some (.error _, _), ⟨⟨m', he, hw⟩, _⟩ => exact ⟨0, m, m', .refl m, hs.trans (he ▸ rfl), hw⟩

-- A call is left by its marker, which hands the value on to the caller.
theorem leave {i : Nat} {frame : Frame} {r}
    (y : Yields ([·]) n m scopes (.marker i :: control) (.marker i :: stack) i r)
    (hf : m.frames[i]? = some frame) (hc : frame.caller = some current) :
    Yields ([·]) n m scopes control stack current r := by
  match r, y with
  | some (.error _, _), y => exact y
  | none, y               => exact y
  | some (.ok v, w), ⟨k, frames, scopes', hr, hp, he, hk⟩ =>
    have ⟨f, hi, hl⟩ := he.frames _ _ hf
    refine ⟨k + 1, _, scopes', hr.trans (.single ?_), hp.retire hi,
      he.trans ⟨List.prefix_rfl, .retire hi⟩, hk⟩
    refine congrArg some ((Machine.leave_symbol hi v).trans ?_)
    simp [hl.caller, hc, Value.symbols]

end Yields

-- How an application is expected to go on.
def Applies (n : Nat) (apply : Value → Value → Evaluation Value) : Prop :=
  ∀ (fn arg) {frames scopes w control stack current},
    Represents frames scopes w → fn.Known scopes → arg.Known scopes →
      Yields ([·]) n ⟨.gamma :: control, fn.symbol :: arg.symbol :: stack, frames, current, w.sink⟩
        scopes control stack current (apply fn arg w)

-- Code leads to what a computation does in the current scope, on top of any control and stack.
def Implements (values : α → List Value) (n : Nat) (code : List Symbol)
    (x : Scope Value → Evaluation α) : Prop :=
  ∀ {scope frames scopes w control stack}, Represents frames scopes w →
    scopes[scope.number]? = some scope →
      Yields values n ⟨code ++ control, stack, frames, scope.number, w.sink⟩ scopes control stack
        scope.number (x scope w)

namespace Core

variable {apply : Value → Value → Evaluation Value} {n : Nat}

theorem length_forestEval {scope : Scope Value} :
    {cs : List Core} → {vs : List Value} → {w w' : World} →
      forestEval apply scope cs w = some (.ok vs, w') → vs.length = cs.length
  | [], vs, w, w', h => by cases h; rfl
  | c :: cs, vs, w, w', h => by
    simp only [forestEval, Evaluation.bind_eq_ok] at h
    obtain ⟨vs, _, ht, v, _, _, h⟩ := h
    cases h
    simp [length_forestEval ht]

mutual

theorem eval_implements (ha : Applies n apply) :
    (c : Core) → Implements ([·]) n c.code (c.eval apply)
  | name x, _, _, _, _, _, _, r, hs => .of_delivers (Machine.load_delivers r hs x) rfl r
  | constant c, _, _, _, _, _, _, r, _ => by
    refine .of_delivers (Machine.push_delivers (Value.known_ofConstant c)) ?_ r
    cases c <;> rfl
  | lambda id params label body, _, _, _, _, _, _, r, hs =>
    .of_delivers (Machine.close_delivers hs id params label body) rfl r
  | .apply fn arg, _, _, _, _, _, _, r, hs => by
    simp only [code, List.append_assoc, List.singleton_append]
    rw [eval]
    refine (eval_implements ha arg r hs).bind fun _ r hpre hk => ?_
    refine (eval_implements ha fn r (getElem?_mono hpre hs)).bind fun _ r hpre' hk' => ?_
    simp only [List.mem_singleton, forall_eq] at hk hk'
    exact ha _ _ r hk' (hk.mono hpre')
  | tuple elements, _, _, _, _, rest, stack, r, hs => by
    simp only [code, List.append_assoc, List.singleton_append]
    rw [eval]
    refine (forestEval_implements ha elements r hs).bind fun {vs _ _ _} hvs r hpre hk => ?_
    rw [← length_forestEval hvs]
    exact .of_delivers (Machine.tau_delivers hk) rfl r
  | unary op operand, scope, _, _, _, rest, stack, r, hs => by
    simp only [code, List.append_assoc, List.singleton_append]
    rw [eval]
    refine (eval_implements ha operand r hs).bind fun {v frames _ w} _ r hpre hk => ?_
    exact .of_delivers (Machine.unary_delivers op v) rfl r
  | binary op left right, scope, _, _, _, rest, stack, r, hs => by
    simp only [code, List.append_assoc, List.singleton_append]
    rw [eval]
    refine (eval_implements ha right r hs).bind fun {w _ _ _} _ r hpre hk => ?_
    refine (eval_implements ha left r (getElem?_mono hpre hs)).bind
      fun {v frames _ world} _ r hpre' hk' => ?_
    simp only [List.mem_singleton, forall_eq] at hk hk'
    exact .of_delivers (Machine.binary_delivers op hk' (hk.mono hpre')) rfl r
  | conditional condition yesLabel yes noLabel no, scope, frames, _, w, rest, stack, r, hs => by
    simp only [eval]
    -- The test is scheduled, then evaluated, and then one of the branches is.
    refine .after ⟨condition.code ++ .beta :: .delta ⟨noLabel, no.code⟩ ::
      .delta ⟨yesLabel, yes.code⟩ :: rest, stack, frames, scope.number, w.sink⟩ rfl .refl ?_
    refine (eval_implements ha condition r hs).bind fun {v frames scopes w} _ r hpre hk => ?_
    have hs := getElem?_mono hpre hs
    match v with
    | .truth true =>
      refine .after ⟨.delta ⟨yesLabel, yes.code⟩ :: rest, stack, frames, scope.number, w.sink⟩
        rfl .refl ?_
      exact .after _ rfl .refl (eval_implements ha yes r hs)
    | .truth false =>
      refine .after ⟨.delta ⟨noLabel, no.code⟩ :: rest, stack, frames, scope.number, w.sink⟩
        rfl .refl ?_
      exact .after _ rfl .refl (eval_implements ha no r hs)
    | .integer _ | .string _ | .dummy | .error | .yStar | .builtin _ | .tuple _ | .closure _
    | .eta _ | .partialCall _ _ =>
      exact ⟨0, _, _, .refl _, rfl, rfl⟩

theorem forestEval_implements (ha : Applies n apply) :
    (cs : List Core) → Implements id n (forestCode cs) (forestEval apply · cs)
  | [], _, _, _, _, _, _, r, _ => ⟨0, _, _, .refl _, r, .refl, by simp⟩
  | c :: cs, _, _, _, _, _, _, r, hs => by
    simp only [forestCode, List.append_assoc]
    rw [forestEval]
    refine (forestEval_implements ha cs r hs).bind fun _ r hpre hk => ?_
    refine (eval_implements ha c r (getElem?_mono hpre hs)).bind
      fun {v _ _ _} _ r hpre' hk' => ?_
    refine ⟨0, _, _, .refl _, r, .refl, ?_⟩
    simp only [List.mem_singleton, forall_eq, id_eq] at hk hk'
    simp only [id_eq, List.mem_cons, forall_eq_or_imp]
    exact ⟨hk', fun v hv => (hk v hv).mono hpre'⟩

end

end Core

namespace Value

variable {control stack : List Symbol} {frames : Array Frame} {current : Nat} {sink : Sink}
variable {scopes : List (Scope Value)} {w : World} {n : Nat}

-- Entering a closure, running its body and leaving it again.
theorem closure_yields (ha : Applies n (apply n)) {fn : Closure Value} {arg : Value}
    (r : Represents frames scopes w) (hf : (closure fn).Known scopes) (hk : arg.Known scopes) :
    Yields ([·]) (n + 1)
      ⟨.gamma :: control, symbol (closure fn) :: arg.symbol :: stack, frames, current, w.sink⟩
      scopes control stack current (apply (n + 1) (closure fn) arg w) := by
  simp only [Known, closures, List.mem_singleton, forall_eq] at hf
  have he := @Machine.enter_symbol control stack frames current w.sink fn arg
  have hk := bind_outcome hk fn.params
  rw [apply]
  simp only [Evaluation.bind_apply, Evaluation.lift]
  cases hb : arg.bind fn.params <;> rw [hb] at he hk
  case error e => exact ⟨0, _, _, .refl _, congrArg some he, rfl⟩
  case ok bindings =>
    let frame := Machine.frameOf fn bindings frames.size current
    let scope : Scope Value := ⟨w.scopes, bindings ++ fn.scope.bindings⟩
    have hn : w.scopes = frames.size := r.count.trans r.size.symm
    have r' := r.push frame hf hk rfl rfl
    refine .step ⟨.delta ⟨fn.label, fn.body.code⟩ :: .marker scope.number :: control,
      .marker scope.number :: stack, frames.push frame, scope.number, w.sink⟩
      ?_ ⟨List.prefix_append scopes [scope], .push frame⟩ ?_
    case refine_1 => exact congrArg some (he.trans (by simp only [scope, hn, frame]))
    case refine_2 =>
      have hs : (scopes ++ [scope])[scope.number]? = some scope := by simp [scope, r.count]
      have hf : (frames.push frame)[scope.number]? = some frame := by simp [scope, hn]
      exact .after _ rfl .refl ((fn.body.eval_implements ha r' hs).leave hf rfl)

theorem apply_applies : (depth : Nat) → Applies depth (apply depth)
  | 0, _, _, _, _, _, _, _, _, _, _, _ => ⟨_, .refl _⟩
  | depth + 1, fn, arg, frames, scopes, w, rest, stack, current, r, hf, hk => by
    have ha : Applies depth (apply depth) := apply_applies depth
    match fn with
    | closure fn => exact closure_yields ha r hf hk
    | eta fn =>
      refine Yields.step ⟨.gamma :: .gamma :: rest,
        symbol (closure fn) :: symbol (eta fn) :: arg.symbol :: stack, frames, current, w.sink⟩
        rfl .refl ?_
      refine (ha (closure fn) (eta fn) r hf hf).bind fun _ r hpre hu => ?_
      exact ha _ arg r (hu _ (List.mem_singleton_self _)) (hk.mono hpre)
    | tuple _ | yStar | builtin _ | partialCall _ _ | integer _ | string _ | truth _ | dummy
    | error =>
      exact .of_delivers (Machine.apply_delivers depth hf hk nofun nofun) rfl r

end Value

namespace Tree

variable {t : Tree} {sink out : Sink} {m : Machine} {n : Numbering} {result : Except Fault Symbol}

-- The value is all that is left, and flushing does not change what was written.
theorem ends_of_value (v : Value) (frames : Array Frame) :
    (Machine.mk [] [v.symbol] frames 0 sink).Ends
      (if sink.flushes then .ok v.symbol else .error (.evaluation (.flush .flushRefused)))
      sink := by
  refine ⟨0, ⟨[], if sink.flushes then [] else [v.symbol], frames, 0, sink⟩, ?_, rfl⟩
  simp only [Machine.outcome?, Machine.run, Machine.finish, Sink.flush, List.isEmpty_nil, if_true]
  cases sink.flushes
  case false => rfl
  case true  => cases v <;> rfl

-- The outcome of a program once its code has been run: its frame is left and the output flushed.
theorem ends_of_yields (core : Core) (label depth : Nat)
    (y : Yields ([·]) depth ⟨core.code ++ [.marker 0], [.marker 0], #[{}], 0, sink⟩ [.empty]
      [.marker 0] [.marker 0] 0 (core.eval (Value.apply depth) .empty ⟨1, sink⟩)) :
    match meaning?.program depth core ⟨1, sink⟩ with
    | some (result, w) => (Machine.start ⟨label, core.code⟩ sink).Ends result w.sink
    | none             => ∃ m', (Machine.start ⟨label, core.code⟩ sink).Reaches depth m' := by
  have hstart : (Machine.start ⟨label, core.code⟩ sink).step? =
      some (.ok () ⟨core.code ++ [.marker 0], [.marker 0], #[{}], 0, sink⟩) := rfl
  rw [meaning?.program]
  rw [Evaluation.bind_apply]
  match core.eval (Value.apply depth) .empty ⟨1, sink⟩, y with
  | some (.ok v, w), ⟨k, frames, scopes, hr, hp, he, hk⟩ =>
    have ⟨f, hf, hl⟩ := he.frames 0 {} rfl
    let frames' := frames.setIfInBounds 0 { f with removed := true }
    have hleave :
        (Machine.mk [.marker 0] (Value.symbols [v] ++ [.marker 0]) frames 0 w.sink).step? =
          some (.ok () ⟨[], [v.symbol], frames', 0, w.sink⟩) :=
      congrArg some ((Machine.leave_symbol hf v).trans (by simp [hl.caller, frames']))
    have hends := (ends_of_value v frames').of_reaches
      (.step hstart (hr.trans (.single hleave)))
    simp only [Evaluation.onSink, Sink.flush]
    cases hflush : w.sink.flushes <;> simpa [hflush] using hends
  | some (.error e, w), ⟨k, m₁, m₂, hr, hs, hw⟩ =>
    have := Machine.Ends.of_error hs
    simp only
    exact hw ▸ this.of_reaches (.step hstart hr)
  | none, ⟨m', hr⟩ =>
    simp only
    exact (Machine.Reaches.step hstart hr).prefix_of_le (Nat.le_succ _)

-- The machine ends with an outcome exactly if direct evaluation does.
theorem ends_iff_meaning (accepted : t.machine sink = .ok (m, n)) :
    m.Ends result out ↔ ∃ depth, t.meaning? depth sink = some (result, out) := by
  obtain ⟨core, k, hn, rfl, rfl⟩ := machine_eq_ok_iff.mp accepted
  have hy (depth : Nat) := ends_of_yields core k.nextBlock depth
    (core.eval_implements (Value.apply_applies depth) (.initial sink) rfl)
  simp only [meaning?, hn, Option.map_eq_some_iff, Prod.mk.injEq]
  constructor
  case mp =>
    intro he
    have ⟨limit, final, ho, _⟩ := he
    have y := hy (limit + 1)
    split at y
    case h_1 result' w hw =>
      have ⟨hresult, hout⟩ := he.deterministic y
      exact ⟨limit + 1, ⟨result', w⟩, hw, hresult.symm, hout.symm⟩
    case h_2 =>
      have ⟨m', hr⟩ := y
      simp [Machine.outcome?, hr.run_eq_none (Nat.lt_succ_self limit)] at ho
  case mpr =>
    rintro ⟨depth, ⟨result', w⟩, hw, rfl, rfl⟩
    have y := hy depth
    rwa [hw] at y

theorem factorial_ends :
    ∃ m n, (factorial 3).machine {} = .ok (m, n) ∧ m.Ends (.ok .dummy) { written := [54] } :=
  ⟨_, _, rfl, (ends_iff_meaning (t := factorial 3) rfl).mpr ⟨10, rfl⟩⟩

end Tree

end RpalMachine
