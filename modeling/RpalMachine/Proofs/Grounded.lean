import RpalMachine.Proofs.Frames

namespace RpalMachine

namespace Symbol

-- A value at every depth, with closures that were made in one of the first `count` frames.
inductive Grounded (count : Nat) : Symbol → Prop
  | integer (n : Int64) : Grounded count (.integer n)
  | string (s : String) : Grounded count (.string s)
  | truth (b : Bool) : Grounded count (.truth b)
  | dummy : Grounded count .dummy
  | error : Grounded count .error
  | yStar : Grounded count .yStar
  | builtin (fn : Builtin) : Grounded count (.identifier fn.name)
  | tuple {xs : List Symbol} : (∀ x ∈ xs, Grounded count x) → Grounded count (.tuple xs)
  | partialCall {fn : Builtin} {args : List Symbol} :
    args ≠ [] → args.length < fn.arity → (∀ x ∈ args, Grounded count x) →
      Grounded count (.partialCall fn args)
  | lambda {fn : Abstraction Symbol} {i : Nat} :
    fn.env = some i → i < count → Grounded count (.lambda fn)
  | eta {fn : Abstraction Symbol} {i : Nat} :
    fn.env = some i → i < count → Grounded count (.eta fn)

-- Somewhere in the value there is a closure that was made in the frame.
inductive Captures (i : Nat) : Symbol → Prop
  | lambda {fn : Abstraction Symbol} : fn.env = some i → Captures i (.lambda fn)
  | eta {fn : Abstraction Symbol} : fn.env = some i → Captures i (.eta fn)
  | tuple {x : Symbol} {xs : List Symbol} : x ∈ xs → Captures i x → Captures i (.tuple xs)
  | partialCall {fn : Builtin} {x : Symbol} {args : List Symbol} :
    x ∈ args → Captures i x → Captures i (.partialCall fn args)

-- Whether code can hold the symbol.
def isInstruction : Symbol → Bool
  | error | eta _ | partialCall _ _ | tuple (_ :: _) => false
  | _ => true

namespace Grounded

variable {count count' i : Nat} {x y : Symbol}

theorem mono (h : x.Grounded count) (hc : count ≤ count') : x.Grounded count' := by
  induction h
  case tuple hi                => exact .tuple hi
  case partialCall hne hl _ hi => exact .partialCall hne hl hi
  case lambda he hi            => exact .lambda he (Nat.lt_of_lt_of_le hi hc)
  case eta he hi               => exact .eta he (Nat.lt_of_lt_of_le hi hc)
  all_goals constructor

theorem lt_of_captures (h : x.Grounded count) (hc : x.Captures i) : i < count := by
  induction hc
  case lambda he =>
    match h with
    | .lambda he' hi => cases he.symm.trans he'; exact hi
  case eta he =>
    match h with
    | .eta he' hi => cases he.symm.trans he'; exact hi
  case tuple hx _ hi =>
    match h with
    | .tuple hxs => exact hi (hxs _ hx)
  case partialCall hx _ hi =>
    match h with
    | .partialCall _ _ hxs => exact hi (hxs _ hx)

theorem of_isScalar (h : x.isScalar) : x.Grounded count := by
  cases x
  case integer | string | truth | dummy | error => constructor
  all_goals contradiction

theorem of_tuple {xs : List Symbol} (h : (Symbol.tuple xs).Grounded count) :
    ∀ x ∈ xs, x.Grounded count := by
  cases h
  case tuple hxs => exact hxs

theorem of_augment {z : Symbol} (hx : x.Grounded count) (hy : y.Grounded count)
    (h : x.augment y = .ok z) : z.Grounded count := by
  cases x <;> try contradiction
  case tuple xs =>
    cases y <;> cases h
    case tuple ys => exact .tuple (List.forall_mem_append.mpr ⟨hx.of_tuple, hy.of_tuple⟩)
    all_goals
      exact .tuple (List.forall_mem_append.mpr ⟨hx.of_tuple, List.forall_mem_singleton.mpr hy⟩)

theorem of_binary {op : BinaryOperator} {z : Symbol} (hx : x.Grounded count)
    (hy : y.Grounded count) (h : op.apply x y = .ok z) : z.Grounded count := by
  by_cases ha : op = .aug
  case pos =>
    subst ha
    exact of_augment hx hy h
  case neg =>
    have hz := BinaryOperator.apply_outcome x y ha
    rw [h] at hz
    exact of_isScalar hz

theorem of_bind {params : List String} {bindings : List (String × Symbol)}
    (hx : x.Grounded count) (h : Machine.bindParameters params x = .ok bindings) :
    ∀ b ∈ bindings, b.2.Grounded count := by
  simp only [Machine.bindParameters] at h
  split at h
  case h_1 => cases h; simp
  case h_2 => cases h; exact List.forall_mem_singleton.mpr hx
  case h_3 =>
    split at h <;> cases h
    exact fun b hb => hx.of_tuple b.2 (List.of_mem_zip (List.mem_reverse.mp hb)).2
  case h_4 => contradiction

end Grounded

end Symbol

-- What is on the stack are values and markers, and what a frame binds was there before the frame.
structure Machine.Grounded (m : Machine) : Prop where
  stack    : ∀ x ∈ m.stack, (∃ i, x = .marker i) ∨ x.Grounded m.frames.size
  bindings : ∀ (i : Nat) (frame : Frame), m.frames[i]? = some frame →
    ∀ b ∈ frame.bindings, b.2.Grounded i

-- What a name is bound to, however far outwards that is.
theorem grounded_of_lookup?_go {frames : Array Frame} {x : String} {v : Symbol} {n i : Nat}
    (h : ∀ (i : Nat) (frame : Frame), frames[i]? = some frame →
      ∀ b ∈ frame.bindings, b.2.Grounded i)
    (hv : lookup?.go frames x n i = some v) : v.Grounded frames.size := by
  induction n generalizing i
  case zero => contradiction
  case succ n hn =>
    simp only [lookup?.go, Option.bind_eq_bind, Option.bind_eq_some_iff] at hv
    obtain ⟨frame, hf, hv⟩ := hv
    split at hv
    case h_1 hb =>
      cases hv
      have hi := (Array.getElem?_eq_some_iff.mp hf).1
      exact (h i frame hf _ (mem_of_lookup_eq_some hb)).mono hi.le
    case h_2 =>
      obtain ⟨p, _, hv⟩ := Option.bind_eq_some_iff.mp hv
      exact hn hv

-- The computation does not fail because there are too many or too few of something.
def Sized (x : Except Fault α) : Prop :=
  ∀ fault, x ≠ .error (.count fault)

namespace Sized

theorem bind {x : Except Fault α} {f : α → Except Fault β} (hx : Sized x) (hf : ∀ a, Sized (f a)) :
    Sized (x >>= f) := by
  cases x
  case ok a    => exact hf a
  case error e => exact fun fault h => hx fault (congrArg Except.error (Except.error.inj h))

theorem ofEvaluation (x : Except EvaluationFault α) : Sized (Fault.ofEvaluation x) := by
  cases x <;> exact nofun

theorem toInteger (operator : String) (x : Symbol) : Sized (x.toInteger operator) := by
  cases x <;> exact nofun

theorem toTruth (operator : String) (x : Symbol) : Sized (x.toTruth operator) := by
  cases x <;> exact nofun

theorem unary (op : UnaryOperator) (x : Symbol) : Sized (op.apply x) := by
  cases op
  case neg => exact (toInteger _ x).bind fun _ => (ofEvaluation _).bind fun _ => nofun
  case not => exact (toTruth _ x).bind fun _ => nofun

theorem binary (op : BinaryOperator) (x y : Symbol) : Sized (op.apply x y) := by
  cases op
  case add | sub | mul | div | pow =>
    exact (toInteger _ x).bind fun _ => (toInteger _ y).bind fun _ =>
      (ofEvaluation _).bind fun _ => nofun
  case lt | le | gt | ge =>
    exact (toInteger _ x).bind fun _ => (toInteger _ y).bind fun _ => nofun
  case and | or => exact (toTruth _ x).bind fun _ => (toTruth _ y).bind fun _ => nofun
  case eq | ne  => exact nofun
  case aug =>
    rw [BinaryOperator.apply, Symbol.augment.eq_def]
    split <;> rintro _ ⟨⟩

theorem stringArgument (fn : Builtin) (x : Symbol) : Sized (fn.stringArgument x) := by
  cases x <;> exact nofun

theorem tupleArgument (fn : Builtin) (x : Symbol) : Sized (fn.tupleArgument x) := by
  cases x <;> exact nofun

theorem splitArgument (fn : Builtin) (x : Symbol) : Sized (fn.splitArgument x) :=
  (stringArgument fn x).bind fun s => by cases s.toList <;> exact nofun

-- With as many arguments as the function has there is no other number of them.
theorem value {fn : Builtin} {args : List Symbol} (h : args.length = fn.arity)
    (hp : fn ≠ .print) : Sized (fn.value args) := by
  cases fn
  case print => contradiction
  case conc =>
    match args, h with
    | [x, y], _ =>
      exact (stringArgument _ x).bind fun _ => (stringArgument _ y).bind fun _ => nofun
  case stem | stern =>
    match args, h with
    | [x], _ => exact (splitArgument _ x).bind fun _ => nofun
  case order | null =>
    match args, h with
    | [x], _ => exact (tupleArgument _ x).bind fun _ => nofun
  case itos =>
    match args, h with
    | [x], _ => cases x <;> exact nofun
  all_goals
    match args, h with
    | [x], _ => exact nofun

theorem call {fn : Builtin} {args : List Symbol} {sink sink' : Sink} {fault : CountFault}
    (h : args.length = fn.arity) : fn.call args sink ≠ .error (.count fault) sink' := by
  intro hc
  simp only [Builtin.call] at hc
  split at hc
  case h_1 => split at hc <;> cases hc
  case h_2 hp =>
    split at hc <;> cases hc
    case _ hv =>
      refine value h (fun he => ?_) _ hv
      subst he
      obtain ⟨x, rfl⟩ := List.length_eq_one_iff.mp h
      exact hp x rfl rfl

end Sized

-- A function was given another number of arguments than it has.
def Fault.Miscounts (e : Fault) : Prop :=
  ∃ (fn : Builtin) (count : Nat), e = .count (.arguments fn count)

namespace Fault

theorem Miscounts.not_of_sized {x : Except Fault α} {e : Fault} (hx : Sized x)
    (h : x = .error e) : ¬ e.Miscounts := by
  rintro ⟨fn, count, rfl⟩
  exact hx _ h

-- The name of a function is shorter than what is said of a list of parameters.
theorem not_miscounts_tupleParameter (names : List String) (found : Nat) :
    ¬ Miscounts (.count (.tupleParameter names found)) := by
  rintro ⟨fn, count, h⟩
  have hc := congrArg CountFault.context (Fault.count.inj h)
  have hl := congrArg String.length (Option.some.inj hc)
  have hn : fn.name.length < "tuple parameter (".length := by cases fn <;> decide
  simp only [String.length_append] at hl
  omega

theorem not_miscounts_tupleIndex (size : Nat) (index : Int64) :
    ¬ Miscounts (.count (.tupleIndex size index)) :=
  fun ⟨_, _, h⟩ => nomatch congrArg CountFault.found (Fault.count.inj h)

end Fault

-- The step leads from the machine to where `q` holds, or it fails, though not for a wrong number of
-- arguments.
def Step.Leads (x : Step α) (m : Machine) (q : α → Machine → Prop) : Prop :=
  match x m with
  | .ok a m'   => q a m'
  | .error e _ => ¬ e.Miscounts

theorem Step.Leads.bind {x : Step α} {f : α → Step β} {m : Machine} {p : α → Machine → Prop}
    {q : β → Machine → Prop} (hx : x.Leads m p) (hf : ∀ a m', p a m' → (f a).Leads m' q) :
    (x >>= f).Leads m q := by
  rw [Leads] at hx ⊢
  rw [bind_apply]
  cases h : x m <;> rw [h] at hx
  case ok a m'    => exact hf a m' hx
  case error e m' => exact hx

namespace Machine

theorem not_miscounts_of_bindParameters {params : List String} {arg : Symbol} {e : CountFault}
    (h : bindParameters params arg = .error e) : ¬ Fault.Miscounts (.count e) := by
  simp only [bindParameters] at h
  split at h <;> try contradiction
  case h_3 => split at h <;> cases h; exact Fault.not_miscounts_tupleParameter _ _
  case h_4 => cases h; exact Fault.not_miscounts_tupleParameter _ _

variable {m : Machine} {x : Symbol}

namespace Grounded

theorem push (h : m.Grounded) (hx : x.Grounded m.frames.size) :
    (Machine.push x).Leads m fun _ m' => m'.Grounded :=
  ⟨List.forall_mem_cons.mpr ⟨.inr hx, h.stack⟩, h.bindings⟩

theorem popValue (h : m.Grounded) (task : String) : (Machine.popValue task).Leads m
    fun x m' => x.Grounded m.frames.size ∧ m'.Grounded ∧ m'.frames = m.frames := by
  have hs := h.stack
  rw [Step.Leads, Machine.popValue]
  split
  case h_1 heq =>
    split at heq <;> cases heq
    case h_3 rest hne hst =>
      rw [hst, List.forall_mem_cons] at hs
      exact ⟨hs.1.resolve_left (not_exists.mpr hne), ⟨hs.2, h.bindings⟩, rfl⟩
  case h_2 heq =>
    split at heq <;> cases heq <;> rintro ⟨_, _, ⟨⟩⟩

theorem popValues (h : m.Grounded) (task : String) (n : Nat) : (Machine.popValues task n).Leads m
    fun xs m' => (∀ x ∈ xs, x.Grounded m.frames.size) ∧ m'.Grounded ∧ m'.frames = m.frames := by
  induction n generalizing m
  case zero => exact ⟨by simp, h, rfl⟩
  case succ n hi =>
    refine (h.popValue task).bind fun x m₁ ⟨hx, h₁, hf₁⟩ => ?_
    refine (hi h₁).bind fun xs m₂ ⟨hxs, h₂, hf₂⟩ => ?_
    exact ⟨List.forall_mem_cons.mpr ⟨hx, hf₁ ▸ hxs⟩, h₂, hf₂.trans hf₁⟩

theorem lift (h : m.Grounded) {result : Except Fault Symbol} (hs : Sized result)
    (hx : ∀ x, result = .ok x → x.Grounded m.frames.size) :
    (do Machine.push (← Machine.lift result)).Leads m fun _ m' => m'.Grounded := by
  cases result
  case ok x    => exact h.push (hx x rfl)
  case error e => exact Fault.Miscounts.not_of_sized hs rfl

theorem load (h : m.Grounded) (x : String) : (Machine.load x).Leads m fun _ m' => m'.Grounded := by
  simp only [Machine.load, Step.Leads, Step.bind_apply, Step.get_apply]
  cases hv : lookup? m.frames x m.current
  case some v => exact h.push (grounded_of_lookup?_go h.bindings hv)
  case none =>
    cases hb : Builtin.ofName? x
    case none   => rintro ⟨_, _, ⟨⟩⟩
    case some b => exact h.push (Builtin.name_of_ofName? hb ▸ .builtin b)

theorem close (h : m.Grounded) (hc : m.current < m.frames.size) (fn : Abstraction Symbol) :
    (Machine.close fn).Leads m fun _ m' => m'.Grounded :=
  h.push (.lambda rfl hc)

theorem enter (h : m.Grounded) (fn : Abstraction Symbol) :
    (Machine.enter fn).Leads m fun _ m' => m'.Grounded := by
  refine (h.popValue _).bind fun arg m₁ ⟨ha, h₁, hf⟩ => ?_
  rw [← hf] at ha
  split
  case h_1 => rintro ⟨_, _, ⟨⟩⟩
  case h_2 =>
    split
    case h_1 hb => exact not_miscounts_of_bindParameters hb
    case h_2 bindings hb =>
      -- What the new frame binds was there before it.
      refine ⟨List.forall_mem_cons.mpr ⟨.inl ⟨_, rfl⟩, fun x hx => ?_⟩, fun i frame hf => ?_⟩
      case refine_1 => exact (h₁.stack x hx).imp_right fun hx => hx.mono (by simp)
      case refine_2 =>
        rw [Array.getElem?_push] at hf
        split at hf
        case isTrue hi => cases hf; exact hi ▸ ha.of_bind hb
        case isFalse   => exact h₁.bindings i frame hf

theorem popMarker (h : m.Grounded) (i : Nat) : (Machine.popMarker i).Leads m
    fun _ m' => m'.Grounded ∧ m'.frames = m.frames := by
  have hs := h.stack
  rw [Step.Leads, Machine.popMarker]
  cases hst : m.stack
  case nil => rintro ⟨_, _, ⟨⟩⟩
  case cons x rest =>
    rw [hst, List.forall_mem_cons] at hs
    by_cases hx : x = .marker i
    case pos => simpa [hx] using ⟨hs.2, h.bindings⟩
    case neg =>
      simp only [hx, if_false]
      rintro ⟨_, _, ⟨⟩⟩

-- A frame that has been left binds what it did.
theorem closeFrame (h : m.Grounded) (i : Nat) : (Machine.closeFrame i).Leads m
    fun _ m' => m'.Grounded ∧ m'.frames.size = m.frames.size := by
  rw [Step.Leads, Machine.closeFrame]
  cases hf : m.frames[i]?
  case none => rintro ⟨_, _, ⟨⟩⟩
  case some frame =>
    refine ⟨⟨by simpa using h.stack, fun j f hj => ?_⟩, by simp⟩
    by_cases hij : i = j
    case neg => exact h.bindings j f (by simpa [hij] using hj)
    case pos =>
      subst hij
      cases Linked.eq_of_retire hf hj
      exact h.bindings i frame hf

theorem leave (h : m.Grounded) (i : Nat) :
    (Machine.leave i).Leads m fun _ m' => m'.Grounded := by
  rw [leave_eq]
  refine (h.popValue _).bind fun x m₁ ⟨hx, h₁, hf₁⟩ => ?_
  refine (h₁.popMarker i).bind fun _ m₂ ⟨h₂, hf₂⟩ => ?_
  refine (h₂.closeFrame i).bind fun _ m₃ ⟨h₃, hs⟩ => ?_
  exact h₃.push (by rwa [hs, hf₂, hf₁])

theorem select (h : m.Grounded) {xs : List Symbol} (hxs : ∀ x ∈ xs, x.Grounded m.frames.size) :
    (Machine.select xs).Leads m fun _ m' => m'.Grounded := by
  refine (h.popValue _).bind fun arg m₁ ⟨_, h₁, hf⟩ => ?_
  rw [← hf] at hxs
  split
  case h_2 => rintro ⟨_, _, ⟨⟩⟩
  case h_1 =>
    split
    case isFalse => exact Fault.not_miscounts_tupleIndex _ _
    case isTrue  =>
      split
      case h_1 x hx => exact h₁.push (hxs x (List.mem_of_getElem? hx))
      case h_2      => exact Fault.not_miscounts_tupleIndex _ _

theorem tie (h : m.Grounded) : Machine.tie.Leads m fun _ m' => m'.Grounded := by
  refine (h.popValue _).bind fun arg m₁ ⟨ha, h₁, hf⟩ => ?_
  rw [← hf] at ha
  split
  case h_2 => rintro ⟨_, _, ⟨⟩⟩
  case h_1 =>
    match ha with
    | .lambda he hi => exact h₁.push (.eta he hi)

theorem unroll (h : m.Grounded) {fn : Abstraction Symbol}
    (hfn : (Symbol.eta fn).Grounded m.frames.size) :
    (Machine.unroll fn).Leads m fun _ m' => m'.Grounded := by
  match hfn with
  | .eta he hi =>
    have hs := List.forall_mem_cons.mpr ⟨.inr (.eta he hi), h.stack⟩
    exact ⟨List.forall_mem_cons.mpr ⟨.inr (.lambda he hi), hs⟩, h.bindings⟩

-- There are arguments missing before the call, and with the last one there are none.
theorem callWith (h : m.Grounded) {fn : Builtin} {args : List Symbol} (hl : args.length < fn.arity)
    (hargs : ∀ x ∈ args, x.Grounded m.frames.size) :
    (Machine.callWith fn args).Leads m fun _ m' => m'.Grounded := by
  refine (h.popValue _).bind fun arg m₁ ⟨ha, h₁, hf⟩ => ?_
  rw [← hf] at ha hargs
  have hall := List.forall_mem_append.mpr ⟨hargs, List.forall_mem_singleton.mpr ha⟩
  dsimp only
  split
  case isTrue hlt => exact h₁.push (.partialCall (by simp) hlt hall)
  case isFalse hge =>
    have hlen : (args ++ [arg]).length = fn.arity := by simp at hge ⊢; omega
    have hc := fn.call_outcome (args ++ [arg]) m₁.sink
    simp only [Step.Leads, Step.bind_apply, onSink]
    cases hr : fn.call (args ++ [arg]) m₁.sink <;> rw [hr] at hc
    case ok x sink    =>
      exact ⟨List.forall_mem_cons.mpr ⟨.inr (.of_isScalar hc), h₁.stack⟩, h₁.bindings⟩
    case error e sink =>
      rintro ⟨_, _, rfl⟩
      exact Sized.call hlen hr

theorem apply (h : m.Grounded) : Machine.apply.Leads m fun _ m' => m'.Grounded := by
  refine (h.popValue _).bind fun fn m₁ ⟨hfn, h₁, hf⟩ => ?_
  rw [← hf] at hfn
  split
  case h_1 => exact h₁.enter _
  case h_2 => exact h₁.select hfn.of_tuple
  case h_3 => exact h₁.tie
  case h_4 => exact h₁.unroll hfn
  case h_5 =>
    match hfn with
    | .partialCall _ hl hargs => exact h₁.callWith hl hargs
  case h_6 =>
    split
    case h_1 b _ => exact h₁.callWith b.arity_pos nofun
    case h_2     => rintro ⟨_, _, ⟨⟩⟩
  case h_7 => rintro ⟨_, _, ⟨⟩⟩

theorem choose (h : m.Grounded) (condition : Bool) :
    (Machine.choose condition).Leads m fun _ m' => m'.Grounded := by
  rw [Step.Leads, Machine.choose]
  split
  case h_1 heq => split at heq <;> cases heq; exact ⟨h.stack, h.bindings⟩
  case h_2 heq => split at heq <;> cases heq; rintro ⟨_, _, ⟨⟩⟩

theorem branch (h : m.Grounded) : Machine.branch.Leads m fun _ m' => m'.Grounded := by
  refine (h.popValue _).bind fun x m₁ ⟨_, h₁, _⟩ => ?_
  split
  case h_1 => exact h₁.choose _
  case h_2 => rintro ⟨_, _, ⟨⟩⟩

theorem execute (h : m.Grounded) (hc : m.current < m.frames.size) (hx : x.isInstruction) :
    (Machine.execute x).Leads m fun _ m' => m'.Grounded := by
  cases x
  case identifier x => exact h.load x
  case lambda fn    => exact h.close hc fn
  case gamma        => exact h.apply
  case marker i     => exact h.leave i
  case beta         => exact h.branch
  case delta block  => exact ⟨h.stack, h.bindings⟩
  case test code    => exact ⟨h.stack, h.bindings⟩
  case tau n =>
    exact (h.popValues _ n).bind fun xs m₁ ⟨hxs, h₁, hf⟩ => h₁.push (.tuple (hf ▸ hxs))
  case unary op =>
    refine (h.popValue _).bind fun x m₁ ⟨hx, h₁, hf⟩ => h₁.lift (.unary op x) fun y hy => ?_
    have ho := op.apply_outcome x
    rw [hy] at ho
    exact .of_isScalar ho
  case binary op =>
    refine (h.popValue _).bind fun x m₁ ⟨hx, h₁, hf₁⟩ => ?_
    refine (h₁.popValue _).bind fun y m₂ ⟨hy, h₂, hf₂⟩ => h₂.lift (.binary op x y) fun z hz => ?_
    rw [hf₂]
    exact .of_binary (hf₁ ▸ hx) hy hz
  case tuple xs =>
    cases xs
    case nil  => exact h.push (.tuple nofun)
    case cons => contradiction
  case error | eta | partialCall => contradiction
  all_goals exact h.push (by constructor)

end Grounded

end Machine

end RpalMachine
