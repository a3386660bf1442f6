import RpalMachine.Proofs.Lasting
import RpalMachine.Proofs.Values

namespace RpalMachine

theorem getElem?_mono {xs ys : List α} {i : Nat} {a : α} (h : xs <+: ys)
    (ha : xs[i]? = some a) : ys[i]? = some a := by
  obtain ⟨zs, rfl⟩ := h
  have ⟨hi, _⟩ := List.getElem?_eq_some_iff.mp ha
  rwa [List.getElem?_append_left hi]

theorem mem_of_lookup_eq_some {x : String} {b : β} :
    {xs : List (String × β)} → xs.lookup x = some b → (x, b) ∈ xs
  | (y, c) :: xs, h => by
    rw [List.lookup_cons] at h
    split at h
    case h_1 he => cases h; simp [eq_of_beq he]
    case h_2 => simp [mem_of_lookup_eq_some h]

namespace Value

-- What holds of every closure in the value.
def All (p : Closure Value → Prop) (v : Value) : Prop :=
  ∀ fn ∈ v.closures, p fn

section

variable {p : Closure Value → Prop} {v w : Value} {vs : List Value}

theorem all_of_closures_eq_nil (h : v.closures = []) : v.All p := by
  simp [All, h]

@[simp]
theorem all_closure_iff {fn : Closure Value} : (closure fn).All p ↔ p fn := by
  simp [All, closures]

theorem all_tuple_iff : (tuple vs).All p ↔ ∀ v ∈ vs, v.All p := by
  simp only [All, closures, forestClosures_eq_flatMap, List.mem_flatMap]
  grind

theorem all_partialCall_iff {b : Builtin} : (partialCall b vs).All p ↔ ∀ v ∈ vs, v.All p :=
  all_tuple_iff

theorem all_ofScalar (s : Symbol) : (ofScalar s).All p := by
  cases s <;> exact all_of_closures_eq_nil rfl

theorem all_ofConstant (c : Constant) : (ofConstant c).All p := by
  cases c <;> exact all_of_closures_eq_nil rfl

theorem unary_outcome (op : UnaryOperator) (v : Value) : Outcome (·.All p) (v.unary op) :=
  (op.apply_outcome v.symbol).map fun s _ => all_ofScalar s

theorem binary_outcome (op : BinaryOperator) (hv : v.All p) (hw : w.All p) :
    Outcome (·.All p) (v.binary op w) := by
  by_cases ha : op = .aug
  case pos =>
    subst ha
    cases v <;> try rfl
    case tuple vs =>
      rw [all_tuple_iff] at hv
      cases w <;> simp only [binary, Outcome] <;> rw [all_tuple_iff]
      case tuple ws =>
        rw [all_tuple_iff] at hw
        exact fun u hu => (List.mem_append.mp hu).elim (hv u) (hw u)
      all_goals
        exact fun u hu => (List.mem_append.mp hu).elim (hv u) (List.mem_singleton.mp · ▸ hw)
  case neg =>
    rw [binary_eq_of_ne ha]
    exact (BinaryOperator.apply_outcome _ _ ha).map fun s _ => all_ofScalar s

theorem select_outcome (hv : ∀ v ∈ vs, v.All p) (w : Value) :
    Outcome (·.All p) (select vs w) := by
  simp only [select]
  split
  case h_1 =>
    split
    case isTrue =>
      split
      case h_1 he => exact hv _ (List.mem_of_getElem? he)
      case h_2    => rfl
    case isFalse => rfl
  case h_2 => rfl

theorem tie_outcome (hv : v.All p) : Outcome (·.All p) (tie v) := by
  cases v <;> try rfl
  case closure => exact hv

theorem bind_outcome (hv : v.All p) (params : List String) :
    Outcome (∀ b ∈ ·, b.2.All p) (v.bind params) := by
  simp only [bind]
  split
  case h_1 => simp [Outcome]
  case h_2 => simpa [Outcome]
  case h_3 =>
    split
    case isTrue =>
      rw [all_tuple_iff] at hv
      exact fun b hb => hv b.2 (List.of_mem_zip (List.mem_reverse.mp hb)).2
    case isFalse => rfl
  case h_4 => rfl

end

-- Every closure in the value was made in one of the given scopes.
def Known (scopes : List (Scope Value)) (v : Value) : Prop :=
  ∀ fn ∈ v.closures, scopes[fn.scope.number]? = some fn.scope

variable {scopes scopes' : List (Scope Value)} {v : Value} {vs : List Value}

theorem Known.mono (hv : v.Known scopes) (h : scopes <+: scopes') : v.Known scopes' :=
  fun fn hf => getElem?_mono h (hv fn hf)

theorem known_of_closures_eq_nil (h : v.closures = []) : v.Known scopes :=
  all_of_closures_eq_nil h

theorem known_tuple_iff : (tuple vs).Known scopes ↔ ∀ v ∈ vs, v.Known scopes :=
  all_tuple_iff

theorem known_partialCall_iff {b : Builtin} :
    (partialCall b vs).Known scopes ↔ ∀ v ∈ vs, v.Known scopes :=
  all_tuple_iff

theorem known_ofScalar (s : Symbol) : (ofScalar s).Known scopes :=
  all_ofScalar s

theorem known_ofConstant (c : Constant) : (ofConstant c).Known scopes :=
  all_ofConstant c

end Value

-- A frame holds the innermost bindings of a scope, and its parent holds the others.
structure Scope.HeldBy (frames : Array Frame) (scopes : List (Scope Value)) (i : Nat)
    (s : Scope Value) : Prop where
  number : s.number = i
  known  : ∀ b ∈ s.bindings, b.2.Known scopes
  frame  : ∃ frame own, frames[i]? = some frame ∧ frame.bindings = Value.shown own ∧
    match frame.parent with
    | none   => s.bindings = own
    | some p => ∃ outer, p < i ∧ scopes[p]? = some outer ∧ s.bindings = own ++ outer.bindings

-- The frames of a machine hold the scopes that direct evaluation has made so far.
structure Represents (frames : Array Frame) (scopes : List (Scope Value)) (w : World) : Prop where
  size  : frames.size = scopes.length
  count : w.scopes = scopes.length
  held  : ∀ {i : Nat} {s : Scope Value}, scopes[i]? = some s → s.HeldBy frames scopes i

-- How frames and scopes may change while something is evaluated.
structure Extends (frames frames' : Array Frame) (scopes scopes' : List (Scope Value)) : Prop where
  scopes : scopes <+: scopes'
  frames : FramesLast frames frames'

namespace Extends

variable {frames frames' frames₁ frames₂ : Array Frame}
variable {scopes scopes' scopes₁ scopes₂ : List (Scope Value)}

theorem refl : Extends frames frames scopes scopes where
  scopes := List.prefix_rfl
  frames := .refl

theorem trans (e₁ : Extends frames frames₁ scopes scopes₁)
    (e₂ : Extends frames₁ frames₂ scopes₁ scopes₂) : Extends frames frames₂ scopes scopes₂ where
  scopes := e₁.scopes.trans e₂.scopes
  frames := e₁.frames.trans e₂.frames

end Extends

namespace Represents

variable {frames : Array Frame} {scopes : List (Scope Value)} {w : World} {s outer : Scope Value}

theorem lookup_go (r : Represents frames scopes w) {n i : Nat} (x : String)
    (hs : scopes[i]? = some s) (hi : i < n) :
    lookup?.go frames x n i = (s.bindings.lookup x).map Value.symbol := by
  induction n generalizing i s
  case zero => contradiction
  case succ n hn =>
    have ⟨frame, own, hf, hb, hp⟩ := r.held hs |>.frame
    have hx : frame.get? x = (own.lookup x).map Value.symbol := by
      rw [Frame.get?, hb, Value.lookup_shown]
    simp only [lookup?.go, hf, Option.bind_eq_bind, Option.bind_some, hx]
    split at hp
    case h_1 h => cases ho : own.lookup x <;> simp [h, hp, ho]
    case h_2 p h =>
      have ⟨outer, hpi, houter, hp⟩ := hp
      have hgo := hn houter (by omega)
      cases ho : own.lookup x <;> simp [h, hp, ho, hgo, List.lookup_append]

theorem lookup?_eq (r : Represents frames scopes w) (x : String)
    (hs : scopes[s.number]? = some s) :
    lookup? frames x s.number = (s.bindings.lookup x).map Value.symbol := by
  have ⟨hi, _⟩ := List.getElem?_eq_some_iff.mp hs
  exact r.lookup_go x hs (r.size ▸ hi)

theorem lt_size (r : Represents frames scopes w) {i : Nat} (hs : scopes[i]? = some s) :
    i < frames.size :=
  have ⟨hi, _⟩ := List.getElem?_eq_some_iff.mp hs
  r.size ▸ hi

-- At the beginning there is one frame, in which nothing is bound.
theorem initial (sink : Sink) : Represents #[{}] [.empty] ⟨1, sink⟩ where
  size  := rfl
  count := rfl
  held  := by
    intro i s h
    cases i <;> simp at h
    subst h
    exact ⟨rfl, by simp [Scope.empty], {}, [], rfl, rfl, rfl⟩

-- A call makes a frame inside the one that the closure was made in.
theorem push (r : Represents frames scopes w) {own : List (String × Value)} (frame : Frame)
    (houter : scopes[outer.number]? = some outer) (hown : ∀ b ∈ own, b.2.Known scopes)
    (hb : frame.bindings = Value.shown own) (hp : frame.parent = some outer.number) :
    Represents (frames.push frame) (scopes ++ [⟨w.scopes, own ++ outer.bindings⟩])
      { w with scopes := w.scopes + 1 } where
  size  := by simp [r.size]
  count := by simp [r.count]
  held  := by
    intro i s hs
    have hpre : scopes <+: scopes ++ [⟨w.scopes, own ++ outer.bindings⟩] := List.prefix_append ..
    rw [List.getElem?_append] at hs
    split at hs
    case isTrue hi =>
      have ⟨number, known, f, o, hf, hb, hp⟩ := r.held hs
      refine ⟨number, fun b hm => (known b hm).mono hpre, f, o, ?_, hb, ?_⟩
      case refine_1 => rw [Array.getElem?_push, if_neg (r.size ▸ Nat.ne_of_lt hi), hf]
      case refine_2 =>
        split at hp
        case h_1 => simpa
        case h_2 p _ =>
          have ⟨outer, hpi, houter, hp⟩ := hp
          exact ⟨outer, hpi, getElem?_mono hpre houter, hp⟩
    case isFalse hi =>
      have ⟨hi', hs⟩ := List.getElem?_eq_some_iff.mp hs
      have hi : i = scopes.length := by simp at hi'; omega
      subst hi
      simp only [Nat.sub_self, List.getElem_cons_zero] at hs
      subst hs
      refine ⟨r.count, ?_, frame, own, ?_, hb, ?_⟩
      case refine_1 =>
        intro b hm
        cases List.mem_append.mp hm
        case inl hm => exact (hown b hm).mono hpre
        case inr hm => exact ((r.held houter).known b hm).mono hpre
      case refine_2 => simp [← r.size]
      case refine_3 =>
        rw [hp]
        exact ⟨outer, r.size ▸ r.lt_size houter, getElem?_mono hpre houter, rfl⟩

-- A frame that has been left goes on holding what it did.
theorem retire (r : Represents frames scopes w) {i : Nat} {frame : Frame}
    (hf : frames[i]? = some frame) :
    Represents (frames.setIfInBounds i { frame with removed := true }) scopes w where
  size  := by simp [r.size]
  count := r.count
  held  := by
    intro j s hs
    have ⟨number, known, f, own, hj, hb, hp⟩ := r.held hs
    by_cases h : i = j
    case pos =>
      subst h
      cases hf.symm.trans hj
      have ⟨hi, _⟩ := Array.getElem?_eq_some_iff.mp hf
      exact ⟨number, known, { frame with removed := true }, own, by simp [hi], hb, hp⟩
    case neg => exact ⟨number, known, f, own, by simp [h, hj], hb, hp⟩

end Represents

end RpalMachine
