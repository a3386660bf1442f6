import Mathlib.Logic.Relation
import RpalMachine.Proofs.Lasting
import RpalMachine.Proofs.Sound

namespace RpalMachine

-- The frame whose marker a symbol is.
def Symbol.marker? : Symbol → Option Nat
  | marker i => some i
  | _        => none

theorem Value.filterMap_marker?_symbols (vs : List Value) :
    (symbols vs).filterMap Symbol.marker? = [] := by
  rw [symbols_eq_map, List.filterMap_map, List.filterMap_eq_nil_iff]
  intro v _
  cases v <;> rfl

theorem Ready.filterMap_marker? {n : Nat} {code : List Symbol} (ready : Ready n code) :
    code.filterMap Symbol.marker? = [] := by
  induction ready
  case done            => rfl
  case constant c _ hi => cases c <;> exact hi
  all_goals assumption

theorem Balanced.filterMap_marker? {scopes : List (Scope Value)} {due : Nat} {markers : List Nat}
    {control stack : List Symbol} (b : Balanced scopes due markers control stack) :
    control.filterMap Symbol.marker? = markers ∧ stack.filterMap Symbol.marker? = markers := by
  induction b
  case bottom => exact ⟨rfl, Value.filterMap_marker?_symbols _⟩
  case call i ready _ _ hi =>
    simp [ready.filterMap_marker?, Value.filterMap_marker?_symbols, Symbol.marker?, hi]

-- The frame lies directly inside the other one.
def ParentOf (frames : Array Frame) (i p : Nat) : Prop :=
  ∃ frame, frames[i]? = some frame ∧ frame.parent = some p

namespace Machine

-- The frames whose markers are on the control, the topmost first.
def markers (m : Machine) : List Nat :=
  m.control.filterMap Symbol.marker?

structure Disciplined (m : Machine) : Prop where
  nonempty : 0 < m.frames.size
  placed   : ∀ (i : Nat) (frame : Frame), m.frames[i]? = some frame → frame.Placed i
  -- Every frame lies inside the first one, and no walk outwards from a frame passes more frames
  -- than there are below it.
  rooted   : ∀ i < m.frames.size, Relation.ReflTransGen (ParentOf m.frames) i 0
  walks    : ∀ x i n, i < n → lookup?.go m.frames x n i = lookup?.go m.frames x (i + 1) i
  markers  : m.stack.filterMap Symbol.marker? = m.markers
  current  : ∀ i below, m.markers = i :: below → m.current = i
  -- A frame was called from the one of the marker below.
  callers  : ∀ above i below, m.markers = above ++ i :: below →
    ∃ frame : Frame, m.frames[i]? = some frame ∧ frame.caller = below.head?
  removed  : ∀ (i : Nat) (frame : Frame),
    m.frames[i]? = some frame → (frame.removed ↔ i ∉ m.markers)

end Machine

namespace Linked

variable {frames : Array Frame} {markers : List Nat} {current : Nat}

theorem rooted (l : Linked frames markers current) (i : Nat) (hi : i < frames.size) :
    Relation.ReflTransGen (ParentOf frames) i 0 := by
  induction i using Nat.strongRecOn
  case ind i ih =>
    have hf := Array.getElem?_eq_getElem hi
    have hp := (l.placed hf).parent
    split at hp
    case isTrue h0 => exact h0 ▸ .refl
    case isFalse =>
      have ⟨p, hlt, hp⟩ := hp
      exact .head ⟨_, hf, hp⟩ (ih p hlt (Nat.lt_trans hlt hi))

theorem walks (l : Linked frames markers current) (x : String) (i n : Nat) (hn : i < n) :
    lookup?.go frames x n i = lookup?.go frames x (i + 1) i := by
  induction i using Nat.strongRecOn generalizing n
  case ind i ih =>
    match n, hn with
    | n + 1, hn =>
      simp only [lookup?.go]
      cases hf : frames[i]?
      case none => rfl
      case some frame =>
        simp only [Option.bind_eq_bind, Option.bind_some]
        cases frame.get? x
        case some => rfl
        case none =>
          have hp := (l.placed hf).parent
          split at hp
          case isTrue => simp [hp]
          case isFalse =>
            obtain ⟨p, hlt, hp⟩ := hp
            simp [hp, ih p hlt n (by omega), ih p hlt i hlt]

theorem callers_split (l : Linked frames markers current) {above below : List Nat} {i : Nat}
    (h : markers = above ++ i :: below) :
    ∃ frame, frames[i]? = some frame ∧ frame.caller = below.head? := by
  subst h
  cases below
  case cons c below => exact (List.isChain_split.mp l.callers).2.rel_head? rfl
  case nil =>
    have h0 : i = 0 := l.last i (by simp)
    have hf := Array.getElem?_eq_getElem l.nonempty
    have hc := (l.placed hf).caller
    exact h0 ▸ ⟨_, hf, hc⟩

end Linked

theorem Machine.Sound.disciplined {m : Machine} {scopes : List (Scope Value)} {markers : List Nat}
    (s : m.Sound scopes markers) : m.Disciplined := by
  have ⟨hcontrol, hstack⟩ := s.balanced.filterMap_marker?
  have hm : m.markers = markers := hcontrol
  refine ⟨s.linked.nonempty, fun _ _ h => s.linked.placed h, s.linked.rooted, s.linked.walks,
    hstack.trans hm.symm, fun i below h => ?_, fun above i below h => ?_, fun i frame h => ?_⟩
  case refine_1 => rw [s.linked.current, ← hm, h, List.headD_cons]
  case refine_2 => exact s.linked.callers_split (hm.symm.trans h)
  case refine_3 => rw [hm, s.linked.removed h]

namespace Tree

variable {t : Tree} {sink : Sink} {m : Machine} {n : Numbering}

-- What a program leaves behind that ends with a value.
theorem frames_of_run {limit : Nat} {x : Symbol} {final : Machine}
    (accepted : t.machine sink = .ok (m, n)) (h : m.run limit = some (.ok x final)) :
    final.control = [] ∧ final.stack = [] ∧ final.current = 0 ∧
      ∀ frame ∈ final.frames, frame.removed := by
  have ⟨k, m₁, r, h⟩ := Machine.run_eq_some h
  have ⟨_, _, s⟩ := sound_of_reaches accepted r
  cases h
  case inl h =>
    have ⟨hc, hf⟩ := h
    have ⟨hm, _⟩ := s.balanced.of_nil hc
    subst hm
    cases Machine.eq_of_finish hf.symm
    refine ⟨hc, rfl, s.linked.current, fun frame hf => ?_⟩
    have ⟨i, hi⟩ := Array.getElem?_of_mem hf
    exact (s.linked.removed hi).mpr List.not_mem_nil
  case inr h =>
    have ⟨_, _, _, hr⟩ := h
    contradiction

-- Frames and markers keep their discipline in every machine that a program comes to, no transition
-- changes a frame but by marking that it has been left, and in the end all have been.
theorem frames_disciplined (accepted : t.machine sink = .ok (m, n)) :
    (∀ k m₁, m.Reaches k m₁ → m₁.Disciplined) ∧
      (∀ (m₁ : Machine) r, m₁.step? = some r → FramesLast m₁.frames (Step.framesOf r)) ∧
      ∀ limit x final, m.run limit = some (.ok x final) →
        final.control = [] ∧ final.stack = [] ∧ final.current = 0 ∧
          ∀ frame ∈ final.frames, frame.removed := by
  refine ⟨fun k m₁ r => ?_, fun m₁ r h => ?_, fun limit x final h => frames_of_run accepted h⟩
  case refine_1 =>
    have ⟨_, _, s⟩ := sound_of_reaches accepted r
    exact s.disciplined
  case refine_2 =>
    rw [Machine.step?] at h
    split at h
    case h_1 => contradiction
    case h_2 y rest _ =>
      cases h
      exact Machine.execute_framesLast y { m₁ with control := rest }

theorem factorial_frames_disciplined :
    ∃ m n, (factorial 3).machine {} = .ok (m, n) ∧ ∀ k m₁, m.Reaches k m₁ → m₁.Disciplined :=
  ⟨_, _, rfl, (frames_disciplined (t := factorial 3) rfl).1⟩

end Tree

end RpalMachine
