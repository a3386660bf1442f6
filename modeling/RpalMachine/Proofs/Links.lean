import Mathlib.Data.List.Chain
import RpalMachine.Proofs.Transitions

namespace RpalMachine

-- A frame stands at its index, inside a frame made before it and called from one.
structure Frame.Placed (frame : Frame) (i : Nat) : Prop where
  index  : frame.index = i
  parent : if i = 0 then frame.parent = none else ∃ p < i, frame.parent = some p
  caller : if i = 0 then frame.caller = none else ∃ c < i, frame.caller = some c

-- The frame was called from the other one.
def CalledFrom (frames : Array Frame) (i c : Nat) : Prop :=
  ∃ frame, frames[i]? = some frame ∧ frame.caller = some c

theorem CalledFrom.lasts {frames frames' : Array Frame} {i c : Nat} (h : CalledFrom frames i c)
    (hl : FramesLast frames frames') : CalledFrom frames' i c :=
  have ⟨_, hf, hc⟩ := h
  have ⟨_, hf', l⟩ := hl _ _ hf
  ⟨_, hf', l.caller.trans hc⟩

-- The marked frames, from the current one to the first, are those that have not been left.
structure Linked (frames : Array Frame) (markers : List Nat) (current : Nat) : Prop where
  nonempty : 0 < frames.size
  placed   : ∀ {i : Nat} {frame : Frame}, frames[i]? = some frame → frame.Placed i
  callers  : markers.IsChain (CalledFrom frames)
  last     : ∀ i ∈ markers.getLast?, i = 0
  current  : current = markers.headD 0
  removed  : ∀ {i : Nat} {frame : Frame}, frames[i]? = some frame → (frame.removed ↔ i ∉ markers)

namespace Linked

variable {frames : Array Frame} {markers : List Nat} {current i c : Nat}

theorem initial : Linked #[{}] [0] 0 where
  nonempty := by decide
  placed   := by
    intro i frame h
    cases i <;> simp at h
    subst h
    exact ⟨rfl, rfl, rfl⟩
  callers  := .singleton 0
  last     := by simp
  current  := rfl
  removed  := by
    intro i frame h
    cases i <;> simp at h
    subst h
    decide

theorem lt_of_calledFrom (l : Linked frames markers current) (h : CalledFrom frames i c) :
    c < i := by
  have ⟨frame, hf, hc⟩ := h
  have hp := (l.placed hf).caller
  split at hp
  case isTrue  => simp [hp] at hc
  case isFalse =>
    have ⟨_, hlt, hc'⟩ := hp
    cases hc.symm.trans hc'
    exact hlt

-- Frames that were called later are nearer to the current one.
theorem pairwise (l : Linked frames markers current) : markers.Pairwise (· > ·) :=
  List.isChain_iff_pairwise.mp (l.callers.imp fun _ _ h => l.lt_of_calledFrom h)

theorem lt_size (l : Linked frames markers current) (hi : i ∈ markers) : i < frames.size := by
  have ⟨before, after, h⟩ := List.append_of_mem hi
  cases after
  case nil =>
    have := l.last i (by simp [h])
    exact this ▸ l.nonempty
  case cons c after =>
    have ⟨_, hf, _⟩ := List.isChain_split.mp (h ▸ l.callers) |>.2.rel_head? rfl
    exact (Array.getElem?_eq_some_iff.mp hf).1

theorem current_lt (l : Linked frames markers current) : current < frames.size := by
  rw [l.current]
  cases markers
  case nil  => exact l.nonempty
  case cons => exact l.lt_size (List.mem_cons_self ..)

-- What becomes of a frame that is left.
theorem eq_of_retire {frame f : Frame} (hf : frames[i]? = some frame)
    (h : (frames.setIfInBounds i { frame with removed := true })[i]? = some f) :
    f = { frame with removed := true } := by
  have hi := (Array.getElem?_eq_some_iff.mp hf).1
  rw [Array.getElem?_setIfInBounds_self_of_lt hi] at h
  exact (Option.some.inj h).symm

-- A call is made from the current frame.
theorem push (l : Linked frames (i :: markers) current) {fn : Closure Value}
    (hp : fn.scope.number < frames.size) (bindings : List (String × Value)) :
    Linked (frames.push (Machine.frameOf fn bindings frames.size current))
      (frames.size :: i :: markers) frames.size where
  nonempty := by simp
  placed   := by
    intro j f hf
    rw [Array.getElem?_push] at hf
    split at hf
    case isTrue hj =>
      cases hf
      have h0 : j ≠ 0 := hj ▸ Nat.ne_of_gt l.nonempty
      refine ⟨hj.symm, ?_, ?_⟩ <;> rw [if_neg h0]
      case refine_1 => exact ⟨_, hj ▸ hp, rfl⟩
      case refine_2 => exact ⟨_, hj ▸ l.current_lt, rfl⟩
    case isFalse => exact l.placed hf
  callers  := by
    refine .cons_cons ⟨_, Array.getElem?_push_size, congrArg some l.current⟩ ?_
    exact l.callers.imp fun _ _ h => h.lasts (.push _)
  last     := by simpa using l.last
  current  := rfl
  removed  := by
    intro j f hf
    rw [Array.getElem?_push] at hf
    split at hf
    case isTrue hj  => cases hf; simp [hj, Machine.frameOf]
    case isFalse hj => simp [l.removed hf, hj]

-- Leaving a frame makes the one current that it was called from.
theorem retire (l : Linked frames (i :: markers) current) {frame : Frame}
    (hf : frames[i]? = some frame) :
    Linked (frames.setIfInBounds i { frame with removed := true }) markers
      (frame.caller.getD current) where
  nonempty := by simpa using l.nonempty
  placed   := by
    intro j f hj
    by_cases h : i = j
    case neg => exact l.placed (by simpa [h] using hj)
    case pos =>
      subst h
      cases eq_of_retire hf hj
      have hp := l.placed hf
      exact ⟨hp.index, hp.parent, hp.caller⟩
  callers  := l.callers.tail.imp fun _ _ h => h.lasts (.retire hf)
  last     := by
    cases markers
    case nil  => simp
    case cons => simpa using l.last
  current  := by
    cases markers
    case nil =>
      have h0 : i = 0 := l.last i rfl
      have hc := (l.placed hf).caller
      rw [if_pos h0] at hc
      simp [hc, l.current, h0]
    case cons =>
      have ⟨_, hf', hc⟩ := l.callers.rel_head? rfl
      cases hf.symm.trans hf'
      simp [hc]
  removed  := by
    intro j f hj
    by_cases h : i = j
    case neg => rw [l.removed (by simpa [h] using hj), List.mem_cons, or_iff_right (Ne.symm h)]
    case pos =>
      subst h
      cases eq_of_retire hf hj
      have hn : i ∉ markers := fun hm => Nat.lt_irrefl i (List.rel_of_pairwise_cons l.pairwise hm)
      simp [hn]

end Linked

end RpalMachine
