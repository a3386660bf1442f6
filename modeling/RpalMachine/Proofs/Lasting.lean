import RpalMachine.Proofs.Steps

namespace RpalMachine

-- The frame is still the one it was, though it may have been left.
structure Frame.Lasts (old new : Frame) : Prop where
  index    : new.index = old.index
  bindings : new.bindings = old.bindings
  parent   : new.parent = old.parent
  caller   : new.caller = old.caller
  removed  : old.removed → new.removed

def FramesLast (old new : Array Frame) : Prop :=
  ∀ (i : Nat) (frame : Frame), old[i]? = some frame →
    ∃ frame', new[i]? = some frame' ∧ frame.Lasts frame'

namespace FramesLast

variable {frames frames' frames'' : Array Frame}

theorem refl : FramesLast frames frames :=
  fun _ _ h => ⟨_, h, rfl, rfl, rfl, rfl, id⟩

theorem trans (h : FramesLast frames frames') (h' : FramesLast frames' frames'') :
    FramesLast frames frames'' := fun _ _ hf =>
  have ⟨_, hf, l⟩ := h _ _ hf
  have ⟨_, hf, l'⟩ := h' _ _ hf
  ⟨_, hf, l'.index.trans l.index, l'.bindings.trans l.bindings, l'.parent.trans l.parent,
    l'.caller.trans l.caller, l'.removed ∘ l.removed⟩

theorem push (frame : Frame) : FramesLast frames (frames.push frame) := by
  intro i f h
  have ⟨hi, _⟩ := Array.getElem?_eq_some_iff.mp h
  exact ⟨f, by rw [Array.getElem?_push, if_neg (Nat.ne_of_lt hi), h], rfl, rfl, rfl, rfl, id⟩

theorem retire {i : Nat} {frame : Frame} (hf : frames[i]? = some frame) :
    FramesLast frames (frames.setIfInBounds i { frame with removed := true }) := by
  intro j f h
  by_cases hij : i = j
  case pos =>
    subst hij
    cases hf.symm.trans h
    have ⟨hi, _⟩ := Array.getElem?_eq_some_iff.mp hf
    exact ⟨{ frame with removed := true }, by simp [hi], rfl, rfl, rfl, rfl, fun _ => rfl⟩
  case neg => exact ⟨f, by simp [hij, h], rfl, rfl, rfl, rfl, id⟩

end FramesLast

-- What a step makes of the frames, also if it fails.
def Step.framesOf : EStateM.Result Fault Machine α → Array Frame
  | .ok _ m | .error _ m => m.frames

-- Whatever machine the step begins with, the frames of it last.
def Step.FramesLast (x : Step α) : Prop :=
  ∀ m, RpalMachine.FramesLast m.frames (framesOf (x m))

namespace Step.FramesLast

theorem bind {x : Step α} {f : α → Step β} (hx : x.FramesLast) (hf : ∀ a, (f a).FramesLast) :
    (x >>= f).FramesLast := by
  intro m
  have hx := hx m
  rw [bind_apply]
  cases h : x m <;> rw [h] at hx
  case error e m' => exact hx
  case ok a m'    => exact hx.trans (hf a m')

-- Most steps leave the frames as they are.
theorem of_eq {x : Step α} (h : ∀ m, (∃ a m', x m = .ok a m' ∧ m'.frames = m.frames) ∨
    ∃ e m', x m = .error e m' ∧ m'.frames = m.frames) : x.FramesLast := by
  intro m
  match h m with
  | .inl ⟨_, _, hx, hm⟩ | .inr ⟨_, _, hx, hm⟩ =>
    rw [hx]
    exact hm ▸ .refl

theorem popValue (task : String) : (Machine.popValue task).FramesLast := by
  refine of_eq fun m => ?_
  rw [Machine.popValue]
  split
  case h_1 | h_2 => exact .inr ⟨_, _, rfl, rfl⟩
  case h_3       => exact .inl ⟨_, _, rfl, rfl⟩

theorem popMarker (i : Nat) : (Machine.popMarker i).FramesLast := by
  refine of_eq fun m => ?_
  rw [Machine.popMarker]
  split
  case h_1 => exact .inr ⟨_, _, rfl, rfl⟩
  case h_2 =>
    split
    case isTrue  => exact .inl ⟨_, _, rfl, rfl⟩
    case isFalse => exact .inr ⟨_, _, rfl, rfl⟩

theorem choose (condition : Bool) : (Machine.choose condition).FramesLast := by
  refine of_eq fun m => ?_
  rw [Machine.choose]
  split
  case h_1 => exact .inl ⟨_, _, rfl, rfl⟩
  case h_2 => exact .inr ⟨_, _, rfl, rfl⟩

theorem onSink (action : EStateM Fault Sink α) : (Machine.onSink action).FramesLast := by
  refine of_eq fun m => ?_
  rw [Machine.onSink]
  cases action m.sink
  case ok    => exact .inl ⟨_, _, rfl, rfl⟩
  case error => exact .inr ⟨_, _, rfl, rfl⟩

theorem closeFrame (i : Nat) : (Machine.closeFrame i).FramesLast := by
  intro m
  rw [Machine.closeFrame]
  split
  case h_1          => exact .refl
  case h_2 frame hf => exact .retire hf

theorem compositional : Step.Compositional @Step.FramesLast where
  bind           := bind
  pure _ _       := .refl
  throw _ _      := .refl
  look h m       := h m.frames m.current m
  push _ _       := .refl
  schedule _ _   := .refl
  popValue       := popValue
  popMarker      := popMarker
  choose         := choose
  openFrame _ _ _ _ := .push _
  closeFrame     := closeFrame
  call _ _       := onSink _

end Step.FramesLast

theorem Machine.execute_framesLast (x : Symbol) : (execute x).FramesLast :=
  Step.FramesLast.compositional.execute x

end RpalMachine
