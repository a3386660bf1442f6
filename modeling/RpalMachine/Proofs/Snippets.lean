import RpalMachine.Proofs.Layout

namespace RpalMachine

namespace Snippet

open Scan (size)

-- How many characters of a text lie before a byte offset: those that end there, or all of them if
-- the offset is past the end or inside a character.
inductive Place (text : List Char) (offset : Nat) : Nat → Prop
  | between {before after : List Char} :
    text = before ++ after → size before = offset → Place text offset before.length
  | outside :
    (∀ before after, text = before ++ after → size before ≠ offset) → Place text offset text.length

-- The text on one line: line feeds are spelled out, and carriage returns left out.
inductive OneLine : List Char → List Char → Prop
  | nil : OneLine [] []
  | feed {cs ds : List Char} : OneLine cs ds → OneLine ('\n' :: cs) ('\\' :: 'n' :: ds)
  | returned {cs ds : List Char} : OneLine cs ds → OneLine ('\r' :: cs) ds
  | other {c : Char} {cs ds : List Char} :
    c ≠ '\n' → c ≠ '\r' → OneLine cs ds → OneLine (c :: cs) (c :: ds)

-- A piece of a text around a place in it. It begins at most twenty characters before the place, and
-- ends with the text unless it holds a hundred characters.
structure Window (text : List Char) (place : Nat) where
  before : List Char
  shown : List Char
  after : List Char
  text_eq : text = before ++ (shown ++ after)
  length_before : before.length = place - 20
  length_shown_le : shown.length ≤ 100
  full : after = [] ∨ shown.length = 100

variable {text cs ds : List Char} {offset k : Nat}

theorem charsBefore?_append (before after : List Char) :
    charsBefore? (size before) (before ++ after) = some before.length := by
  induction before
  case nil => rw [Scan.size_nil, charsBefore?, List.length_nil]
  case cons c cs hi =>
    have ⟨n, hn⟩ : ∃ n, c.utf8Size + size cs = n + 1 :=
      ⟨c.utf8Size + size cs - 1, by have := c.utf8Size_pos; omega⟩
    have hc : c.utf8Size ≤ n + 1 := by omega
    have hs : n + 1 - c.utf8Size = size cs := by omega
    rw [Scan.size_cons, hn, List.cons_append, charsBefore?, if_pos hc, hs, hi]
    rfl

theorem of_charsBefore? (h : charsBefore? offset text = some k) :
    ∃ before after, text = before ++ after ∧ size before = offset ∧ before.length = k := by
  induction text generalizing offset k
  case nil =>
    cases offset <;> cases h
    exact ⟨[], [], rfl, rfl, rfl⟩
  case cons c cs hi =>
    cases offset
    case zero =>
      cases h
      exact ⟨[], c :: cs, rfl, rfl, rfl⟩
    case succ n =>
      rw [charsBefore?] at h
      split at h
      case isFalse => contradiction
      case isTrue hc =>
        obtain ⟨k, hk, rfl⟩ := Option.map_eq_some_iff.mp h
        obtain ⟨before, after, rfl, hs, rfl⟩ := hi hk
        refine ⟨c :: before, after, rfl, ?_, rfl⟩
        rw [Scan.size_cons, hs]
        omega

theorem Place.le_length (h : Place text offset k) : k ≤ text.length := by
  cases h
  case between ht _ => simp [ht]
  case outside      => exact Nat.le_refl _

theorem place_iff : Place text offset k ↔ k = (charsBefore? offset text).getD text.length := by
  constructor
  case mp =>
    intro h
    cases h
    case between before after ht hs =>
      subst ht hs
      rw [charsBefore?_append, Option.getD_some]
    case outside h =>
      cases hk : charsBefore? offset text
      case none => rfl
      case some k =>
        have ⟨before, after, ht, hs, _⟩ := of_charsBefore? hk
        exact absurd hs (h before after ht)
  case mpr =>
    rintro rfl
    cases hk : charsBefore? offset text
    case some k =>
      obtain ⟨before, after, ht, hs, rfl⟩ := of_charsBefore? hk
      exact .between ht hs
    case none =>
      refine .outside fun before after ht hs => ?_
      rw [ht, ← hs, charsBefore?_append] at hk
      contradiction

theorem oneLine_onOneLine (cs : List Char) : OneLine cs (onOneLine cs) := by
  induction cs
  case nil => exact .nil
  case cons c cs hi =>
    by_cases hn : c = '\n'
    case pos => exact hn ▸ .feed hi
    case neg =>
      by_cases hr : c = '\r'
      case pos => exact hr ▸ .returned hi
      case neg =>
        have he : onOneLine (c :: cs) = c :: onOneLine cs := by
          simp [onOneLine, hn, hr]
        exact he ▸ .other hn hr hi

theorem OneLine.not_mem (h : OneLine cs ds) : '\n' ∉ ds ∧ '\r' ∉ ds := by
  induction h
  case nil               => simp
  case feed hi           => simpa using hi
  case returned hi       => exact hi
  case other hn hr _ hi  => simp [hi, Ne.symm hn, Ne.symm hr]

namespace Window

variable {place : Nat} (w : Window text place)
include w

-- The character at the place is shown, if there is one.
theorem getElem?_shown :
    w.shown[place - w.before.length]? = text[place]? := by
  have hb := w.length_before
  have hl : text.length = w.before.length + (w.shown.length + w.after.length) := by
    simpa using congrArg List.length w.text_eq
  have ht : text[place]? = (w.shown ++ w.after)[place - w.before.length]? := by
    rw [← List.getElem?_append_right (by omega), ← w.text_eq]
  by_cases hs : place - w.before.length < w.shown.length
  case pos => rw [ht, List.getElem?_append_left hs]
  case neg =>
    have ha : w.after = [] := w.full.resolve_right (by omega)
    rw [ht, ha, List.append_nil]

end Window

theorem length_take_start (offset : Nat) (text : List Char) :
    (text.take (start offset text)).length =
      (charsBefore? offset text).getD text.length - before := by
  have hp : Place text offset _ := place_iff.mpr rfl
  have := hp.le_length
  rw [List.length_take, start]
  omega

-- Where the text is cut.
def windowAt (offset : Nat) (text : List Char) :
    Window text ((charsBefore? offset text).getD text.length) where
  before := text.take (start offset text)
  shown := window offset text
  after := text.drop (start offset text + width)
  text_eq := by
    rw [window, ← List.drop_drop, List.take_append_drop, List.take_append_drop]
  length_before := length_take_start offset text
  length_shown_le := by
    rw [window, List.length_take]
    exact Nat.min_le_left ..
  full := by
    rw [window, List.length_take, List.length_drop, List.drop_eq_nil_iff, width]
    omega

-- There is something before the window, or after it, exactly where the gap is marked.
theorem around_eq (offset : Nat) (text : List Char) :
    let w := windowAt offset text
    around offset text = (if w.before = [] then [] else gap) ++ onOneLine w.shown ++
      if w.after = [] then [] else gap := by
  have hs : start offset text = (text.take (start offset text)).length :=
    (length_take_start offset text).symm
  have hb : text.take (start offset text) = [] ↔ ¬ 0 < start offset text := by
    rw [← List.length_eq_zero_iff, ← hs]
    omega
  have ha : text.drop (start offset text + width) = [] ↔
      ¬ start offset text + (window offset text).length < text.length := by
    rw [List.drop_eq_nil_iff, window, List.length_take, List.length_drop, width]
    rw [List.length_take] at hs
    omega
  simp only [around, windowAt, hb, ha, ite_not]

end Snippet

namespace ParseFault

open Snippet

-- The context of a fault is a window of the text around the place of the fault, on one line, with a
-- mark on each side on which the text goes on.
theorem locate_shows (cause : Cause) (source : String) (offset : Nat) (found : Option String) :
    ∃ (place : Nat) (w : Window source.toList place) (line context : List Char),
      (∀ k, Place source.toList offset k ↔ k = place) ∧
      w.shown[place - w.before.length]? = source.toList[place]? ∧
      OneLine w.shown line ∧
      context = (if w.before = [] then [] else gap) ++ line ++ (if w.after = [] then [] else gap) ∧
      '\n' ∉ context ∧ '\r' ∉ context ∧
      (locate cause source offset found).context = some (String.ofList context) := by
  let w := windowAt offset source.toList
  have ho := oneLine_onOneLine w.shown
  have hg (p : Prop) [Decidable p] {c : Char} (hc : c ∉ gap) : c ∉ if p then [] else gap := by
    split
    case isTrue  => exact List.not_mem_nil
    case isFalse => exact hc
  have hn {c : Char} (hc : c ∉ gap) (hl : c ∉ onOneLine w.shown) :
      c ∉ around offset source.toList := by
    rw [around_eq, List.mem_append, List.mem_append]
    exact not_or.mpr ⟨not_or.mpr ⟨hg _ hc, hl⟩, hg _ hc⟩
  exact ⟨_, w, _, _, fun _ => place_iff, w.getElem?_shown, ho, around_eq offset source.toList,
    hn (by decide) ho.not_mem.1, hn (by decide) ho.not_mem.2, rfl⟩

-- Inside a character is as good as at the end.
example : snippet (String.ofList (List.replicate 22 '\n' ++ ['\r', 'é'])) 24 =
    "[...]" ++ String.join (List.replicate 18 "\\n") ++ "é" :=
  rfl

end ParseFault

end RpalMachine
