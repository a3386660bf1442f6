import RpalMachine.Proofs.Recognition
import RpalMachine.Proofs.Taking

namespace RpalMachine

namespace Tree

variable {t : Tree} {ts : List Tree} {f : Form} {n : Nat}

theorem height_le_maxHeight (h : t ∈ ts) : t.height ≤ maxHeight ts := by
  induction ts
  case nil => contradiction
  case cons u us hi =>
    simp only [maxHeight]
    cases h
    case head   => exact Nat.le_max_left _ _
    case tail h => exact Nat.le_trans (hi h) (Nat.le_max_right _ _)

theorem height_le_of_form (h : (form f ts).height ≤ n) (ht : t ∈ ts) : t.height ≤ n := by
  have := height_le_maxHeight ht
  simp only [height] at h
  omega

end Tree

theorem Lexeme.looseness_pos (l : Lexeme) : 0 < l.looseness := by
  simp only [Lexeme.looseness]
  split
  case isTrue  => decide
  case isFalse => split <;> (try split) <;> decide

-- What follows does not go on with phrases that are bound as tightly.
def Ends (looseness : Nat) (rest : List Token) : Prop :=
  ∀ t ∈ rest.head?, looseness < t.lexeme.looseness

namespace Ends

open Reader

variable {m n : Nat} {t : Token} {rest : List Token} {l : Lexeme}

theorem mono (h : Ends n rest) (hm : m ≤ n) : Ends m rest :=
  fun t ht => Nat.lt_of_le_of_lt hm (h t ht)

theorem cons (ht : t.lexeme = l) (h : n < l.looseness) : Ends n (t :: rest) := by
  rintro _ ⟨⟩
  exact ht ▸ h

-- What a series goes on with is looser than its items.
theorem markedBy {pieces : Pieces} {s : List Token} (h : Ends n rest)
    (hs : s.map Token.lexeme = pieces.markedBy l) (hm : m < l.looseness)
    (hn : l.looseness ≤ n) : Ends m (s ++ rest) := by
  cases pieces
  case nil =>
    cases List.map_eq_nil_iff.mp hs
    exact h.mono (by omega)
  case cons =>
    obtain ⟨o, _, rfl, ho, _⟩ := List.map_eq_cons_iff.mp hs
    exact .cons ho hm

theorem zero : Ends 0 rest :=
  fun _ _ => Lexeme.looseness_pos _

theorem ne (h : Ends n rest) (hl : l.looseness ≤ n) : ∀ t ∈ rest.head?, t.lexeme ≠ l := by
  rintro t ht rfl
  exact Nat.not_lt.mpr hl (h t ht)

theorem skip?_eq (h : Ends n rest) (hl : l.looseness ≤ n) : skip? l rest = .ok (false, rest) :=
  skip?_of_ne (h.ne hl)

theorem takeIf_eq {meaning? : Lexeme → Option α} (h : Ends n rest)
    (hm : ∀ l a, meaning? l = some a → l.looseness ≤ n) :
    takeIf meaning? rest = .ok (none, rest) := by
  refine takeIf_of_none fun t ht => ?_
  cases ha : meaning? t.lexeme
  case none   => rfl
  case some a => exact absurd (h t ht) (Nat.not_lt.mpr (hm _ a ha))

theorem not_starts (h : Ends 1 rest) :
    rest.head?.any (Level.startsOperand ·.lexeme) = false := by
  cases rest
  case nil => rfl
  case cons t rest =>
    have ht := h t rfl
    simp only [Lexeme.looseness] at ht
    cases hs : Level.startsOperand t.lexeme
    case false => simp [hs]
    case true  => simp [hs] at ht

end Ends

namespace Derives

variable {c : Category} {ls : List Lexeme} {t : Tree} {s rest : List Token} {l : Lexeme}

theorem head (h : Derives c ls t) (hs : s.map Token.lexeme = ls) :
    ∃ o s', s = o :: s' ∧ c.begins o.lexeme := by
  obtain ⟨l, ls, rfl, hl⟩ := h.begins
  obtain ⟨o, s, rfl, rfl, _⟩ := List.map_eq_cons_iff.mp hs
  exact ⟨o, s, rfl, hl⟩

theorem ne (h : Derives c ls t) (hs : s.map Token.lexeme = ls) (hl : c.begins l = false) :
    ∀ o ∈ (s ++ rest).head?, o.lexeme ≠ l := by
  obtain ⟨o, s, rfl, ho⟩ := h.head hs
  rintro _ ⟨⟩ rfl
  exact Bool.false_ne_true (hl.symm.trans ho)

theorem skip?_eq (h : Derives c ls t) (rest : List Token) (hs : s.map Token.lexeme = ls)
    (hl : c.begins l = false) : Reader.skip? l (s ++ rest) = .ok (false, s ++ rest) :=
  Reader.skip?_of_ne (h.ne hs hl)

end Derives

namespace Level

open Reader

def ofDepth (maxHeight depth : Nat) : Level :=
  ⟨maxHeight, Phrase.read maxHeight depth⟩

theorem ofDepth_sound (maxHeight depth : Nat) : (ofDepth maxHeight depth).Sound :=
  Phrase.read_reads maxHeight depth

variable {level : Level} {t u : Tree} {s rest : List Token} {o : Token} {op : BinaryOperator}

theorem build_of_le {f : Form} {ts : List Tree} (h : (Tree.form f ts).height ≤ level.maxHeight) :
    level.build f ts s = .ok (.form f ts, s) := by
  simp [build, h]

theorem build_ofDepth {m n : Nat} {f : Form} {ts : List Tree} (h : (Tree.form f ts).height ≤ m) :
    (ofDepth m n).build f ts s = .ok (.form f ts, s) :=
  build_of_le h

section
variable {mark : Lexeme} {f : Form} {first second : Reader Tree}

theorem joined_of_eq (ht : first s = .ok (t, o :: rest)) (ho : o.lexeme = mark) {rest' : List Token}
    (hu : second rest = .ok (u, rest')) (hh : (Tree.form f [t, u]).height ≤ level.maxHeight) :
    level.joined mark f first second s = .ok (.form f [t, u], rest') := by
  simp [joined, ht, skip?_of_eq ho, hu, build_of_le hh]

theorem joined_of_skip? (ht : first s = .ok (t, rest)) (hm : skip? mark rest = .ok (false, rest)) :
    level.joined mark f first second s = .ok (t, rest) := by
  simp [joined, ht, hm]

theorem marked_of_eq (ho : o.lexeme = mark) (ht : first s = .ok (t, rest))
    (hh : (Tree.form f [t]).height ≤ level.maxHeight) :
    level.marked mark f first (o :: s) = .ok (.form f [t], rest) := by
  simp [marked, skip?_of_eq ho, ht, build_of_le hh]

theorem marked_of_skip? (hm : skip? mark s = .ok (false, s)) (ht : first s = .ok (t, rest)) :
    level.marked mark f first s = .ok (t, rest) := by
  simp [marked, hm, ht]

end

theorem operand_of_identifier {x : String} (ho : o.lexeme = .identifier x) :
    level.operand (o :: s) = .ok (.name x, s) := by
  simp [operand, ho]

theorem operand_of_string {x : String} (ho : o.lexeme = .string x) :
    level.operand (o :: s) = .ok (.leaf (.string x), s) := by
  simp [operand, ho]

theorem operand_of_word {w : String} {l : Leaf} (ho : o.lexeme = .keyword w)
    (hl : word? w = some l) : level.operand (o :: s) = .ok (.leaf l, s) := by
  simp [operand, ho, hl]

theorem operand_of_integer {digits : String} {n : Int64} (ho : o.lexeme = .integer digits)
    (hn : n.toInt = literal digits) : level.operand (o :: s) = .ok (.leaf (.integer n), s) := by
  simp only [operand, bind_apply, get_apply, ho]
  rw [integer?_eq_some_iff.mpr hn]
  rfl

theorem operand_of_parenthesis {o' : Token} (ho : o.lexeme = .punctuation "(")
    (ht : level.nested .expression s = .ok (t, o' :: rest)) (ho' : o'.lexeme = .punctuation ")") :
    level.operand (o :: s) = .ok (t, rest) := by
  simp [operand, ho, ht, expect_of_eq ho']

section
variable {operator? : Lexeme → Option BinaryOperator} {operand : Reader Tree}
  {p : List Lexeme → Tree → Prop} (hr : Reads operand p)
include hr

theorem operation_consuming (t : Tree) : Consuming (level.operation operator? operand t) :=
  (operation_reads (q := fun _ _ => True) hr fun _ _ => trivial).consuming

theorem leftChain_of_some (ho : operator? o.lexeme = some op) (hu : operand s = .ok (u, rest))
    (hh : (Tree.form (.binary op) [t, u]).height ≤ level.maxHeight) :
    level.leftChain operator? operand t (o :: s) =
      level.leftChain operator? operand (.form (.binary op) [t, u]) rest := by
  refine iterate_of_some (operation_consuming hr) ?_
  simp [operation, takeIf_of_some ho, hu, build_of_le hh]

theorem leftChain_of_none (ho : takeIf operator? s = .ok (none, s)) :
    level.leftChain operator? operand t s = .ok (t, s) := by
  refine iterate_of_none (operation_consuming hr) ?_
  simp [operation, ho]

end

section
variable (sound : level.Sound)
include sound

theorem argument_consuming (t : Tree) : Consuming (level.argument t) :=
  (argument_reads sound (q := fun _ _ => True) fun _ => trivial).consuming

theorem argumentsAfter_of_starts (ho : startsOperand o.lexeme)
    (hu : level.operand (o :: s) = .ok (u, rest))
    (hh : (Tree.form .gamma [t, u]).height ≤ level.maxHeight) :
    level.argumentsAfter t (o :: s) = level.argumentsAfter (.form .gamma [t, u]) rest := by
  refine iterate_of_some (argument_consuming sound) ?_
  simp [argument, ho, hu, build_of_le hh]

theorem argumentsAfter_of_ends (h : Ends 1 s) : level.argumentsAfter t s = .ok (t, s) := by
  refine iterate_of_none (argument_consuming sound) ?_
  simp [argument, h.not_starts]

theorem call_consuming (t : Tree) : Consuming (level.call t) :=
  (call_reads sound (q := fun _ _ => True) fun _ => trivial).consuming

theorem callsAfter_of_eq {o' : Token} {x : String} (ho : o.lexeme = .operator "@")
    (hx : o'.lexeme = .identifier x) (hu : level.application s = .ok (u, rest))
    (hh : (Tree.form .infixCall [t, .name x, u]).height ≤ level.maxHeight) :
    level.callsAfter t (o :: o' :: s) =
      level.callsAfter (.form .infixCall [t, .name x, u]) rest := by
  refine iterate_of_some (call_consuming sound) ?_
  simp [call, skip?_of_eq ho, identifier_of_eq hx, hu, build_of_le hh]

theorem callsAfter_of_ends (h : Ends 2 s) : level.callsAfter t s = .ok (t, s) := by
  refine iterate_of_none (call_consuming sound) ?_
  simp [call, h.skip?_eq (l := .operator "@") (by decide)]

end

end Level

end RpalMachine
