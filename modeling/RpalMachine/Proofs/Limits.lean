import RpalMachine.Proofs.Language

namespace RpalMachine

namespace Reader

-- Whatever is read has the property.
def Returns (x : Reader α) (p : α → Prop) : Prop :=
  ∀ s a s', x s = .ok (a, s') → p a

namespace Returns

variable {p : α → Prop} {q : β → Prop}

theorem pure {a : α} (h : p a) : Returns (Pure.pure a) p := by
  rintro s _ _ ⟨⟩
  exact h

theorem throw (e : Refusal) : Returns (MonadExcept.throw e) p :=
  fun _ _ _ => nofun

theorem bind {x : Reader α} {f : α → Reader β} (hx : Returns x p)
    (hf : ∀ a, p a → Returns (f a) q) : Returns (x >>= f) q := by
  intro s b s'' h
  rw [bind_apply] at h
  cases hs : x s <;> rw [hs] at h
  case error => contradiction
  case ok a  => exact hf a.1 (hx s a.1 a.2 hs) a.2 b s'' h

-- What was read before does not matter.
theorem after {x : Reader α} {f : α → Reader β} (hf : ∀ a, Returns (f a) q) :
    Returns (x >>= f) q :=
  bind (p := fun _ => True) (fun _ _ _ _ => trivial) fun a _ => hf a

theorem ifSkip {l : Lexeme} {x y : Reader α} (hx : Returns x p) (hy : Returns y p) :
    Returns (do if ← skip? l then x else y) p := by
  refine after fun taken => ?_
  cases taken
  case true  => exact hx
  case false => exact hy

theorem some {x : Reader α} (hx : Returns x p) : Returns (Option.some <$> x) (∀ a ∈ ·, p a) := by
  intro s b s' h
  rw [map_apply] at h
  cases hs : x s <;> rw [hs] at h <;> cases h
  simpa using hx s _ _ hs

theorem iterate {step : α → Reader (Option α)} {a : α} (h : p a)
    (hs : ∀ a, p a → Returns (step a) (∀ b ∈ ·, p b)) : Returns (Reader.iterate step a) p := by
  refine after fun s => ?_
  generalize s.length + 1 = n
  induction n generalizing a
  case zero => exact .pure h
  case succ n hi =>
    refine (hs a h).bind fun b? hb => ?_
    cases b?
    case none   => exact .pure h
    case some b => exact hi (hb b rfl)

end Returns

end Reader

namespace Level

open Reader

variable {level : Level}

def Low (level : Level) (t : Tree) : Prop :=
  t.height ≤ level.maxHeight

theorem build_low {f : Form} {children : List Tree} :
    Returns (level.build f children) level.Low := by
  by_cases h : (Tree.form f children).height ≤ level.maxHeight
  case pos =>
    simp only [build, h, if_true]
    exact .pure h
  case neg =>
    simp only [build, h, if_false]
    exact .after fun _ => .throw _

theorem leftChain_low {operator? : Lexeme → Option BinaryOperator} {operand : Reader Tree}
    {t : Tree} (h : level.Low t) : Returns (level.leftChain operator? operand t) level.Low := by
  refine .iterate h fun _ _ => .after fun op? => ?_
  cases op?
  case none => exact .pure (by simp)
  case some => exact .some (.after fun _ => build_low)

theorem joined_low {mark : Lexeme} {f : Form} {first second : Reader Tree}
    (h : Returns first level.Low) : Returns (level.joined mark f first second) level.Low :=
  h.bind fun _ ht => .ifSkip (.after fun _ => build_low) (.pure ht)

theorem marked_low {mark : Lexeme} {f : Form} {phrase : Reader Tree}
    (h : Returns phrase level.Low) : Returns (level.marked mark f phrase) level.Low :=
  .ifSkip (.after fun _ => build_low) h

theorem seriesAfter_low {f : Form} {mark : Lexeme} {item : Reader Tree} {t : Tree}
    (h : level.Low t) : Returns (level.seriesAfter f mark item t) level.Low := by
  refine .after fun rest => ?_
  cases rest
  case nil  => exact .pure h
  case cons => exact build_low

section

-- There is room for a leaf, and the level below keeps to the limit.
variable (room : 1 ≤ level.maxHeight)
include room

theorem low_leaf (l : Leaf) : level.Low (.leaf l) := by
  simpa [Low, Tree.height, Tree.maxHeight] using room

variable (low : ∀ phrase, Returns (level.nested phrase) level.Low)
include low

theorem operand_low : Returns level.operand level.Low := by
  refine .after fun s => ?_
  match s with
  | [] => exact .after fun _ => .throw _
  | ⟨.operator _, _⟩ :: _ => exact .after fun _ => .throw _
  | ⟨.identifier _, _⟩ :: _ | ⟨.string _, _⟩ :: _ =>
    exact .after fun _ => .pure (low_leaf room _)
  | ⟨.integer ds, o⟩ :: _ =>
    refine .after fun _ => ?_
    cases integer? (literal ds)
    case none => exact .throw _
    case some => exact .pure (low_leaf room _)
  | ⟨.keyword w, _⟩ :: _ =>
    simp only
    cases word? w
    case none => exact .after fun _ => .throw _
    case some => exact .after fun _ => .pure (low_leaf room _)
  | ⟨.punctuation p, _⟩ :: _ =>
    simp only
    split
    case isTrue =>
      exact .after fun _ => (low .expression).bind fun _ h => .after fun _ => .pure h
    case isFalse => exact .after fun _ => .throw _

omit room low in
theorem argument_low (t : Tree) : Returns (level.argument t) (∀ u ∈ ·, level.Low u) := by
  refine .after fun s => ?_
  split
  case isTrue  => exact .some (.after fun _ => build_low)
  case isFalse => exact .pure (by simp)

theorem application_low : Returns level.application level.Low :=
  (operand_low room low).bind fun _ h => .iterate h fun t _ => argument_low t

omit room low in
theorem call_low (t : Tree) : Returns (level.call t) (∀ u ∈ ·, level.Low u) :=
  .ifSkip (.after fun _ => .some (.after fun _ => build_low)) (.pure (by simp))

theorem infixCall_low : Returns level.infixCall level.Low :=
  (application_low room low).bind fun _ h => .iterate h fun t _ => call_low t

theorem power_low : Returns level.power level.Low :=
  joined_low (infixCall_low room low)

omit room in
theorem product_low : Returns level.product level.Low :=
  (low .power).bind fun _ h => leftChain_low h

omit room in
theorem signed_low : Returns level.signed level.Low :=
  .ifSkip (.after fun _ => build_low) (.ifSkip (product_low low) (product_low low))

omit room in
theorem sum_low : Returns level.sum level.Low :=
  (signed_low low).bind fun _ h => leftChain_low h

omit room in
theorem comparison_low : Returns level.comparison level.Low := by
  refine (sum_low low).bind fun t h => .after fun op? => ?_
  cases op?
  case none => exact .pure h
  case some => exact .after fun _ => build_low

omit room in
theorem negation_low : Returns level.negation level.Low :=
  marked_low (comparison_low low)

omit room in
theorem conjunction_low : Returns level.conjunction level.Low :=
  (negation_low low).bind fun _ h => leftChain_low h

omit room in
theorem disjunction_low : Returns level.disjunction level.Low :=
  (conjunction_low low).bind fun _ h => leftChain_low h

omit room in
theorem conditional_low : Returns level.conditional level.Low :=
  (disjunction_low low).bind fun _ h =>
    .ifSkip (.after fun _ => .after fun _ => .after fun _ => build_low) (.pure h)

omit room in
theorem augmentation_low : Returns level.augmentation level.Low :=
  (low .conditional).bind fun _ h => leftChain_low h

omit room in
theorem tuple_low : Returns level.tuple level.Low :=
  (augmentation_low low).bind fun _ h => seriesAfter_low h

omit room in
theorem binding_low : Returns level.binding level.Low := by
  refine .ifSkip ((low .definition).bind fun _ h => .after fun _ => .pure h) ?_
  refine .after fun _ => .after fun s => ?_
  split
  case isTrue  => exact .after fun _ => .after fun _ => build_low
  case isFalse => exact .after fun _ => .after fun _ => .after fun _ => build_low

omit room in
theorem recursion_low : Returns level.recursion level.Low :=
  marked_low (binding_low low)

omit room in
theorem simultaneous_low : Returns level.simultaneous level.Low :=
  (recursion_low low).bind fun _ h => seriesAfter_low h

omit room in
theorem definition_low : Returns level.definition level.Low :=
  joined_low (simultaneous_low low)

omit room in
theorem clause_low : Returns level.clause level.Low :=
  joined_low (tuple_low low)

omit room in
theorem expression_low : Returns level.expression level.Low :=
  .ifSkip (.after fun _ => .after fun _ => .after fun _ => build_low)
    (.ifSkip (.after fun _ => .after fun _ => .after fun _ => build_low) (clause_low low))

theorem phrase_low : (phrase : Phrase) → Returns (level.phrase phrase) level.Low
  | .expression  => expression_low low
  | .conditional => conditional_low low
  | .power       => power_low room low
  | .definition  => definition_low low

end

end Level

namespace Phrase

theorem read_low {maxHeight : Nat} (room : 1 ≤ maxHeight) : (depth : Nat) → (phrase : Phrase) →
    Reader.Returns (read maxHeight depth phrase) (·.height ≤ maxHeight)
  | 0, _              => .after fun _ => .throw _
  | depth + 1, phrase =>
    @Level.phrase_low ⟨maxHeight, read maxHeight depth⟩ room (read_low room depth) phrase

-- With no level to go nothing is read.
theorem height_le_of_readAll {depth : Nat} {tokens : List Token} {t : Tree}
    (h : readAll depth tokens = .ok t) : t.height ≤ depth := by
  have hr := read_of_readAll h
  cases depth
  case zero       => contradiction
  case succ depth => exact read_low (Nat.le_add_left 1 depth) _ _ tokens t [] hr

end Phrase

theorem Tree.height_le_of_ofSource {depth : Nat} {source : String} {t : Tree}
    (h : ofSource depth source = .ok t) : t.height ≤ depth :=
  have ⟨_, _, hr⟩ := readAll_of_ofSource h
  Phrase.height_le_of_readAll hr

end RpalMachine
