import Mathlib.Logic.Relation
import RpalMachine.Proofs.Following

namespace RpalMachine

theorem Pieces.length_lt_markedBy {pieces : Pieces} {p : List Lexeme × Tree} (mark : Lexeme)
    (h : p ∈ pieces) : p.1.length < (pieces.markedBy mark).length := by
  induction pieces
  case nil => contradiction
  case cons q pieces hi =>
    simp only [markedBy, List.flatMap_cons, List.length_append, List.length_cons] at hi ⊢
    cases h
    case head   => omega
    case tail h => have := hi h; omega

namespace Category

open Reader

-- What reads the phrases of a category.
def reader (level : Level) : Category → Reader Tree
  | expression   => level.expression
  | clause       => level.clause
  | tuple        => level.tuple
  | augmentation => level.augmentation
  | conditional  => level.conditional
  | disjunction  => level.disjunction
  | conjunction  => level.conjunction
  | negation     => level.negation
  | comparison   => level.comparison
  | sum          => level.sum
  | product      => level.product
  | power        => level.power
  | infixCall    => level.infixCall
  | application  => level.application
  | operand      => level.operand
  | definition   => level.definition
  | simultaneous => level.simultaneous
  | recursion    => level.recursion
  | binding      => level.binding
  | parameter    => level.parameter
  | names        => do level.namesAfter (← identifier)
  | name         => identifier

-- How reading goes on once a phrase is complete that could be the first part of a longer one.
def loop (level : Level) : Category → Tree → Reader Tree
  | application  => level.argumentsAfter
  | infixCall    => level.callsAfter
  | product      => level.leftChain product.operator? (level.nested .power)
  | sum          => level.leftChain sum.operator? level.product
  | conjunction  => level.leftChain conjunction.operator? level.negation
  | disjunction  => level.leftChain disjunction.operator? level.conjunction
  | augmentation => level.leftChain augmentation.operator? (level.nested .conditional)
  | _            => pure

-- The loosest lexemes that a phrase goes on with before its loop.
def inner : Category → Nat
  | application  => 0
  | infixCall    => 1
  | product      => 3
  | sum          => 4
  | conjunction  => 6
  | disjunction  => 7
  | augmentation => 9
  | c            => c.looseness

-- How many levels are entered without taking a lexeme.
@[simp]
def rank : Category → Nat
  | expression | clause | tuple | augmentation                                            => 2
  | conditional | disjunction | conjunction | negation | comparison | sum | product       => 1
  | _                                                                                     => 0

-- A depth that suffices for a phrase of the given length.
@[simp]
def depth (c : Category) (length : Nat) : Nat :=
  3 * length + c.rank

theorem inner_le (c : Category) : c.inner ≤ c.looseness := by
  cases c <;> decide

theorem looseness_of_operators {c d : Category} {l : Lexeme} {op : BinaryOperator}
    (h : (l, op) ∈ c.operators) (hd : c.alone? = some d) :
    d.looseness = c.inner ∧ c.inner < l.looseness ∧ l.looseness ≤ c.looseness := by
  have hx : ∀ x ∈ c.operators, c.inner < x.1.looseness ∧ x.1.looseness ≤ c.looseness := by
    cases c <;> decide
  refine ⟨?_, hx _ h⟩
  cases c <;> cases hd <;> first | rfl | contradiction

theorem looseness_of_comparisons {l : Lexeme} {op : BinaryOperator} (h : (l, op) ∈ comparisons) :
    l.looseness = comparison.looseness := by
  have hx : ∀ x ∈ comparisons, x.1.looseness = comparison.looseness := by decide
  exact hx _ h

theorem rank_le_of_alone? {c d : Category} (h : c.alone? = some d) : d.rank ≤ c.rank := by
  cases c <;> cases h <;> decide

-- A phrase of the second category can stand alone in the place of the first, also indirectly.
abbrev Covers : Category → Category → Prop :=
  Relation.ReflTransGen fun c d => c.alone? = some d

theorem rank_le_of_covers {c d : Category} (hc : c.Covers d) : d.rank ≤ c.rank := by
  induction hc using Relation.ReflTransGen.head_induction_on
  case refl          => exact Nat.le_refl _
  case head hce _ hi => exact Nat.le_trans hi (rank_le_of_alone? hce)

theorem covers_expression : expression.Covers tuple :=
  .head rfl (.head rfl .refl)

theorem covers_augmentation : augmentation.Covers sum :=
  .head rfl (.head rfl (.head rfl (.head rfl (.head rfl (.head rfl .refl)))))

theorem covers_product : product.Covers operand :=
  .head rfl (.head rfl (.head rfl (.head rfl .refl)))

theorem expression_covers_application : expression.Covers application :=
  covers_expression.trans
    (.head rfl (covers_augmentation.trans (.head rfl (.head rfl (.head rfl (.head rfl .refl))))))

-- Anything can stand in parentheses.
theorem expression_covers_operand : expression.Covers operand :=
  expression_covers_application.trans (.head rfl .refl)

section
variable {c d : Category} {mark : Lexeme} {f : Form} (h : c.series? = some (d, mark, f))
include h

theorem looseness_of_series? : d.looseness < mark.looseness ∧ mark.looseness ≤ c.looseness := by
  cases c <;> cases h <;> decide

theorem depth_of_series? (k : Nat) : d.depth k ≤ c.depth k := by
  cases c <;> cases h <;> simp

theorem inner_of_series? : c.inner = c.looseness := by
  cases c <;> cases h <;> rfl

theorem loop_of_series? {level : Level} {t : Tree} : c.loop level t = pure t := by
  cases c <;> cases h <;> rfl

theorem reader_of_series? {level : Level} :
    c.reader level = d.reader level >>= level.seriesAfter f mark (d.reader level) := by
  cases c <;> cases h <;> rfl

end

section
variable {level : Level} (sound : level.Sound)
include sound

theorem reader_reads (c : Category) : Reads (c.reader level) (Derives c) := by
  cases c
  case expression   => exact Level.expression_reads sound
  case clause       => exact Level.clause_reads sound
  case tuple        => exact Level.tuple_reads sound
  case augmentation => exact Level.augmentation_reads sound
  case conditional  => exact Level.conditional_reads sound
  case disjunction  => exact Level.disjunction_reads sound
  case conjunction  => exact Level.conjunction_reads sound
  case negation     => exact Level.negation_reads sound
  case comparison   => exact Level.comparison_reads sound
  case sum          => exact Level.sum_reads sound
  case product      => exact Level.product_reads sound
  case power        => exact Level.power_reads sound
  case infixCall    => exact Level.infixCall_reads sound
  case application  => exact Level.application_reads sound
  case operand      => exact Level.operand_reads sound
  case definition   => exact Level.definition_reads sound
  case simultaneous => exact Level.simultaneous_reads sound
  case recursion    => exact Level.recursion_reads sound
  case binding      => exact Level.binding_reads sound
  case parameter    => exact Level.parameter_reads
  case names        => exact Level.name_reads.bind fun _ _ h => Level.namesAfter_reads h
  case name         => exact Level.name_reads

theorem loop_of_ends {c : Category} {t : Tree} {rest : List Token}
    (h : Ends c.looseness rest) : c.loop level t rest = .ok (t, rest) := by
  have hop {d} (hd : c.alone? = some d) :
      takeIf c.operator? rest = .ok (none, rest) :=
    h.takeIf_eq fun l op hl => (looseness_of_operators (operator?_eq_some_iff.mp hl) hd).2.2
  cases c
  case application  => exact Level.argumentsAfter_of_ends sound h
  case infixCall    => exact Level.callsAfter_of_ends sound h
  case product      => exact Level.leftChain_of_none (sound .power) (hop rfl)
  case sum          => exact Level.leftChain_of_none (Level.product_reads sound) (hop rfl)
  case conjunction  => exact Level.leftChain_of_none (Level.negation_reads sound) (hop rfl)
  case disjunction  => exact Level.leftChain_of_none (Level.conjunction_reads sound) (hop rfl)
  case augmentation => exact Level.leftChain_of_none (sound .conditional) (hop rfl)
  all_goals rfl

end

end Category

theorem Derives.covered {c d : Category} {ls : List Lexeme} {t : Tree} (hc : c.Covers d)
    (h : Derives d ls t) : Derives c ls t := by
  induction hc using Relation.ReflTransGen.head_induction_on
  case refl          => exact h
  case head hce _ hi => exact .alone hce hi

-- On this level the tree is found whatever follows, and reading goes on from there.
def FoundIn (level : Level) (c : Category) (ls : List Lexeme) (t : Tree) : Prop :=
  ∀ ⦃s rest⦄, s.map Token.lexeme = ls → Ends c.inner rest →
    c.reader level (s ++ rest) = c.loop level t rest

namespace FoundIn

open Reader Level

variable {c d : Category} {ls : List Lexeme} {t : Tree} {s : List Token}

theorem all {level : Level} (sound : level.Sound) (h : FoundIn level c ls t) (rest : List Token)
    (hs : s.map Token.lexeme = ls) (hr : Ends c.looseness rest) :
    c.reader level (s ++ rest) = .ok (t, rest) :=
  (h hs (hr.mono c.inner_le)).trans (Category.loop_of_ends sound hr)

theorem nested {m n : Nat} (phrase : Phrase) (h : FoundIn (.ofDepth m n) phrase.category ls t)
    (rest : List Token) (hs : s.map Token.lexeme = ls) (hr : Ends phrase.category.looseness rest) :
    (ofDepth m (n + 1)).nested phrase (s ++ rest) = .ok (t, rest) := by
  have := h.all (ofDepth_sound m n) rest hs hr
  cases phrase <;> exact this

theorem alone_of_series? {level : Level} {mark : Lexeme} {f : Form} (sound : level.Sound)
    (hc : c.series? = some (d, mark, f)) (h : FoundIn level d ls t) : FoundIn level c ls t := by
  intro s rest hs hr
  have ⟨hd, hm⟩ := Category.looseness_of_series? hc
  have hr := Category.inner_of_series? hc ▸ hr
  have hx := h.all sound rest hs (hr.mono (Nat.le_of_lt (Nat.lt_of_lt_of_le hd hm)))
  have hy := manyAfter_of_ne (Category.reader_reads sound d) (hr.ne hm)
  rw [Category.reader_of_series? hc, Category.loop_of_series? hc, bind_apply, hx]
  simp [seriesAfter, hy, gather]

end FoundIn

-- With this many levels the tree is found whatever follows, and reading goes on from there.
def AcceptsAt (n : Nat) (c : Category) (ls : List Lexeme) (t : Tree) : Prop :=
  ∀ ⦃m s rest⦄, s.map Token.lexeme = ls → t.height ≤ m → Ends c.inner rest →
    c.reader (.ofDepth m n) (s ++ rest) = c.loop (.ofDepth m n) t rest

-- The tree is found whatever follows, and reading goes on from there.
def Accepts (c : Category) (ls : List Lexeme) (t : Tree) : Prop :=
  ∀ ⦃m n s rest⦄, s.map Token.lexeme = ls → t.height ≤ m → c.depth s.length ≤ n →
    Ends c.inner rest →
      c.reader (.ofDepth m n) (s ++ rest) = c.loop (.ofDepth m n) t rest

namespace AcceptsAt

open Reader Level

variable {c d : Category} {ls : List Lexeme} {t : Tree} {m n : Nat} {s : List Token}

theorem foundIn (h : AcceptsAt n c ls t) (hh : t.height ≤ m) : FoundIn (.ofDepth m n) c ls t :=
  fun _ _ hs hr => h hs hh hr

theorem all (h : AcceptsAt n c ls t) (rest : List Token) (hs : s.map Token.lexeme = ls)
    (hh : t.height ≤ m) (hr : Ends c.looseness rest) :
    c.reader (.ofDepth m n) (s ++ rest) = .ok (t, rest) :=
  (h.foundIn hh).all (ofDepth_sound m n) rest hs hr

theorem nested (phrase : Phrase) (h : AcceptsAt n phrase.category ls t) (rest : List Token)
    (hs : s.map Token.lexeme = ls) (hh : t.height ≤ m)
    (hr : Ends phrase.category.looseness rest) :
    (ofDepth m (n + 1)).nested phrase (s ++ rest) = .ok (t, rest) :=
  (h.foundIn hh).nested phrase rest hs hr

-- One after the other, each behind the mark.
theorem markedBy {mark : Lexeme} {f : Form} {pieces : Pieces} {rest : List Token}
    (hc : c.series? = some (d, mark, f)) (hp : ∀ p ∈ pieces, AcceptsAt n d p.1 p.2)
    (hs : s.map Token.lexeme = pieces.markedBy mark) (hh : ∀ t ∈ pieces.trees, t.height ≤ m)
    (hr : Ends c.looseness rest) :
    manyAfter mark (d.reader (.ofDepth m n)) (s ++ rest) = .ok (pieces.trees, rest) := by
  have ⟨hd, hm⟩ := Category.looseness_of_series? hc
  have hi := Category.reader_reads (ofDepth_sound m n) d
  induction pieces generalizing s
  case nil =>
    cases List.map_eq_nil_iff.mp hs
    exact manyAfter_of_ne hi (hr.ne hm)
  case cons p pieces ih =>
    simp only [Pieces.markedBy, List.flatMap_cons, List.cons_append, List.map_eq_cons_iff,
      List.map_eq_append_iff] at hs
    obtain ⟨o, _, rfl, ho, s, s', rfl, hs, hs'⟩ := hs
    have hx := (hp p (by simp)).all (s' ++ rest) hs (hh _ (by simp [Pieces.trees]))
      (hr.markedBy hs' hd hm)
    have hy := ih (fun p hp' => hp p (.tail _ hp')) hs' (fun t ht => hh t (.tail _ ht))
    rw [List.cons_append, List.append_assoc, manyAfter_of_eq hi ho hx, map_apply, hy]
    rfl

theorem of_series {mark : Lexeme} {f : Form} {pieces : Pieces} {s' rest : List Token}
    (hc : c.series? = some (d, mark, f)) (h : AcceptsAt n d ls t)
    (hp : ∀ p ∈ pieces, AcceptsAt n d p.1 p.2) (hs : s.map Token.lexeme = ls)
    (hs' : s'.map Token.lexeme = pieces.markedBy mark)
    (hh : ∀ u ∈ t :: pieces.trees, u.height ≤ m) (hr : Ends c.inner rest) :
    c.reader (.ofDepth m n) (s ++ s' ++ rest) =
      (ofDepth m n).gather f t pieces.trees rest := by
  have ⟨hd, hm⟩ := Category.looseness_of_series? hc
  have hr := Category.inner_of_series? hc ▸ hr
  have hx := h.all (s' ++ rest) hs (hh _ (.head _)) (hr.markedBy hs' hd hm)
  have hy := markedBy hc hp hs' (fun t h => hh t (.tail _ h)) hr
  rw [Category.reader_of_series? hc, List.append_assoc, bind_apply, hx]
  simp [seriesAfter, hy]

theorem series {mark : Lexeme} {f : Form} {pieces : Pieces}
    (hc : c.series? = some (d, mark, f)) (hne : pieces ≠ []) (h : AcceptsAt n d ls t)
    (hp : ∀ p ∈ pieces, AcceptsAt n d p.1 p.2) :
    AcceptsAt n c (ls ++ pieces.markedBy mark) (.form f (t :: pieces.trees)) := by
  intro m s rest hs hh hr
  obtain ⟨s, s', rfl, hs, hs'⟩ := List.map_eq_append_iff.mp hs
  have hx := of_series hc h hp hs hs' (fun u => Tree.height_le_of_form hh) hr
  rw [hx, Category.loop_of_series? hc, gather, if_neg, build_ofDepth hh]
  case hnc => simpa [Pieces.trees] using hne
  rfl

end AcceptsAt

namespace Accepts

open Reader Level

variable {c d : Category} {ls ms ns : List Lexeme} {t u v : Tree} {m n : Nat} {s : List Token}
  {op : BinaryOperator}

theorem atLevels (h : Accepts c ls t) (hn : c.depth ls.length ≤ n) : AcceptsAt n c ls t := by
  intro m s rest hs hh hr
  subst hs
  exact h rfl hh (by simpa using hn) hr

theorem all (h : Accepts c ls t) (rest : List Token) (hs : s.map Token.lexeme = ls)
    (hh : t.height ≤ m) (hn : c.depth s.length ≤ n) (hr : Ends c.looseness rest) :
    c.reader (.ofDepth m n) (s ++ rest) = .ok (t, rest) :=
  (h.atLevels (by simpa [← hs] using hn)).all rest hs hh hr

theorem nested (phrase : Phrase) (h : Accepts phrase.category ls t) (rest : List Token)
    (hs : s.map Token.lexeme = ls) (hh : t.height ≤ m)
    (hn : phrase.category.depth s.length < n) (hr : Ends phrase.category.looseness rest) :
    (ofDepth m n).nested phrase (s ++ rest) = .ok (t, rest) := by
  cases n
  case zero => contradiction
  case succ =>
    have hn := Nat.le_of_lt_succ hn
    exact (h.atLevels (by simpa [← hs] using hn)).nested phrase rest hs hh hr

theorem series {mark : Lexeme} {f : Form} {pieces : Pieces}
    (hc : c.series? = some (d, mark, f)) (hne : pieces ≠ []) (h : Accepts d ls t)
    (hp : ∀ p ∈ pieces, Accepts d p.1 p.2) :
    Accepts c (ls ++ pieces.markedBy mark) (.form f (t :: pieces.trees)) := by
  intro m n s rest hs hh hn hr
  have hlen := congrArg List.length hs
  rw [List.length_map, List.length_append] at hlen
  have hn := Nat.le_trans (Category.depth_of_series? hc _) hn
  simp only [Category.depth] at hn
  have h := h.atLevels (n := n) (by simp only [Category.depth]; omega)
  refine AcceptsAt.series hc hne h (fun p hm => (hp p hm).atLevels ?_) hs hh hr
  have := Pieces.length_lt_markedBy mark hm
  simp only [Category.depth]
  omega

-- One after the other, up to the mark.
theorem parametersUntil {mark : Lexeme} {pieces : Pieces} {o : Token} (rest : List Token)
    (hd : ∀ p ∈ pieces, Derives .parameter p.1 p.2)
    (hp : ∀ p ∈ pieces, Accepts .parameter p.1 p.2)
    (hs : s.map Token.lexeme = pieces.lexemes) (hh : ∀ t ∈ pieces.trees, t.height ≤ m)
    (hn : Category.depth .parameter s.length ≤ n) (ho : o.lexeme = mark)
    (hm : Category.begins .parameter mark = false) :
    manyUntil mark (ofDepth m n).parameter (s ++ o :: rest) = .ok (pieces.trees, rest) := by
  have hne : ∀ ls t, Derives .parameter ls t → ls ≠ [] := fun _ _ h => h.ne_nil
  induction pieces generalizing s
  case nil =>
    cases List.map_eq_nil_iff.mp hs
    exact manyUntil_of_eq parameter_reads hne ho
  case cons p pieces ih =>
    simp only [Pieces.lexemes, List.flatMap_cons, List.map_eq_append_iff] at hs
    obtain ⟨s, s', rfl, hs, hs'⟩ := hs
    simp at hn
    have hx := (hp p (by simp)).all (n := n) (s' ++ o :: rest) hs
      (hh _ (by simp [Pieces.trees])) (by simp; omega) .zero
    have hy := ih (fun p h => hd p (.tail _ h)) (fun p h => hp p (.tail _ h)) hs'
      (fun t ht => hh t (.tail _ ht)) (by simp; omega)
    rw [List.append_assoc,
      manyUntil_of_ne parameter_reads hne ((hd p (by simp)).ne hs hm) hx, map_apply, hy]
    rfl

-- What starts the first parameter.
theorem head_of_pieces {pieces : Pieces} (hne : pieces ≠ [])
    (hd : ∀ p ∈ pieces, Derives c p.1 p.2) (hs : s.map Token.lexeme = pieces.lexemes) :
    ∃ o s', s = o :: s' ∧ c.begins o.lexeme := by
  cases pieces
  case nil => contradiction
  case cons p pieces =>
    obtain ⟨s, s', rfl, hs, _⟩ := List.map_eq_append_iff.mp hs
    obtain ⟨o, s, rfl, ho⟩ := (hd p (by simp)).head hs
    exact ⟨o, s ++ s', rfl, ho⟩

-- The first name, and the marks and names after it.
theorem namesAfter_of_names (hd : Derives .names ls t) (h : Accepts .names ls t) (rest : List Token)
    (hs : s.map Token.lexeme = ls) (hh : t.height ≤ m)
    (hn : Category.depth .names s.length ≤ n) (hr : Ends Category.names.looseness rest) :
    ∃ o s' x, s = o :: s' ∧ o.lexeme = .identifier x ∧
      (ofDepth m n).namesAfter (.name x) (s' ++ rest) = .ok (t, rest) := by
  obtain ⟨o, s, rfl, ho⟩ := hd.head hs
  have ⟨x, hx⟩ := Category.eq_identifier_of_begins ho
  refine ⟨o, s, x, rfl, hx, ?_⟩
  have hr := h.all rest hs hh hn hr
  simpa [Category.reader, identifier_of_eq hx] using hr

end Accepts

end RpalMachine
