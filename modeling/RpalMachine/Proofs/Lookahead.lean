import RpalMachine.Source.Phrase
import RpalMachine.Proofs.Grammar

namespace RpalMachine

namespace Lexeme

def startsSum (l : Lexeme) : Bool :=
  Level.startsOperand l || l == .operator "+" || l == .operator "-"

def startsNegation (l : Lexeme) : Bool :=
  startsSum l || l == .keyword "not"

-- How loosely what the lexeme goes on with is bound together. Whatever ends phrases of all kinds is
-- looser than any of them.
def looseness (l : Lexeme) : Nat :=
  if Level.startsOperand l then 1
  else if (Level.comparison? l).isSome then 6
  else match l with
    | .operator "@"                 => 2
    | .operator "**"                => 3
    | .operator "*" | .operator "/" => 4
    | .operator "+" | .operator "-" => 5
    | .operator "&"                 => 7
    | .keyword "or"                 => 8
    | .operator "->"                => 9
    | .keyword "aug"                => 10
    | .punctuation ","              => 11
    | .keyword "where"              => 12
    | .keyword "and"                => 13
    | .keyword "within"             => 14
    | _                             => 15

end Lexeme

namespace Category

-- Whether a phrase can begin with the lexeme.
def begins (c : Category) (l : Lexeme) : Bool :=
  match c with
  | name | names                              => (l matches .identifier _)
  | binding | parameter                       => Level.binding.startsParameter l
  | definition | simultaneous | recursion     =>
    Level.binding.startsParameter l || l == .keyword "rec"
  | operand | application | infixCall | power | product => Level.startsOperand l
  | sum | comparison                          => l.startsSum
  | negation | conjunction | disjunction | conditional | augmentation | tuple | clause =>
    l.startsNegation
  | expression => l.startsNegation || l == .keyword "let" || l == .keyword "fn"

-- The loosest lexemes that a phrase goes on with.
def looseness : Category → Nat
  | name | operand | parameter                => 0
  | application                               => 1
  | infixCall                                 => 2
  | power                                     => 3
  | product                                   => 4
  | sum                                       => 5
  | comparison | negation                     => 6
  | conjunction                               => 7
  | disjunction                               => 8
  | conditional                               => 9
  | augmentation                              => 10
  | tuple | names                             => 11
  | clause | expression | binding | recursion => 12
  | simultaneous                              => 13
  | definition                                => 14

-- The operator that joins two phrases, if the lexeme stands for one.
def operator? : Category → Lexeme → Option BinaryOperator
  | augmentation => Level.only (.keyword "aug") .aug
  | disjunction  => Level.only (.keyword "or") .or
  | conjunction  => Level.only (.operator "&") .and
  | sum          => Level.sum?
  | product      => Level.product?
  | _            => fun _ => none

variable {c d : Category} {l : Lexeme} {op : BinaryOperator}

theorem operator?_eq_some_iff : c.operator? l = some op ↔ (l, op) ∈ c.operators := by
  cases c
  case augmentation | disjunction | conjunction =>
    simp [operator?, operators, Level.only, eq_comm]
  case sum =>
    simp only [operator?, Level.sum?]
    split <;> simp_all [operators, eq_comm]
  case product =>
    simp only [operator?, Level.product?]
    split <;> simp_all [operators, eq_comm]
  all_goals simp [operator?, operators]

theorem eq_identifier_of_begins (h : name.begins l) : ∃ x, l = .identifier x := by
  cases l
  case identifier x => exact ⟨x, rfl⟩
  all_goals contradiction

theorem begins_of_alone? (h : c.alone? = some d) (hl : d.begins l) : c.begins l := by
  cases c <;> cases h
  case operand | parameter | names =>
    have ⟨_, h⟩ := eq_identifier_of_begins hl
    exact h ▸ rfl
  all_goals simp_all [begins, Lexeme.startsNegation, Lexeme.startsSum]

theorem alone?_of_series? {mark : Lexeme} {f : Form} (h : c.series? = some (d, mark, f)) :
    c.alone? = some d := by
  cases c <;> cases h <;> rfl

end Category

theorem comparison?_eq_some_iff {l : Lexeme} {op : BinaryOperator} :
    Level.comparison? l = some op ↔ (l, op) ∈ comparisons := by
  simp only [Level.comparison?]
  split <;> simp_all [comparisons, eq_comm]

theorem Derives.eq_of_name {ls : List Lexeme} {t : Tree} (h : Derives .name ls t) :
    ∃ x, ls = [.identifier x] ∧ t = .name x := by
  cases h
  case name x => exact ⟨x, rfl, rfl⟩
  case chain hd _ _ => cases hd
  all_goals contradiction

-- After the first name there is another one, or none.
theorem Derives.head_of_names {l : Lexeme} {ls : List Lexeme} {t : Tree}
    (h : Derives .names (l :: ls) t) : ∀ m ∈ ls.head?, m = .punctuation "," := by
  generalize he : l :: ls = ms at h
  cases h
  case alone hd h =>
    cases hd
    have ⟨x, hx, _⟩ := h.eq_of_name
    cases he.trans hx
    exact nofun
  case series pieces mark f hne h _ hd =>
    cases hd
    have ⟨x, hx, _⟩ := h.eq_of_name
    cases pieces
    case nil  => contradiction
    case cons =>
      rw [hx] at he
      cases he
      rintro _ ⟨⟩
      rfl
  case chain hd _ _ => cases hd

-- A phrase is not empty, and its first lexeme is one that such phrases begin with.
theorem Derives.begins {c : Category} {ls : List Lexeme} {t : Tree} (h : Derives c ls t) :
    ∃ l rest, ls = l :: rest ∧ c.begins l := by
  induction h
  case alone hc _ hi =>
    obtain ⟨l, rest, rfl, hl⟩ := hi
    exact ⟨l, rest, rfl, Category.begins_of_alone? hc hl⟩
  case series hc _ _ _ hi _ =>
    obtain ⟨l, rest, rfl, hl⟩ := hi
    exact ⟨l, _, rfl, Category.begins_of_alone? (Category.alone?_of_series? hc) hl⟩
  case chain hi _ | application hi _ | infixCall hi _ =>
    obtain ⟨l, rest, rfl, hl⟩ := hi
    exact ⟨l, _, rfl, hl⟩
  case whereIn hi _ | conditional hi _ _ | comparison hi _ | power hi _ | within hi _ =>
    obtain ⟨l, rest, rfl, hl⟩ := hi
    exact ⟨l, _, rfl, Category.begins_of_alone? rfl hl⟩
  case equal hi _ =>
    obtain ⟨l, rest, rfl, hl⟩ := hi
    have ⟨x, h⟩ := Category.eq_identifier_of_begins hl
    exact ⟨l, _, rfl, h ▸ rfl⟩
  case truth b => cases b <;> exact ⟨_, _, rfl, rfl⟩
  all_goals
    exact ⟨_, _, rfl, rfl⟩

theorem Derives.ne_nil {c : Category} {ls : List Lexeme} {t : Tree} (h : Derives c ls t) :
    ls ≠ [] :=
  have ⟨_, _, hl, _⟩ := h.begins
  hl ▸ List.cons_ne_nil _ _

end RpalMachine
