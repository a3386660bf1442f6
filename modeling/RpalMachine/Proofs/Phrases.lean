import RpalMachine.Proofs.Following

namespace RpalMachine

-- If the lexeme is a literal, its number is in range.
def Lexeme.InRange (l : Lexeme) : Prop :=
  ∀ digits, l = .integer digits → (integer? (Level.literal digits)).isSome

-- The tree of a name.
def Lexeme.name? : Lexeme → Option Tree
  | identifier x => some (.name x)
  | _            => none

namespace Level

open Reader

-- What an operand or a parameter begins with: all of it, or a parenthesis.
inductive Opening
  | whole (t : Tree)
  | parenthesis

def operandOpening? : Lexeme → Option Opening
  | .identifier x  => some (.whole (.name x))
  | .string s      => some (.whole (.leaf (.string s)))
  | .keyword w     => (word? w).map fun l => .whole (.leaf l)
  | .punctuation p => if p = "(" then some .parenthesis else none
  | .integer _     => none
  | .operator _    => none

-- Takes what an operand begins with, if one comes next.
def operandHead : Reader (Option Opening) := do
  match ← get with
  | []        => return none
  | t :: rest =>
    match t.lexeme with
    | .integer ds =>
      set rest
      let n ← number t (integer? (literal ds))
      return some (.whole n)
    | _ =>
      match operandOpening? t.lexeme with
      | some o => set rest; return some o
      | none   => return none

def parameterOpening? : Lexeme → Option Opening
  | .identifier x  => some (.whole (.name x))
  | .punctuation p => if p = "(" then some .parenthesis else none
  | _              => none

variable (level : Level)

def operandAfter : Opening → Reader Tree
  | .whole t     => return t
  | .parenthesis => do
    let e ← level.nested .expression
    expect (.punctuation ")")
    return e

def parameterAfter : Opening → Reader Tree
  | .whole t     => return t
  | .parenthesis => do
    if ← skip? (.punctuation ")") then return .leaf .unit
    else
      let first ← identifier
      let names ← level.namesAfter first
      expect (.punctuation ")")
      return names

theorem operand_eq : level.operand = (do
    match ← operandHead with
    | some o => level.operandAfter o
    | none   => refuse .operand) := by
  funext s
  match s with
  | [] => rfl
  | ⟨.identifier _, _⟩ :: _ | ⟨.string _, _⟩ :: _ | ⟨.operator _, _⟩ :: _ => rfl
  | ⟨.integer ds, o⟩ :: _ =>
    simp only [operand, operandHead, bind_apply, get_apply, set_apply]
    cases integer? (literal ds) <;> rfl
  | ⟨.keyword w, o⟩ :: _ =>
    simp only [operand, operandHead, operandOpening?, bind_apply, get_apply]
    cases word? w <;> rfl
  | ⟨.punctuation p, o⟩ :: _ =>
    simp only [operand, operandHead, operandOpening?, bind_apply, get_apply]
    by_cases hp : p = "(" <;> simp [hp, operandAfter, refuse]

theorem operandHead_of_not_starts {s : List Token}
    (h : s.head?.any (startsOperand ·.lexeme) = false) : operandHead s = .ok (none, s) := by
  match s with
  | [] | ⟨.operator _, _⟩ :: _ => rfl
  | ⟨.identifier _, _⟩ :: _ | ⟨.string _, _⟩ :: _ | ⟨.integer _, _⟩ :: _ => contradiction
  | ⟨.keyword w, _⟩ :: _ =>
    cases hw : word? w <;> simp [startsOperand, hw] at h
    simp [operandHead, operandOpening?, hw]
  | ⟨.punctuation p, _⟩ :: _ =>
    have hp : p ≠ "(" := by simpa [startsOperand] using h
    simp [operandHead, operandOpening?, hp]

theorem operandHead_of_starts {s s' : List Token} (h : s.head?.any (startsOperand ·.lexeme)) :
    operandHead s ≠ .ok (none, s') := by
  match s with
  | [] | ⟨.operator _, _⟩ :: _ => contradiction
  | ⟨.identifier _, _⟩ :: _ | ⟨.string _, _⟩ :: _ => exact nofun
  | ⟨.integer ds, _⟩ :: _ =>
    simp only [operandHead, bind_apply, get_apply, set_apply]
    cases integer? (literal ds) <;> exact nofun
  | ⟨.keyword w, _⟩ :: _ =>
    cases hw : word? w <;> simp [startsOperand, hw] at h
    simp [operandHead, operandOpening?, hw]
  | ⟨.punctuation p, _⟩ :: _ =>
    have hp : p = "(" := by simpa [startsOperand] using h
    simp [operandHead, operandOpening?, hp]

theorem argument_eq (fn : Tree) : level.argument fn = (do
    match ← operandHead with
    | some o => some <$> (do level.build .gamma [fn, ← level.operandAfter o])
    | none   => return none) := by
  funext s
  cases hs : s.head?.any (startsOperand ·.lexeme)
  case false => simp [argument, hs, operandHead_of_not_starts hs]
  case true =>
    simp only [argument, operand_eq, bind_apply, get_apply, hs, if_true, map_apply]
    cases ho : operandHead s
    case error => rfl
    case ok a =>
      obtain ⟨_ | o, s'⟩ := a
      case none => exact absurd ho (operandHead_of_starts hs)
      case some => simp

theorem parameter_eq : level.parameter = (do
    match ← takeIf parameterOpening? with
    | some o => level.parameterAfter o
    | none   => refuse .identifier) := by
  funext s
  match s with
  | [] => rfl
  | ⟨.identifier _, _⟩ :: _ | ⟨.string _, _⟩ :: _ | ⟨.operator _, _⟩ :: _ | ⟨.integer _, _⟩ :: _
  | ⟨.keyword _, _⟩ :: _ => rfl
  | ⟨.punctuation p, o⟩ :: _ =>
    by_cases hp : p = "(" <;>
      simp [hp, parameter, takeIf, parameterOpening?, skip?, parameterAfter, identifier]

theorem parameterOpening?_isSome (l : Lexeme) :
    (parameterOpening? l).isSome = binding.startsParameter l := by
  cases l
  case punctuation p =>
    by_cases hp : p = "(" <;> simp [parameterOpening?, binding.startsParameter, hp]
  all_goals rfl

-- What is left of a binding after its first name: parameters, of which there is one at least, or
-- more names.
def bindingAfter (name : Tree) : Reader Tree := do
  match ← takeIf parameterOpening? with
  | some o =>
    let first ← level.parameterAfter o
    let params ← manyUntil (.operator "=") level.parameter
    let body ← level.nested .expression
    level.build .function (name :: first :: params ++ [body])
  | none =>
    let names ← level.namesAfter name
    expect (.operator "=")
    let value ← level.nested .expression
    level.build .equal [names, value]

theorem parameter_consuming (mark : Lexeme) :
    Consuming (do if ← skip? mark then return none else some <$> level.parameter) :=
  (parameter_reads.itemBefore (fun _ _ h => h.ne_nil) mark).consuming

theorem parametersUntil_of_opening {s : List Token} {t : Token} {o : Opening}
    (ho : parameterOpening? t.lexeme = some o) :
    manyUntil (.operator "=") level.parameter (t :: s) = (do
      let first ← level.parameterAfter o
      (first :: ·) <$> manyUntil (.operator "=") level.parameter) s := by
  have hne : t.lexeme ≠ .operator "=" := by
    intro h
    simp [h, parameterOpening?] at ho
  have hp : level.parameter (t :: s) = level.parameterAfter o s := by
    simp [parameter_eq, takeIf_of_some ho]
  rw [manyUntil, many_eq (parameter_consuming level _)]
  simp only [bind_apply, skip?_cons_of_ne hne, Bool.false_eq_true, if_false, map_apply, hp]
  cases level.parameterAfter o s <;> rfl

theorem binding_eq : level.binding = (do
    if ← skip? (.punctuation "(") then
      let d ← level.nested .definition
      expect (.punctuation ")")
      return d
    else
      let name ← identifier
      level.bindingAfter name) := by
  rw [binding]
  congr 1
  funext taken
  cases taken
  case true  => rfl
  case false =>
    simp only [if_false, Bool.false_eq_true]
    congr 1
    funext name s
    match s with
    | [] => rfl
    | t :: s =>
      have hs := parameterOpening?_isSome t.lexeme
      cases ho : parameterOpening? t.lexeme <;> rw [ho] at hs
      case none   => simp [bindingAfter, takeIf, ho, ← hs]
      case some o =>
        have hp := parametersUntil_of_opening level (s := s) ho
        simp only [bindingAfter, bind_apply, get_apply, takeIf_of_some ho, hp, map_apply,
          List.head?_cons, Option.any_some, ← hs, Option.isSome_some, if_true]
        cases level.parameterAfter o s
        case error => rfl
        case ok a  =>
          obtain ⟨first, s₁⟩ := a
          dsimp only
          cases manyUntil (.operator "=") level.parameter s₁ <;> rfl

end Level

end RpalMachine
