import RpalMachine.Proofs.Phrases

namespace RpalMachine

-- A relation that the smallest readers have to themselves.
structure Reader.Compositional (p : {α : Type} → Reader α → Reader α → Prop) : Prop where
  bind {α β : Type} {x x' : Reader α} {f f' : α → Reader β} :
    p x x' → (∀ a, p (f a) (f' a)) → p (x >>= f) (x' >>= f')
  pure {α : Type} (a : α) : p (Pure.pure a) (Pure.pure a)
  refuse {α : Type} (wanted : Wanted) : p (α := α) (Reader.refuse wanted) (Reader.refuse wanted)
  takeIf {α : Type} (meaning? : Lexeme → Option α) :
    p (Reader.takeIf meaning?) (Reader.takeIf meaning?)
  operandHead : p Level.operandHead Level.operandHead
  -- It is enough that there are such readers for the tokens of each length.
  limit {α : Type} {x x' : Reader α} :
    (∀ n, ∃ y y', p y y' ∧ ∀ s : List Token, s.length < n → x s = y s ∧ x' s = y' s) → p x x'

-- What is related on two levels.
structure Level.Related (p : {α : Type} → Reader α → Reader α → Prop) (level level' : Level) :
    Prop where
  build (f : Form) (children : List Tree) : p (level.build f children) (level'.build f children)
  nested (phrase : Phrase) : p (level.nested phrase) (level'.nested phrase)
  sound  : level.Sound
  sound' : level'.Sound

namespace Reader.Compositional

open Level

variable {p : {α : Type} → Reader α → Reader α → Prop} (h : Compositional p)
include h

theorem map {x x' : Reader α} (f : α → β) (hx : p x x') : p (f <$> x) (f <$> x') := by
  simp only [map_eq_pure_bind]
  exact h.bind hx fun a => h.pure (f a)

theorem skip? (l : Lexeme) : p (Reader.skip? l) (Reader.skip? l) := by
  have hs : Reader.skip? l =
      Option.isSome <$> Reader.takeIf fun m => if m = l then some () else none := by
    funext s
    cases s
    case nil => rfl
    case cons t s => by_cases ht : t.lexeme = l <;> simp [Reader.skip?, Reader.takeIf, ht]
  rw [hs]
  exact h.map _ (h.takeIf _)

theorem ifSkip {l : Lexeme} {x x' y y' : Reader α} (hx : p x x') (hy : p y y') :
    p (do if ← Reader.skip? l then x else y) (do if ← Reader.skip? l then x' else y') := by
  refine h.bind (h.skip? l) fun taken => ?_
  cases taken
  case true  => exact hx
  case false => exact hy

theorem expect (l : Lexeme) : p (Reader.expect l) (Reader.expect l) := by
  refine h.bind (h.skip? l) fun taken => ?_
  cases taken
  case true  => exact h.pure _
  case false => exact h.refuse _

theorem identifier : p Reader.identifier Reader.identifier := by
  have hi : Reader.identifier = (do
      let name? ← Reader.takeIf Lexeme.name?
      name?.elim (Reader.refuse .identifier) Pure.pure) := by
    funext s
    cases s
    case nil => rfl
    case cons t s => obtain ⟨l, o⟩ := t; cases l <;> rfl
  rw [hi]
  refine h.bind (h.takeIf _) fun name? => ?_
  cases name?
  case none   => exact h.refuse _
  case some x => exact h.pure _

theorem iterate {step step' : α → Reader (Option α)} (hc : ∀ a, Consuming (step a))
    (hc' : ∀ a, Consuming (step' a)) (hs : ∀ a, p (step a) (step' a)) (a : α) :
    p (Reader.iterate step a) (Reader.iterate step' a) := by
  have hgo : ∀ n a, p (iterate.go step n a) (iterate.go step' n a) := by
    intro n
    induction n
    case zero => exact fun a => h.pure a
    case succ n hi =>
      refine fun a => h.bind (hs a) fun b? => ?_
      cases b?
      case none   => exact h.pure a
      case some b => exact hi b
  refine h.limit fun n => ⟨_, _, hgo n a, fun s hs => ⟨?_, ?_⟩⟩
  case refine_1 => exact iterate_go_eq hc a s (Nat.lt_succ_self _) hs
  case refine_2 => exact iterate_go_eq hc' a s (Nat.lt_succ_self _) hs

theorem many {item item' : Reader (Option α)} (hc : Consuming item) (hc' : Consuming item')
    (hi : p item item') : p (Reader.many item) (Reader.many item') := by
  have hgo : ∀ n, p (many.go item n) (many.go item' n) := by
    intro n
    induction n
    case zero => exact h.pure []
    case succ n ih =>
      refine h.bind hi fun a? => ?_
      cases a?
      case none   => exact h.pure []
      case some a => exact h.bind ih fun as => h.pure (a :: as)
  refine h.limit fun n => ⟨_, _, hgo n, fun s hs => ⟨?_, ?_⟩⟩
  case refine_1 => exact many_go_eq hc s (Nat.lt_succ_self _) hs
  case refine_2 => exact many_go_eq hc' s (Nat.lt_succ_self _) hs

theorem manyAfter {item item' : Reader Tree} {q q' : List Lexeme → Tree → Prop}
    (hr : Reads item q) (hr' : Reads item' q') (mark : Lexeme) (hi : p item item') :
    p (Reader.manyAfter mark item) (Reader.manyAfter mark item') :=
  h.many (hr.itemAfter mark).consuming (hr'.itemAfter mark).consuming
    (h.ifSkip (h.map _ hi) (h.pure none))

variable {level level' : Level} (r : Related p level level')
include r

theorem leftChain {operator? : Lexeme → Option BinaryOperator} {operand operand' : Reader Tree}
    {q q' : List Lexeme → Tree → Prop} (hr : Reads operand q) (hr' : Reads operand' q')
    (ho : p operand operand') (t : Tree) :
    p (level.leftChain operator? operand t) (level'.leftChain operator? operand' t) := by
  refine h.iterate (operation_consuming hr) (operation_consuming hr') (fun t => ?_) t
  refine h.bind (h.takeIf operator?) fun op? => ?_
  cases op?
  case none    => exact h.pure none
  case some op => exact h.map _ (h.bind ho fun u => r.build _ _)

theorem joined {first first' second second' : Reader Tree} (mark : Lexeme) (f : Form)
    (hf : p first first') (hs : p second second') :
    p (level.joined mark f first second) (level'.joined mark f first' second') :=
  h.bind hf fun _ => h.ifSkip (h.bind hs fun _ => r.build _ _) (h.pure _)

theorem marked {phrase phrase' : Reader Tree} (mark : Lexeme) (f : Form) (hp : p phrase phrase') :
    p (level.marked mark f phrase) (level'.marked mark f phrase') :=
  h.ifSkip (h.bind hp fun _ => r.build _ _) hp

theorem seriesAfter {item item' : Reader Tree} {q q' : List Lexeme → Tree → Prop}
    (hr : Reads item q) (hr' : Reads item' q') (mark : Lexeme) (f : Form) (hi : p item item')
    (t : Tree) : p (level.seriesAfter f mark item t) (level'.seriesAfter f mark item' t) := by
  refine h.bind (h.manyAfter hr hr' mark hi) fun rest => ?_
  simp only [gather]
  split
  case isTrue  => exact h.pure t
  case isFalse => exact r.build _ _

theorem operandAfter (o : Opening) : p (level.operandAfter o) (level'.operandAfter o) := by
  cases o
  case whole t     => exact h.pure t
  case parenthesis =>
    exact h.bind (r.nested .expression) fun e => h.bind (h.expect _) fun _ => h.pure e

theorem operand : p level.operand level'.operand := by
  rw [operand_eq, operand_eq]
  refine h.bind h.operandHead fun o? => ?_
  cases o?
  case none   => exact h.refuse _
  case some o => exact h.operandAfter r o

theorem argumentsAfter (t : Tree) : p (level.argumentsAfter t) (level'.argumentsAfter t) := by
  refine h.iterate (argument_consuming r.sound) (argument_consuming r.sound') (fun t => ?_) t
  rw [argument_eq, argument_eq]
  refine h.bind h.operandHead fun o? => ?_
  cases o?
  case none   => exact h.pure none
  case some o => exact h.map _ (h.bind (h.operandAfter r o) fun u => r.build _ _)

theorem application : p level.application level'.application :=
  h.bind (h.operand r) fun t => h.argumentsAfter r t

theorem callsAfter (t : Tree) : p (level.callsAfter t) (level'.callsAfter t) := by
  refine h.iterate (call_consuming r.sound) (call_consuming r.sound') (fun t => ?_) t
  refine h.ifSkip (h.bind h.identifier fun fn => h.map _ ?_) (h.pure none)
  exact h.bind (h.application r) fun u => r.build _ _

theorem infixCall : p level.infixCall level'.infixCall :=
  h.bind (h.application r) fun t => h.callsAfter r t

theorem power : p level.power level'.power :=
  h.joined r _ _ (h.infixCall r) (r.nested .power)

theorem product : p level.product level'.product :=
  h.bind (r.nested .power) fun t =>
    h.leftChain r (r.sound .power) (r.sound' .power) (r.nested .power) t

theorem signed : p level.signed level'.signed :=
  h.ifSkip (h.bind (h.product r) fun _ => r.build _ _) (h.ifSkip (h.product r) (h.product r))

theorem sum : p level.sum level'.sum :=
  h.bind (h.signed r) fun t =>
    h.leftChain r (product_reads r.sound) (product_reads r.sound') (h.product r) t

theorem comparison : p level.comparison level'.comparison := by
  refine h.bind (h.sum r) fun t => h.bind (h.takeIf _) fun op? => ?_
  cases op?
  case none    => exact h.pure t
  case some op => exact h.bind (h.sum r) fun u => r.build _ _

theorem negation : p level.negation level'.negation :=
  h.marked r _ _ (h.comparison r)

theorem conjunction : p level.conjunction level'.conjunction :=
  h.bind (h.negation r) fun t =>
    h.leftChain r (negation_reads r.sound) (negation_reads r.sound') (h.negation r) t

theorem disjunction : p level.disjunction level'.disjunction :=
  h.bind (h.conjunction r) fun t =>
    h.leftChain r (conjunction_reads r.sound) (conjunction_reads r.sound') (h.conjunction r) t

theorem conditional : p level.conditional level'.conditional := by
  refine h.bind (h.disjunction r) fun t => h.ifSkip ?_ (h.pure t)
  refine h.bind (r.nested .conditional) fun u => h.bind (h.expect _) fun _ => ?_
  exact h.bind (r.nested .conditional) fun v => r.build _ _

theorem augmentation : p level.augmentation level'.augmentation :=
  h.bind (r.nested .conditional) fun t =>
    h.leftChain r (r.sound .conditional) (r.sound' .conditional) (r.nested .conditional) t

theorem tuple : p level.tuple level'.tuple :=
  h.bind (h.augmentation r) fun t =>
    h.seriesAfter r (augmentation_reads r.sound) (augmentation_reads r.sound') _ _
      (h.augmentation r) t

theorem namesAfter (t : Tree) : p (level.namesAfter t) (level'.namesAfter t) :=
  h.seriesAfter r name_reads name_reads _ _ h.identifier t

theorem parameterAfter (o : Opening) : p (level.parameterAfter o) (level'.parameterAfter o) := by
  cases o
  case whole t     => exact h.pure t
  case parenthesis =>
    refine h.ifSkip (h.pure _) (h.bind h.identifier fun t => h.bind (h.namesAfter r t) fun u => ?_)
    exact h.bind (h.expect _) fun _ => h.pure u

theorem parameter : p level.parameter level'.parameter := by
  rw [parameter_eq, parameter_eq]
  refine h.bind (h.takeIf _) fun o? => ?_
  cases o?
  case none   => exact h.refuse _
  case some o => exact h.parameterAfter r o

theorem parametersUntil (mark : Lexeme) :
    p (manyUntil mark level.parameter) (manyUntil mark level'.parameter) :=
  h.many (parameter_consuming level mark) (parameter_consuming level' mark)
    (h.ifSkip (h.pure none) (h.map _ (h.parameter r)))

theorem bindingAfter (t : Tree) : p (level.bindingAfter t) (level'.bindingAfter t) := by
  refine h.bind (h.takeIf _) fun o? => ?_
  cases o?
  case none =>
    refine h.bind (h.namesAfter r t) fun names => h.bind (h.expect _) fun _ => ?_
    exact h.bind (r.nested .expression) fun u => r.build _ _
  case some o =>
    refine h.bind (h.parameterAfter r o) fun first => h.bind (h.parametersUntil r _) fun ps => ?_
    exact h.bind (r.nested .expression) fun u => r.build _ _

theorem binding : p level.binding level'.binding := by
  rw [binding_eq, binding_eq]
  refine h.ifSkip ?_ (h.bind h.identifier fun t => h.bindingAfter r t)
  exact h.bind (r.nested .definition) fun d => h.bind (h.expect _) fun _ => h.pure d

theorem recursion : p level.recursion level'.recursion :=
  h.marked r _ _ (h.binding r)

theorem simultaneous : p level.simultaneous level'.simultaneous :=
  h.bind (h.recursion r) fun t =>
    h.seriesAfter r (recursion_reads r.sound) (recursion_reads r.sound') _ _ (h.recursion r) t

theorem definition : p level.definition level'.definition :=
  h.joined r _ _ (h.simultaneous r) (r.nested .definition)

theorem clause : p level.clause level'.clause :=
  h.joined r _ _ (h.tuple r) (h.recursion r)

theorem expression : p level.expression level'.expression := by
  refine h.ifSkip ?_ (h.ifSkip ?_ (h.clause r))
  case refine_1 =>
    refine h.bind (r.nested .definition) fun d => h.bind (h.expect _) fun _ => ?_
    exact h.bind (r.nested .expression) fun t => r.build _ _
  case refine_2 =>
    refine h.bind (h.parameter r) fun first => h.bind (h.parametersUntil r _) fun ps => ?_
    exact h.bind (r.nested .expression) fun t => r.build _ _

theorem phrase : (ph : Phrase) → p (level.phrase ph) (level'.phrase ph)
  | .expression  => h.expression r
  | .conditional => h.conditional r
  | .power       => h.power r
  | .definition  => h.definition r

end Reader.Compositional

end RpalMachine
