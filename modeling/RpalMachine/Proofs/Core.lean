import RpalMachine.Evaluation

namespace RpalMachine

-- What a literal stands for. The value of `nil` is the empty tuple.
inductive Constant
  | integer (value : Int64)
  | string (text : String)
  | truth (value : Bool)
  | nil
  | dummy
  | yStar

def Constant.symbol : Constant → Symbol
  | integer n => .integer n
  | string s  => .string s
  | truth b   => .truth b
  | nil       => .nil
  | dummy     => .dummy
  | yStar     => .yStar

inductive Core
  | name (x : String)
  | constant (c : Constant)
  | lambda (id : Nat) (params : List String) (label : Nat) (body : Core)
  | apply (fn arg : Core)
  | tuple (elements : List Core)
  | unary (op : UnaryOperator) (operand : Core)
  | binary (op : BinaryOperator) (left right : Core)
  | conditional (condition : Core) (yesLabel : Nat) (yes : Core) (noLabel : Nat) (no : Core)

namespace Core

mutual

def code : Core → List Symbol
  | name x                     => [.identifier x]
  | constant c                 => [c.symbol]
  | lambda id params label body => [.lambda ⟨id, params, ⟨label, code body⟩, none⟩]
  | apply fn arg               => code arg ++ code fn ++ [.gamma]
  | tuple elements             => forestCode elements ++ [.tau elements.length]
  | unary op operand           => code operand ++ [.unary op]
  | binary op left right       => code right ++ code left ++ [.binary op]
  | conditional condition yesLabel yes noLabel no =>
    [.test (code condition), .beta, .delta ⟨noLabel, code no⟩, .delta ⟨yesLabel, code yes⟩]

def forestCode : List Core → List Symbol
  | []      => []
  | c :: cs => forestCode cs ++ code c

end

end Core

def Leaf.core? : Leaf → Option Core
  | identifier x => some (.name x)
  | integer n    => some (.constant (.integer n))
  | string s     => some (.constant (.string s))
  | truth b      => some (.constant (.truth b))
  | nil          => some (.constant .nil)
  | dummy        => some (.constant .dummy)
  | yStar        => some (.constant .yStar)
  | unit         => none

def Numbered.blockLabel : Numbered Nat :=
  modifyGet fun n => (n.nextBlock, { n with nextBlock := n.nextBlock + 1 })

theorem Numbered.finish_eq (code : List Symbol) :
    Numbered.finish code = (⟨·, code⟩) <$> Numbered.blockLabel :=
  rfl

namespace Tree

mutual

-- A block is numbered when what it holds has been.
def number : Tree → Numbered Core
  | node tag children => do
    .lift (checkArity tag children.length)
    match tag, children with
    | .leaf l, _ =>
      match l.core? with
      | some c => return c
      | none   => throw (.misplaced tag)
    | .form .lambda, [param, body] =>
      let params ← .lift param.parameterNames
      let id ← .lambdaId
      let body ← number body
      let label ← .blockLabel
      return .lambda id params label body
    | .form .conditional, [condition, yes, no] =>
      let yes ← number yes
      let yesLabel ← .blockLabel
      let no ← number no
      let noLabel ← .blockLabel
      let condition ← number condition
      return .conditional condition yesLabel yes noLabel no
    | .form .gamma, [fn, arg] =>
      let fn ← number fn
      let arg ← number arg
      return .apply fn arg
    | .form .tau, elements => return .tuple (← numberForest elements)
    | .form (.unary op), [operand] => return .unary op (← number operand)
    | .form (.binary op), [left, right] =>
      let left ← number left
      let right ← number right
      return .binary op left right
    | .form f, _ => throw f.fault

def numberForest : List Tree → Numbered (List Core)
  | [] => return []
  | t :: ts => do
    let t ← number t
    let ts ← numberForest ts
    return t :: ts

end

theorem length_numberForest {n n' : Numbering} :
    {ts : List Tree} → {cs : List Core} → numberForest ts n = .ok cs n' → cs.length = ts.length
  | [], cs, h => by cases h; rfl
  | t :: ts, cs, h => by
    simp only [numberForest, bind, EStateM.bind] at h
    split at h <;> try contradiction
    split at h <;> try contradiction
    case _ ht =>
      cases h
      simp [length_numberForest ht]

-- The number of elements that a tuple is given is that of its trees.
theorem map_numberForest (f : List Core → Nat → α) (ts : List Tree) :
    (fun cs => f cs cs.length) <$> numberForest ts =
      (fun cs => f cs ts.length) <$> numberForest ts := by
  funext n
  change EStateM.map _ _ n = EStateM.map _ _ n
  simp only [EStateM.map]
  cases h : numberForest ts n
  case ok cs n'  => simp [length_numberForest h]
  case error     => rfl

mutual

theorem code_eq_number : (t : Tree) → t.code = Core.code <$> t.number
  | node tag children => by
    unfold code number
    rw [map_bind]
    cases ha : checkArity tag children.length
    case error => rfl
    case ok =>
    congr 1
    funext ⟨⟩
    match tag, children with
    | .leaf l, _ => cases l <;> rfl
    | .form .lambda, [param, body] =>
      simp [code_eq_number body, Numbered.finish_eq, Core.code]
    | .form .conditional, [condition, yes, no] =>
      simp [code_eq_number condition, code_eq_number yes, code_eq_number no, Numbered.finish_eq,
        Core.code]
    | .form .gamma, [fn, arg] =>
      simp [forestCode, code_eq_number fn, code_eq_number arg, Form.operation?, Core.code]
    | .form .tau, elements =>
      have h := map_numberForest (fun cs n => Core.forestCode cs ++ [.tau n]) elements
      simpa [forestCode_eq_number elements, Form.operation?, Core.code] using h.symm
    | .form (.unary op), [operand] =>
      simp [forestCode, code_eq_number operand, Form.operation?, Core.code]
    | .form (.binary op), [left, right] =>
      simp [forestCode, code_eq_number left, code_eq_number right, Form.operation?, Core.code]
    -- Other numbers of children have been refused.
    | .form .lambda, [] | .form .lambda, [_] | .form .conditional, [] | .form .conditional, [_]
    | .form .conditional, [_, _] | .form .conditional, _ :: _ :: _ :: _ :: _ | .form .gamma, []
    | .form .gamma, [_] | .form .gamma, _ :: _ :: _ :: _ | .form (.unary _), []
    | .form (.unary _), _ :: _ :: _ | .form (.binary _), [] | .form (.binary _), [_]
    | .form (.binary _), _ :: _ :: _ :: _ =>
      simp [checkArity, Tag.arity, Form.arity, Arity.accepts] at ha
    | .form .lambda, _ :: _ :: _ :: _ | .form .letIn, _ | .form .whereIn, _ | .form .within, _
    | .form .simultaneous, _ | .form .recursive, _ | .form .equal, _ | .form .comma, _
    | .form .function, _ | .form .infixCall, _ => rfl

theorem forestCode_eq_number :
    (ts : List Tree) → forestCode ts = Core.forestCode <$> numberForest ts
  | [] => rfl
  | t :: ts => by
    simp [forestCode, numberForest, code_eq_number t, forestCode_eq_number ts, Core.forestCode]

end

-- A tree is accepted by the machine exactly if it has a core, and is then run as the code of it.
theorem machine_eq_ok_iff {t : Tree} {sink : Sink} {m : Machine} {n : Numbering} :
    t.machine sink = .ok (m, n) ↔
      ∃ core k, t.number {} = .ok core k ∧ m = .start ⟨k.nextBlock, core.code⟩ sink ∧
        n = { k with nextBlock := k.nextBlock + 1 } := by
  rw [machine, block]
  rw [code_eq_number]
  simp only [bind, EStateM.bind, Functor.map, EStateM.map]
  cases h : t.number {}
  case ok core k =>
    constructor
    case mp  => rintro ⟨⟩; exact ⟨core, k, rfl, rfl, rfl⟩
    case mpr => rintro ⟨_, _, ⟨⟩, rfl, rfl⟩; rfl
  case error => simp

-- A program that prints the factorial of a number.
def factorial (n : Int64) : Tree :=
  call (name "Print") (call (call (leaf .yStar) (lambda "f" (lambda "n" body))) (leaf (.integer n)))
where
  leaf (l : Leaf) : Tree := node (.leaf l) []
  name (x : String) : Tree := leaf (.identifier x)
  lambda (x : String) (body : Tree) : Tree := node (.form .lambda) [name x, body]
  call (fn arg : Tree) : Tree := node (.form .gamma) [fn, arg]
  binary (op : BinaryOperator) (t u : Tree) : Tree := node (.form (.binary op)) [t, u]
  body : Tree := node (.form .conditional)
    [binary .eq (name "n") (leaf (.integer 0)), leaf (.integer 1),
      binary .mul (name "n") (call (name "f") (binary .sub (name "n") (leaf (.integer 1))))]

end Tree

end RpalMachine
