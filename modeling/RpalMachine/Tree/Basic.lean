import RpalMachine.Operator

namespace RpalMachine

-- A tag that stands for a finished expression or an empty parameter list.
inductive Leaf
  | identifier (name : String)
  | integer (value : Int64)
  | string (text : String)
  | truth (value : Bool)
  | nil
  | dummy
  | yStar
  | unit
deriving DecidableEq

-- A tag that combines its children.
inductive Form
  | letIn
  | lambda
  | whereIn
  | tau
  | conditional
  | gamma
  | within
  | simultaneous
  | recursive
  | equal
  | comma
  | function
  | infixCall
  | unary (op : UnaryOperator)
  | binary (op : BinaryOperator)
deriving DecidableEq

inductive Tag
  | leaf (leaf : Leaf)
  | form (form : Form)
deriving DecidableEq

inductive Arity
  | exactly (count : Nat)
  | atLeast (count : Nat)
deriving DecidableEq

namespace Arity

def count : Arity → Nat
  | exactly n | atLeast n => n

def text : Arity → String
  | exactly n => toString n
  | atLeast n => "at least " ++ toString n

def accepts : Arity → Nat → Bool
  | exactly n, found => found == n
  | atLeast n, found => n ≤ found

end Arity

namespace Leaf

-- The word of a leaf that has no payload; the kind of payload of one that has.
def keyword : Leaf → String
  | identifier _ => "id"
  | integer _    => "int"
  | string _     => "str"
  | truth true   => "true"
  | truth false  => "false"
  | nil          => "nil"
  | dummy        => "dummy"
  | yStar        => "<Y*>"
  | unit         => "()"

-- The leaf that a bare word stands for.
def ofWord? : String → Option Leaf
  | "true"  => some (truth true)
  | "false" => some (truth false)
  | "nil"   => some nil
  | "dummy" => some dummy
  | "<Y*>"  => some yStar
  | "()"    => some unit
  | _       => none

def label : Leaf → String
  | identifier name => "<ID:" ++ name ++ ">"
  | integer value   => "<INT:" ++ toString value.toInt ++ ">"
  | string text     => "<STR:'" ++ text ++ "'>"
  | truth true      => "<true>"
  | truth false     => "<false>"
  | nil             => "<nil>"
  | dummy           => "<dummy>"
  | yStar           => "<Y*>"
  | unit            => "()"

end Leaf

namespace Form

def keyword : Form → String
  | letIn        => "let"
  | lambda       => "lambda"
  | whereIn      => "where"
  | tau          => "tau"
  | conditional  => "->"
  | gamma        => "gamma"
  | within       => "within"
  | simultaneous => "and"
  | recursive    => "rec"
  | equal        => "="
  | comma        => ","
  | function     => "fcn_form"
  | infixCall    => "@"
  | unary op     => op.word
  | binary op    => op.word

def ofKeyword? : String → Option Form
  | "let"           => some letIn
  | "lambda"        => some lambda
  | "where"         => some whereIn
  | "tau"           => some tau
  | "->"            => some conditional
  | "gamma"         => some gamma
  | "within"        => some within
  | "and"           => some simultaneous
  | "rec"           => some recursive
  | "="             => some equal
  | ","             => some comma
  | "fcn_form"      => some function
  | "function_form" => some function
  | "@"             => some infixCall
  | word => (UnaryOperator.ofWord? word).map unary <|> (BinaryOperator.ofWord? word).map binary

theorem ofKeyword?_keyword (form : Form) : ofKeyword? form.keyword = some form := by
  cases form with
  | unary op  => cases op <;> rfl
  | binary op => cases op <;> rfl
  | _         => rfl

def label : Form → String
  | function => "function_form"
  | form     => form.keyword

def arity : Form → Arity
  | recursive | unary _                                   => .exactly 1
  | letIn | whereIn | within | gamma | equal | binary _   => .exactly 2
  | conditional | infixCall                               => .exactly 3
  | lambda | tau | comma | simultaneous                   => .atLeast 2
  | function                                              => .atLeast 3

end Form

namespace Tag

def keyword : Tag → String
  | leaf l => l.keyword
  | form f => f.keyword

def label : Tag → String
  | leaf l => l.label
  | form f => f.label

def arity : Tag → Arity
  | leaf _ => .exactly 0
  | form f => f.arity

end Tag

inductive Tree
  | node (tag : Tag) (children : List Tree)

namespace Tree

abbrev leaf (leaf : Leaf) : Tree :=
  node (.leaf leaf) []

abbrev form (form : Form) (children : List Tree) : Tree :=
  node (.form form) children

abbrev name (x : String) : Tree :=
  leaf (.identifier x)

def tag : Tree → Tag
  | node tag _ => tag

def children : Tree → List Tree
  | node _ children => children

-- The name at the root, whatever hangs below it.
def name? : Tree → Option String
  | node (.leaf (.identifier x)) _ => some x
  | _                              => none

def hasLegalArity (t : Tree) : Bool :=
  t.tag.arity.accepts t.children.length

mutual

-- What a node has if its children have it, all trees have.
theorem induction {p : Tree → Prop} (h : ∀ tag ts, (∀ t ∈ ts, p t) → p (node tag ts)) :
    ∀ t, p t
  | node tag ts => h tag ts (forestInduction h ts)

theorem forestInduction {p : Tree → Prop} (h : ∀ tag ts, (∀ t ∈ ts, p t) → p (node tag ts)) :
    ∀ ts : List Tree, ∀ t ∈ ts, p t
  | []      => List.forall_mem_nil p
  | t :: ts => List.forall_mem_cons.mpr ⟨induction h t, forestInduction h ts⟩

end

mutual

-- The number of levels; a leaf has one.
def height : Tree → Nat
  | node _ children => 1 + maxHeight children

def maxHeight : List Tree → Nat
  | []      => 0
  | t :: ts => max t.height (maxHeight ts)

end

mutual

def decEq : (t u : Tree) → Decidable (t = u)
  | node a ts, node b us =>
    if h : a = b then
      match decEqForest ts us with
      | isTrue e  => isTrue (h ▸ e ▸ rfl)
      | isFalse n => isFalse fun e => n (node.inj e).2
    else
      isFalse fun e => h (node.inj e).1

def decEqForest : (ts us : List Tree) → Decidable (ts = us)
  | [], []          => isTrue rfl
  | [], _ :: _      => isFalse nofun
  | _ :: _, []      => isFalse nofun
  | t :: ts, u :: us =>
    match decEq t u, decEqForest ts us with
    | isTrue e, isTrue es => isTrue (e ▸ es ▸ rfl)
    | isFalse n, _        => isFalse fun e => n (List.cons.inj e).1
    | _, isFalse n        => isFalse fun e => n (List.cons.inj e).2

end

instance : DecidableEq Tree :=
  decEq

end Tree

end RpalMachine
