import RpalMachine.Source.Token
import RpalMachine.Tree.Basic

namespace RpalMachine

-- The kinds of phrases, in the order of the grammar. A name is an <ID>.
inductive Category
  | expression
  | clause
  | tuple
  | augmentation
  | conditional
  | disjunction
  | conjunction
  | negation
  | comparison
  | sum
  | product
  | power
  | infixCall
  | application
  | operand
  | definition
  | simultaneous
  | recursion
  | binding
  | parameter
  | names
  | name
deriving DecidableEq, Repr

namespace Category

-- The phrase that can stand alone in the place of another one, with the same tree.
def alone? : Category → Option Category
  | expression   => some clause
  | clause       => some tuple
  | tuple        => some augmentation
  | augmentation => some conditional
  | conditional  => some disjunction
  | disjunction  => some conjunction
  | conjunction  => some negation
  | negation     => some comparison
  | comparison   => some sum
  | sum          => some product
  | product      => some power
  | power        => some infixCall
  | infixCall    => some application
  | application  => some operand
  | operand      => some name
  | definition   => some simultaneous
  | simultaneous => some recursion
  | recursion    => some binding
  | parameter    => some name
  | names        => some name
  | binding      => none
  | name         => none

-- Operators that group to the left.
def operators : Category → List (Lexeme × BinaryOperator)
  | augmentation => [(.keyword "aug", .aug)]
  | disjunction  => [(.keyword "or", .or)]
  | conjunction  => [(.operator "&", .and)]
  | sum          => [(.operator "+", .add), (.operator "-", .sub)]
  | product      => [(.operator "*", .mul), (.operator "/", .div)]
  | _            => []

-- A phrase of which several can follow each other, the mark between them and what they form.
def series? : Category → Option (Category × Lexeme × Form)
  | tuple        => some (augmentation, .punctuation ",", .tau)
  | simultaneous => some (recursion, .keyword "and", .simultaneous)
  | names        => some (name, .punctuation ",", .comma)
  | _            => none

end Category

def comparisons : List (Lexeme × BinaryOperator) :=
  [(.keyword "gr", .gt), (.operator ">", .gt), (.keyword "ge", .ge), (.operator ">=", .ge),
    (.keyword "ls", .lt), (.operator "<", .lt), (.keyword "le", .le), (.operator "<=", .le),
    (.keyword "eq", .eq), (.keyword "ne", .ne)]

-- Several phrases, each with its tree.
abbrev Pieces :=
  List (List Lexeme × Tree)

namespace Pieces

variable (pieces : Pieces)

def trees : List Tree :=
  pieces.map (·.2)

def lexemes : List Lexeme :=
  pieces.flatMap (·.1)

-- With the mark in front of each.
def markedBy (mark : Lexeme) : List Lexeme :=
  pieces.flatMap (mark :: ·.1)

end Pieces

-- The lexemes are a phrase of the category, and the tree is that of the phrase.
inductive Derives : Category → List Lexeme → Tree → Prop
  | alone {c d : Category} {ls : List Lexeme} {t : Tree} :
    c.alone? = some d → Derives d ls t → Derives c ls t
  | chain {c d : Category} {ls ms : List Lexeme} {t u : Tree} {mark : Lexeme}
    {op : BinaryOperator} :
    (mark, op) ∈ c.operators → c.alone? = some d → Derives c ls t → Derives d ms u →
      Derives c (ls ++ mark :: ms) (.form (.binary op) [t, u])
  | series {c d : Category} {ls : List Lexeme} {t : Tree} {pieces : Pieces} {mark : Lexeme}
    {f : Form} :
    c.series? = some (d, mark, f) → pieces ≠ [] → Derives d ls t →
      (∀ p ∈ pieces, Derives d p.1 p.2) →
        Derives c (ls ++ pieces.markedBy mark) (.form f (t :: pieces.trees))
  | letIn {ds ls : List Lexeme} {d t : Tree} :
    Derives .definition ds d → Derives .expression ls t →
      Derives .expression (.keyword "let" :: (ds ++ .keyword "in" :: ls)) (.form .letIn [d, t])
  | lambda {pieces : Pieces} {ls : List Lexeme} {t : Tree} :
    pieces ≠ [] → (∀ p ∈ pieces, Derives .parameter p.1 p.2) → Derives .expression ls t →
      Derives .expression (.keyword "fn" :: (pieces.lexemes ++ .operator "." :: ls))
        (.form .lambda (pieces.trees ++ [t]))
  | whereIn {ls ds : List Lexeme} {t d : Tree} :
    Derives .tuple ls t → Derives .recursion ds d →
      Derives .clause (ls ++ .keyword "where" :: ds) (.form .whereIn [t, d])
  | conditional {ls ms ns : List Lexeme} {t u v : Tree} :
    Derives .disjunction ls t → Derives .conditional ms u → Derives .conditional ns v →
      Derives .conditional (ls ++ .operator "->" :: (ms ++ .operator "|" :: ns))
        (.form .conditional [t, u, v])
  | negation {ls : List Lexeme} {t : Tree} :
    Derives .comparison ls t →
      Derives .negation (.keyword "not" :: ls) (.form (.unary .not) [t])
  | comparison {ls ms : List Lexeme} {t u : Tree} {mark : Lexeme} {op : BinaryOperator} :
    (mark, op) ∈ comparisons → Derives .sum ls t → Derives .sum ms u →
      Derives .comparison (ls ++ mark :: ms) (.form (.binary op) [t, u])
  | plus {ls : List Lexeme} {t : Tree} :
    Derives .product ls t → Derives .sum (.operator "+" :: ls) t
  | minus {ls : List Lexeme} {t : Tree} :
    Derives .product ls t → Derives .sum (.operator "-" :: ls) (.form (.unary .neg) [t])
  | power {ls ms : List Lexeme} {t u : Tree} :
    Derives .infixCall ls t → Derives .power ms u →
      Derives .power (ls ++ .operator "**" :: ms) (.form (.binary .pow) [t, u])
  | infixCall {ls ms : List Lexeme} {t u : Tree} (x : String) :
    Derives .infixCall ls t → Derives .application ms u →
      Derives .infixCall (ls ++ .operator "@" :: .identifier x :: ms)
        (.form .infixCall [t, .name x, u])
  | application {ls ms : List Lexeme} {t u : Tree} :
    Derives .application ls t → Derives .operand ms u →
      Derives .application (ls ++ ms) (.form .gamma [t, u])
  | integer {digits : String} {n : Int64} :
    n.toInt = Nat.ofDigitChars 10 digits.toList 0 →
      Derives .operand [.integer digits] (.leaf (.integer n))
  | string (s : String) : Derives .operand [.string s] (.leaf (.string s))
  | truth (b : Bool) :
    Derives .operand [.keyword (if b then "true" else "false")] (.leaf (.truth b))
  | nil : Derives .operand [.keyword "nil"] (.leaf .nil)
  | dummy : Derives .operand [.keyword "dummy"] (.leaf .dummy)
  | parenthesized {ls : List Lexeme} {t : Tree} :
    Derives .expression ls t →
      Derives .operand (.punctuation "(" :: (ls ++ [.punctuation ")"])) t
  | within {ds es : List Lexeme} {d e : Tree} :
    Derives .simultaneous ds d → Derives .definition es e →
      Derives .definition (ds ++ .keyword "within" :: es) (.form .within [d, e])
  | recursive {ds : List Lexeme} {d : Tree} :
    Derives .binding ds d → Derives .recursion (.keyword "rec" :: ds) (.form .recursive [d])
  | equal {ns ls : List Lexeme} {names t : Tree} :
    Derives .names ns names → Derives .expression ls t →
      Derives .binding (ns ++ .operator "=" :: ls) (.form .equal [names, t])
  | function {pieces : Pieces} {ls : List Lexeme} {t : Tree} (x : String) :
    pieces ≠ [] → (∀ p ∈ pieces, Derives .parameter p.1 p.2) → Derives .expression ls t →
      Derives .binding (.identifier x :: (pieces.lexemes ++ .operator "=" :: ls))
        (.form .function (.name x :: pieces.trees ++ [t]))
  | parenthesizedDefinition {ds : List Lexeme} {d : Tree} :
    Derives .definition ds d →
      Derives .binding (.punctuation "(" :: (ds ++ [.punctuation ")"])) d
  | noParameters :
    Derives .parameter [.punctuation "(", .punctuation ")"] (.leaf .unit)
  | parenthesizedNames {ns : List Lexeme} {names : Tree} :
    Derives .names ns names →
      Derives .parameter (.punctuation "(" :: (ns ++ [.punctuation ")"])) names
  | name (x : String) : Derives .name [.identifier x] (.name x)

end RpalMachine
