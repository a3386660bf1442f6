namespace RpalMachine.Json

-- A number is kept exact when it is written as an integer of at most 64 bits.
inductive Number
  | integer (value : Int)
  | float (value : Float)

-- The members of an object are kept in the order of their keys, each key once.
inductive Value
  | null
  | bool (value : Bool)
  | number (value : Number)
  | string (text : String)
  | array (elements : List Value)
  | object (members : List (String × Value))

namespace Value

mutual

-- How many arrays and objects are inside of each other.
def nesting : Value → Nat
  | array vs       => 1 + elementsNesting vs
  | object members => 1 + membersNesting members
  | _              => 0

def elementsNesting : List Value → Nat
  | []      => 0
  | v :: vs => max v.nesting (elementsNesting vs)

def membersNesting : List (String × Value) → Nat
  | []                => 0
  | (_, v) :: members => max v.nesting (membersNesting members)

end

-- A value that no part of is a float: numbers are integers of at most 64 bits. The members of an
-- object are in the order of their keys.
inductive Exact : Value → Prop
  | null : Exact null
  | bool (b : Bool) : Exact (bool b)
  | integer {n : Int} : -Nat.pow 2 63 ≤ n → n < UInt64.size → Exact (number (.integer n))
  | string (s : String) : Exact (string s)
  | array {vs : List Value} : (∀ v ∈ vs, Exact v) → Exact (array vs)
  | object {members : List (String × Value)} :
    members.Pairwise (·.1 < ·.1) → (∀ m ∈ members, Exact m.2) → Exact (object members)

-- Whether a document of the value can begin with the character.
def opensWith : Value → Char → Bool
  | null, c     => c == 'n'
  | bool b, c   => c == if b then 't' else 'f'
  | number _, c => c == '-' || c.isDigit
  | string _, c => c == '"'
  | array _, c  => c == '['
  | object _, c => c == '\x7b'

variable {v : Value} {vs : List Value} {members : List (String × Value)} {n : Nat}

theorem elementsNesting_le_iff : elementsNesting vs ≤ n ↔ ∀ v ∈ vs, v.nesting ≤ n := by
  induction vs
  case nil          => simp [elementsNesting]
  case cons v vs hi => rw [elementsNesting, Nat.max_le, hi, List.forall_mem_cons]

theorem membersNesting_le_iff : membersNesting members ≤ n ↔ ∀ m ∈ members, m.2.nesting ≤ n := by
  induction members
  case nil          => simp [membersNesting]
  case cons m ms hi => rw [membersNesting, Nat.max_le, hi, List.forall_mem_cons]

theorem nesting_array_le_iff : (array vs).nesting ≤ n + 1 ↔ ∀ v ∈ vs, v.nesting ≤ n := by
  rw [nesting, Nat.add_comm, Nat.add_le_add_iff_right, elementsNesting_le_iff]

theorem nesting_object_le_iff :
    (object members).nesting ≤ n + 1 ↔ ∀ m ∈ members, m.2.nesting ≤ n := by
  rw [nesting, Nat.add_comm, Nat.add_le_add_iff_right, membersNesting_le_iff]

theorem nesting_singleton {key : String} : (object [(key, v)]).nesting = 1 + v.nesting := by
  simp [nesting, membersNesting]

theorem Exact.singleton {key : String} (h : v.Exact) : (Value.object [(key, v)]).Exact :=
  .object (List.pairwise_singleton ..) (by simpa using h)

end Value

end RpalMachine.Json
