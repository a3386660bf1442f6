import RpalMachine.Proofs.Unambiguity
import RpalMachine.Tree.Outline

namespace RpalMachine

namespace Leaf

-- How a label begins tells what kind of leaf it is of.
def opening : Leaf → List Char
  | identifier _ => ['<', 'I', 'D']
  | integer _    => ['<', 'I', 'N']
  | string _     => ['<', 'S', 'T']
  | truth true   => ['<', 't', 'r']
  | truth false  => ['<', 'f', 'a']
  | nil          => ['<', 'n', 'i']
  | dummy        => ['<', 'd', 'u']
  | yStar        => ['<', 'Y', '*']
  | unit         => ['(', ')']

theorem take_label (l : Leaf) : l.label.toList.take 3 = l.opening := by
  cases l
  case truth b => cases b <;> rfl
  all_goals simp [label, opening]

theorem label_inj {l m : Leaf} (h : l.label = m.label) : l = m := by
  have ho : l.opening = m.opening := by rw [← take_label, ← take_label, h]
  rcases l with x | a | s | (_ | _) | _ | _ | _ | _ <;>
    rcases m with y | b | t | (_ | _) | _ | _ | _ | _ <;> first | rfl | cases ho
  case identifier.identifier => simpa [label] using h
  case string.string         => simpa [label] using h
  case integer.integer =>
    simp only [label, String.append_left_inj, String.append_right_inj] at h
    exact congrArg integer (Symbol.integer_eq_of_text h)

end Leaf

theorem Form.ofKeyword?_label (f : Form) : ofKeyword? f.label = some f := by
  cases f
  case function  => rfl
  case unary op  => exact ofKeyword?_keyword (unary op)
  case binary op => exact ofKeyword?_keyword (binary op)
  all_goals rfl

theorem Form.label_inj {f g : Form} (h : f.label = g.label) : f = g :=
  Option.some.inj (by rw [← ofKeyword?_label, h, ofKeyword?_label])

namespace Tag

def isBracket (c : Char) : Bool :=
  c == '<' || c == '('

theorem head_label_leaf (l : Leaf) : l.label.toList.head?.any isBracket := by
  cases l
  case truth b => cases b <;> rfl
  case unit    => rfl
  all_goals simp [Leaf.label, isBracket]

theorem head_label_form (f : Form) :
    f.label.toList.head?.all fun c => !isBracket c && c != '.' := by
  cases f
  case unary op  => cases op <;> rfl
  case binary op => cases op <;> rfl
  all_goals rfl

theorem head_label_ne_dot (tag : Tag) : ∀ c ∈ tag.label.toList.head?, c ≠ '.' := by
  rintro c hc rfl
  cases tag
  case leaf l =>
    have h := head_label_leaf l
    rw [show l.label.toList.head? = some '.' from hc] at h
    contradiction
  case form f =>
    have h := head_label_form f
    rw [show f.label.toList.head? = some '.' from hc] at h
    contradiction

theorem label_leaf_ne_form (l : Leaf) (f : Form) : l.label ≠ f.label := by
  intro he
  have hl := head_label_leaf l
  have hf := head_label_form f
  rw [he] at hl
  cases hc : f.label.toList.head? <;> simp [hc] at hl hf
  simp [hl] at hf

theorem label_inj {a b : Tag} (h : a.label = b.label) : a = b := by
  cases a <;> cases b
  case leaf.leaf l m => rw [Leaf.label_inj h]
  case leaf.form l f => exact absurd h (label_leaf_ne_form l f)
  case form.leaf f l => exact absurd h.symm (label_leaf_ne_form l f)
  case form.form f g => rw [Form.label_inj h]

end Tag

namespace Tree

-- How many dots a line begins with.
def dots (line : String) : Nat :=
  (line.toList.takeWhile (· == '.')).length

mutual

-- The number of nodes.
def size : Tree → Nat
  | node _ children => 1 + forestSize children

def forestSize : List Tree → Nat
  | []      => 0
  | t :: ts => t.size + forestSize ts

end

-- What comes in an outline after the children at a depth, or after all of it.
def Leaves (depth : Nat) (lines : List String) : Prop :=
  ∀ line ∈ lines.head?, dots line < depth

variable {depth k : Nat} {tag tag' : Tag} {t u : Tree} {ts us : List Tree}
variable {rest rest' : List String}

@[simp]
theorem dots_outlineLine (depth : Nat) (tag : Tag) : dots (outlineLine depth tag) = depth := by
  have hl : ∀ c ∈ tag.label.toList.head?, (c == '.') = false := fun c hc => by
    simpa using tag.head_label_ne_dot c hc
  rw [dots, outlineLine, String.toList_append, String.toList_ofList,
    Scan.takeWhile_append_eq (by simp) hl, List.length_replicate]

theorem outlineLine_inj (h : outlineLine depth tag = outlineLine depth tag') : tag = tag' :=
  Tag.label_inj ((String.append_right_inj _).mp h)

mutual

theorem length_outlineAt (depth : Nat) : (t : Tree) → (t.outlineAt depth).length = t.size
  | node tag ts => by
    rw [outlineAt, List.length_cons, length_forestOutlineAt (depth + 1) ts, size, Nat.add_comm]

theorem length_forestOutlineAt (depth : Nat) :
    (ts : List Tree) → (forestOutlineAt depth ts).length = forestSize ts
  | []      => rfl
  | t :: ts => by
    rw [forestOutlineAt, List.length_append, length_outlineAt depth t,
      length_forestOutlineAt depth ts, forestSize]

end

mutual

theorem forall_dots_outlineAt (k depth : Nat) :
    (t : Tree) → ((∀ line ∈ t.outlineAt depth, dots line < k) ↔ depth + t.height ≤ k)
  | node tag ts => by
    rw [outlineAt, List.forall_mem_cons, dots_outlineLine, height, ← Nat.add_assoc]
    constructor
    case mp => exact fun ⟨hd, h⟩ => (forall_dots_forestOutlineAt k (depth + 1) ts hd).mp h
    case mpr =>
      intro h
      have hd : depth + 1 ≤ k := by omega
      exact ⟨hd, (forall_dots_forestOutlineAt k (depth + 1) ts hd).mpr h⟩

theorem forall_dots_forestOutlineAt (k depth : Nat) : (ts : List Tree) → depth ≤ k →
    ((∀ line ∈ forestOutlineAt depth ts, dots line < k) ↔ depth + maxHeight ts ≤ k)
  | [], hd      => by simpa [forestOutlineAt, maxHeight] using hd
  | t :: ts, hd => by
    rw [forestOutlineAt, List.forall_mem_append, forall_dots_outlineAt k depth t,
      forall_dots_forestOutlineAt k depth ts hd, maxHeight]
    omega

end

-- Where an outline goes on after the children of a node, it is with fewer dots.
theorem Leaves.not_forestOutlineAt (h : Leaves depth rest)
    (he : rest = forestOutlineAt depth (t :: ts) ++ rest') : False := by
  have ⟨tag, children⟩ := t
  subst he
  exact absurd (h _ rfl) (by simp)

theorem Leaves.forestOutlineAt (h : Leaves depth rest) (ts : List Tree) :
    Leaves (depth + 1) (forestOutlineAt depth ts ++ rest) := by
  cases ts
  case nil => exact fun line hl => Nat.lt_succ_of_lt (h line hl)
  case cons t ts =>
    have ⟨tag, children⟩ := t
    rintro line ⟨⟩
    simp

mutual

-- The tree can be told from an outline that begins with it, and what comes after it too.
theorem outlineAt_append_inj {rest rest' : List String} (depth : Nat)
    (hr : Leaves (depth + 1) rest) (hs : Leaves (depth + 1) rest') : (t u : Tree) →
      t.outlineAt depth ++ rest = u.outlineAt depth ++ rest' → t = u ∧ rest = rest'
  | node tag ts, node tag' us, h => by
    rw [outlineAt, outlineAt, List.cons_append, List.cons_append, List.cons.injEq] at h
    have ⟨hts, he⟩ := forestOutlineAt_append_inj (depth + 1) hr hs ts us h.2
    rw [outlineLine_inj h.1, hts]
    exact ⟨rfl, he⟩

theorem forestOutlineAt_append_inj {rest rest' : List String} (depth : Nat)
    (hr : Leaves depth rest) (hs : Leaves depth rest') : (ts us : List Tree) →
      forestOutlineAt depth ts ++ rest = forestOutlineAt depth us ++ rest' → ts = us ∧ rest = rest'
  | [], [], h           => ⟨rfl, h⟩
  | [], _ :: _, h       => (hr.not_forestOutlineAt h).elim
  | _ :: _, [], h       => (hs.not_forestOutlineAt h.symm).elim
  | t :: ts, u :: us, h => by
    rw [forestOutlineAt, forestOutlineAt, List.append_assoc, List.append_assoc] at h
    have ⟨ht, h⟩ := outlineAt_append_inj depth (hr.forestOutlineAt ts) (hs.forestOutlineAt us) t u h
    have ⟨hts, h⟩ := forestOutlineAt_append_inj depth hr hs ts us h
    exact ⟨by rw [ht, hts], h⟩

end

theorem max?_dots_outline (t : Tree) : (t.outline.map dots).max? = some (t.height - 1) := by
  cases hm : (t.outline.map dots).max?
  case none =>
    have ⟨tag, ts⟩ := t
    simp [outline, outlineAt] at hm
  case some m =>
    have hle (k : Nat) : m ≤ k ↔ t.height ≤ k + 1 := by
      rw [List.max?_le_iff hm, List.forall_mem_map]
      simpa [outline, Nat.lt_succ_iff] using forall_dots_outlineAt (k + 1) 0 t
    have hlow := (hle m).mp (Nat.le_refl m)
    have hhigh := (hle (t.height - 1)).mpr (by omega)
    exact congrArg some (by omega)

-- No two trees have the same outline, whatever tags and children they have. There is a line for
-- each node, and the lines with the most dots are those of the lowest level.
theorem outline_lossless :
    (∀ t u : Tree, t.outline = u.outline ↔ t = u) ∧
    ∀ t : Tree, t.outline.length = t.size ∧
      (t.outline.map dots).max? = some (t.height - 1) := by
  refine ⟨fun t u => ⟨fun h => ?_, congrArg outline⟩,
    fun t => ⟨length_outlineAt 0 t, max?_dots_outline t⟩⟩
  have hn : Leaves 1 [] := nofun
  have h : t.outlineAt 0 ++ [] = u.outlineAt 0 ++ [] := congrArg (· ++ []) h
  exact (outlineAt_append_inj 0 hn hn t u h).1

example : (form .letIn [form .equal [name "x", leaf (.integer 3)],
    form (.binary .add) [name "x", leaf (.string "4")]]).outline =
      ["let", ".=", "..<ID:x>", "..<INT:3>", ".+", "..<ID:x>", "..<STR:'4'>"] :=
  rfl

end Tree

end RpalMachine
