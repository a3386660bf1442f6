import RpalMachine.Proofs.Admission

namespace RpalMachine

namespace Symbol

mutual

-- The numbers of the lambdas in a symbol, at any depth.
def lambdaIds : Symbol → List Nat
  | lambda ⟨id, _, ⟨_, code⟩, _⟩ | eta ⟨id, _, ⟨_, code⟩, _⟩ => id :: allLambdaIds code
  | delta ⟨_, code⟩ | test code                              => allLambdaIds code
  | tuple xs | partialCall _ xs                              => allLambdaIds xs
  | _                                                        => []

def allLambdaIds : List Symbol → List Nat
  | []      => []
  | x :: xs => x.lambdaIds ++ allLambdaIds xs

end

mutual

-- The blocks in a symbol, at any depth.
def blocks : Symbol → List (Block Symbol)
  | lambda ⟨_, _, ⟨label, code⟩, _⟩ | eta ⟨_, _, ⟨label, code⟩, _⟩ | delta ⟨label, code⟩ =>
    ⟨label, code⟩ :: allBlocks code
  | test code                   => allBlocks code
  | tuple xs | partialCall _ xs => allBlocks xs
  | _                           => []

def allBlocks : List Symbol → List (Block Symbol)
  | []      => []
  | x :: xs => x.blocks ++ allBlocks xs

end

@[simp]
theorem allLambdaIds_append (xs ys : List Symbol) :
    allLambdaIds (xs ++ ys) = allLambdaIds xs ++ allLambdaIds ys := by
  induction xs
  case nil          => rfl
  case cons x xs hi => simp [allLambdaIds, hi]

@[simp]
theorem allBlocks_append (xs ys : List Symbol) :
    allBlocks (xs ++ ys) = allBlocks xs ++ allBlocks ys := by
  induction xs
  case nil          => rfl
  case cons x xs hi => simp [allBlocks, hi]

end Symbol

namespace Block

def lambdaIds (b : Block Symbol) : List Nat :=
  Symbol.allLambdaIds b.code

-- The blocks inside of a block, at any depth.
def inner (b : Block Symbol) : List (Block Symbol) :=
  Symbol.allBlocks b.code

def labels (b : Block Symbol) : List Nat :=
  b.label :: b.inner.map (·.label)

-- Every number of the one block is smaller than those of the other.
structure Precedes (a b : Block Symbol) : Prop where
  lambdaIds : ∀ i ∈ a.lambdaIds, ∀ j ∈ b.lambdaIds, i < j
  labels    : ∀ l ∈ a.labels, ∀ m ∈ b.labels, l < m

-- Whatever is inside of the block, or of a block inside of it, has a smaller label.
def Ordered (b : Block Symbol) : Prop :=
  ∀ c ∈ b :: b.inner, ∀ d ∈ c.inner, d.label < c.label

end Block

namespace Numbering

-- After so many lambdas and blocks have been numbered.
def advance (k : Numbering) (lambdas blocks : Nat) : Numbering :=
  ⟨k.nextLambda + lambdas, k.nextBlock + blocks⟩

instance : LE Numbering where
  le k k' := k.nextLambda ≤ k'.nextLambda ∧ k.nextBlock ≤ k'.nextBlock

theorem le_refl (k : Numbering) : k ≤ k :=
  ⟨Nat.le_refl _, Nat.le_refl _⟩

theorem le_trans {k k' k'' : Numbering} (h : k ≤ k') (h' : k' ≤ k'') : k ≤ k'' :=
  ⟨Nat.le_trans h.1 h'.1, Nat.le_trans h.2 h'.2⟩

theorem le_advance (k : Numbering) (m n : Nat) : k ≤ k.advance m n :=
  ⟨Nat.le_add_right .., Nat.le_add_right ..⟩

@[simp]
theorem nextLambda_advance (k : Numbering) (m n : Nat) :
    (k.advance m n).nextLambda = k.nextLambda + m :=
  rfl

@[simp]
theorem nextBlock_advance (k : Numbering) (m n : Nat) :
    (k.advance m n).nextBlock = k.nextBlock + n :=
  rfl

@[simp]
theorem advance_advance (k : Numbering) (m n m' n' : Nat) :
    (k.advance m n).advance m' n' = k.advance (m + m') (n + n') := by
  simp [advance, Nat.add_assoc]

end Numbering

-- The code has the next so many numbers of lambdas and of blocks, each once and those of blocks in
-- order.
structure Numbers (k : Numbering) (lambdas blocks : Nat) (code : List Symbol) : Prop where
  ids     : (Symbol.allLambdaIds code).Perm (List.range' k.nextLambda lambdas)
  labels  : ((Symbol.allBlocks code).map (·.label)).Perm (List.range' k.nextBlock blocks)
  ordered : ∀ b ∈ Symbol.allBlocks code, ∀ c ∈ b.inner, c.label < b.label

namespace Numbers

variable {k : Numbering} {m n m' n' : Nat} {code code' : List Symbol}

theorem nil : Numbers k 0 0 [] :=
  ⟨.refl _, .refl _, nofun⟩

-- A symbol without lambdas and blocks does not matter.
theorem cons {x : Symbol} (h : Numbers k m n code) (hi : x.lambdaIds = []) (hb : x.blocks = []) :
    Numbers k m n (x :: code) where
  ids     := by simpa [Symbol.allLambdaIds, hi] using h.ids
  labels  := by simpa [Symbol.allBlocks, hb] using h.labels
  ordered := by simpa [Symbol.allBlocks, hb] using h.ordered

-- What is numbered later runs earlier.
theorem append (h : Numbers k m n code) (h' : Numbers (k.advance m n) m' n' code') :
    Numbers k (m + m') (n + n') (code' ++ code) where
  ids := by
    rw [Symbol.allLambdaIds_append, ← List.range'_append_1]
    exact (h'.ids.append h.ids).trans List.perm_append_comm
  labels := by
    rw [Symbol.allBlocks_append, List.map_append, ← List.range'_append_1]
    exact (h'.labels.append h.labels).trans List.perm_append_comm
  ordered b hb := by
    rw [Symbol.allBlocks_append, List.mem_append] at hb
    exact hb.elim (h'.ordered b) (h.ordered b)

theorem concat {x : Symbol} (h : Numbers k m n code) (hi : x.lambdaIds = []) (hb : x.blocks = []) :
    Numbers k m n (code ++ [x]) := by
  have h := (nil.cons hi hb).append h
  rwa [Nat.zero_add, Nat.zero_add] at h

-- The code of a test is spliced into the code that it stands in.
theorem test (h : Numbers k m n (code ++ code')) : Numbers k m n (.test code :: code') where
  ids     := by simpa [Symbol.allLambdaIds, Symbol.lambdaIds] using h.ids
  labels  := by simpa [Symbol.allBlocks, Symbol.blocks] using h.labels
  ordered := by simpa [Symbol.allBlocks, Symbol.blocks] using h.ordered

-- A block has a larger label than what is inside of it, which has been numbered before.
theorem delta {label : Nat} (h : Numbers k m n code) (hl : label = k.nextBlock + n) :
    Numbers k m (n + 1) [.delta ⟨label, code⟩] where
  ids := by simpa [Symbol.allLambdaIds, Symbol.lambdaIds] using h.ids
  labels := by
    rw [List.range'_1_concat, ← hl]
    simpa [Symbol.allBlocks, Symbol.blocks] using
      (h.labels.cons label).trans (List.perm_append_singleton _ _).symm
  ordered b hb := by
    simp only [Symbol.allBlocks, Symbol.blocks, List.append_nil, List.mem_cons] at hb
    cases hb
    case inl hb =>
      subst hb
      intro c hc
      have hc := h.labels.mem_iff.mp (List.mem_map_of_mem (f := (·.label)) hc)
      exact hl ▸ (List.mem_range'_1.mp hc).2
    case inr hb => exact h.ordered b hb

-- The number of a lambda is given out before those of its body.
theorem lambda (params : List String) (env : Option Nat)
    (h : Numbers (k.advance 1 0) m n code) :
    Numbers k (m + 1) (n + 1)
      [.lambda ⟨k.nextLambda, params, ⟨k.nextBlock + n, code⟩, env⟩] where
  ids := by
    rw [List.range'_succ]
    simpa [Symbol.allLambdaIds, Symbol.lambdaIds] using h.ids
  labels  := by simpa [Symbol.allBlocks, Symbol.blocks] using (h.delta rfl).labels
  ordered := by simpa [Symbol.allBlocks, Symbol.blocks] using (h.delta rfl).ordered

end Numbers

namespace Block

-- The block and what is inside of it have the next so many numbers, each once.
structure Uses (k : Numbering) (lambdas blocks : Nat) (b : Block Symbol) : Prop where
  lambdaIds : b.lambdaIds.Perm (List.range' k.nextLambda lambdas)
  labels    : b.labels.Perm (List.range' k.nextBlock blocks)
  ordered   : b.Ordered

theorem Uses.precedes {a b : Block Symbol} {k k' : Numbering} {m n m' n' : Nat}
    (ha : a.Uses k m n) (hk : k.advance m n ≤ k') (hb : b.Uses k' m' n') : a.Precedes b where
  lambdaIds i hi j hj := by
    have hi := List.mem_range'_1.mp (ha.lambdaIds.mem_iff.mp hi)
    have hj := List.mem_range'_1.mp (hb.lambdaIds.mem_iff.mp hj)
    exact Nat.lt_of_lt_of_le hi.2 (Nat.le_trans hk.1 hj.1)
  labels l hl m hm := by
    have hl := List.mem_range'_1.mp (ha.labels.mem_iff.mp hl)
    have hm := List.mem_range'_1.mp (hb.labels.mem_iff.mp hm)
    exact Nat.lt_of_lt_of_le hl.2 (Nat.le_trans hk.2 hm.1)

end Block

theorem Numbers.uses {k : Numbering} {m n : Nat} {b : Block Symbol}
    (h : Numbers k m n [.delta b]) : b.Uses k m n := by
  have hb : Symbol.allBlocks [.delta b] = b :: b.inner := by
    simp [Symbol.allBlocks, Symbol.blocks, Block.inner]
  have hl : Symbol.allLambdaIds [.delta b] = b.lambdaIds := by
    simp [Symbol.allLambdaIds, Symbol.lambdaIds, Block.lambdaIds]
  exact ⟨hl ▸ h.ids, by simpa [hb, Block.labels] using h.labels,
    fun c hc => h.ordered c (hb ▸ hc)⟩

namespace Numbered

theorem lambdaId_eq_ok {k k' : Numbering} {id : Nat} :
    Numbered.lambdaId k = .ok id k' ↔ id = k.nextLambda ∧ k' = k.advance 1 0 := by
  constructor
  case mp  => intro h; cases h; exact ⟨rfl, rfl⟩
  case mpr => rintro ⟨rfl, rfl⟩; rfl

theorem finish_eq_ok {k k' : Numbering} {code : List Symbol} {b : Block Symbol} :
    Numbered.finish code k = .ok b k' ↔ b = ⟨k.nextBlock, code⟩ ∧ k' = k.advance 0 1 := by
  constructor
  case mp  => intro h; cases h; exact ⟨rfl, rfl⟩
  case mpr => rintro ⟨rfl, rfl⟩; rfl

end Numbered

theorem Leaf.unnumbered {l : Leaf} {x : Symbol} (h : l.symbol? = some x) :
    x.lambdaIds = [] ∧ x.blocks = [] := by
  cases l <;> cases h <;> exact ⟨rfl, rfl⟩

theorem Form.unnumbered {f : Form} {count : Nat} {x : Symbol} (h : f.operation? count = some x) :
    x.lambdaIds = [] ∧ x.blocks = [] ∧ f ≠ .lambda ∧ f ≠ .conditional := by
  cases f <;> cases h <;> exact ⟨rfl, rfl, nofun, nofun⟩

namespace Tree

mutual

-- How many nodes of a form there are, leaving out what hangs below the parameters of lambdas.
def evaluated (f : Form) : Tree → Nat
  | node (.form .lambda) (_ :: ts) => forestEvaluated f ts + if f = .lambda then 1 else 0
  | node tag ts                    => forestEvaluated f ts + if tag = .form f then 1 else 0

def forestEvaluated (f : Form) : List Tree → Nat
  | []      => 0
  | t :: ts => t.evaluated f + forestEvaluated f ts

end

-- The blocks that are made of a tree: one for each lambda and two for each conditional.
def blockCount (t : Tree) : Nat :=
  t.evaluated .lambda + 2 * t.evaluated .conditional

def forestBlockCount (ts : List Tree) : Nat :=
  forestEvaluated .lambda ts + 2 * forestEvaluated .conditional ts

theorem evaluated_form {f g : Form} {ts : List Tree} (hl : f ≠ .lambda) (hg : f ≠ g) :
    (form f ts).evaluated g = forestEvaluated g ts := by
  rw [evaluated.eq_2 _ _ _ fun _ _ h _ => hl (Tag.form.inj h), if_neg fun h => hg (Tag.form.inj h),
    Nat.add_zero]

theorem forestBlockCount_cons (t : Tree) (ts : List Tree) :
    forestBlockCount (t :: ts) = t.blockCount + forestBlockCount ts := by
  simp only [forestBlockCount, blockCount, forestEvaluated]
  omega

section
variable (param body condition yes no : Tree)

theorem evaluated_lambda :
    (lambda param body).evaluated .lambda = body.evaluated .lambda + 1 := by
  simp [evaluated, forestEvaluated]

theorem blockCount_lambda : (lambda param body).blockCount = body.blockCount + 1 := by
  simp [blockCount, evaluated, forestEvaluated]
  omega

-- The parts of a conditional are numbered in another order than they stand in.
theorem evaluated_conditional : (form .conditional [condition, yes, no]).evaluated .lambda =
    yes.evaluated .lambda + no.evaluated .lambda + condition.evaluated .lambda := by
  simp [evaluated, forestEvaluated]
  omega

theorem blockCount_conditional : (form .conditional [condition, yes, no]).blockCount =
    yes.blockCount + 1 + (no.blockCount + 1) + condition.blockCount := by
  simp [blockCount, evaluated, forestEvaluated]
  omega

end

-- The code of the tree has the next numbers, as many as it has lambdas and blocks.
def CodeNumbered (t : Tree) : Prop :=
  ∀ {code k k'}, t.code k = .ok code k' →
    Numbers k (t.evaluated .lambda) t.blockCount code ∧
      k' = k.advance (t.evaluated .lambda) t.blockCount

section

variable {t : Tree} {ts : List Tree} {code : List Symbol} {k k' : Numbering}

theorem forestCode_numbers (hi : ∀ t ∈ ts, CodeNumbered t) (h : forestCode ts k = .ok code k') :
    Numbers k (forestEvaluated .lambda ts) (forestBlockCount ts) code ∧
      k' = k.advance (forestEvaluated .lambda ts) (forestBlockCount ts) := by
  induction ts generalizing code k
  case nil =>
    cases h
    exact ⟨.nil, rfl⟩
  case cons t ts hts =>
    rw [List.forall_mem_cons] at hi
    obtain ⟨first, k₁, ht, h⟩ := Numbered.bind_eq_ok.mp h
    obtain ⟨rest, k₂, hr, h⟩ := Numbered.bind_eq_ok.mp h
    cases h
    obtain ⟨h₁, rfl⟩ := hi.1 ht
    obtain ⟨h₂, rfl⟩ := hts hi.2 hr
    rw [forestBlockCount_cons, forestEvaluated]
    exact ⟨h₁.append h₂, Numbering.advance_advance ..⟩

theorem code_numbers_node {tag : Tag} (hi : ∀ t ∈ ts, CodeNumbered t) :
    CodeNumbered (node tag ts) := by
  intro code k k' h
  unfold Tree.code at h
  rw [Numbered.bind_eq_ok] at h
  obtain ⟨⟨⟩, k₁, ha, h⟩ := h
  rw [Numbered.lift_eq_ok, checkArity_eq_ok_iff] at ha
  obtain ⟨ha, rfl⟩ := ha
  split at h
  case h_1 l =>
    have hts : ts = [] := by simpa [Tag.arity, Arity.accepts] using ha
    subst hts
    cases hl : l.symbol? <;> simp only [hl] at h <;> cases h
    obtain ⟨hi, hb⟩ := Leaf.unnumbered hl
    exact ⟨Numbers.nil.cons hi hb, rfl⟩
  case h_2 param body =>
    obtain ⟨params, k₂, hp, h⟩ := Numbered.bind_eq_ok.mp h
    obtain ⟨-, rfl⟩ := Numbered.lift_eq_ok.mp hp
    obtain ⟨id, k₃, hid, h⟩ := Numbered.bind_eq_ok.mp h
    obtain ⟨rfl, rfl⟩ := Numbered.lambdaId_eq_ok.mp hid
    obtain ⟨c, k₄, hb, h⟩ := Numbered.bind_eq_ok.mp h
    obtain ⟨b, k₅, hf, h⟩ := Numbered.bind_eq_ok.mp h
    obtain ⟨rfl, rfl⟩ := Numbered.finish_eq_ok.mp hf
    cases h
    obtain ⟨hc, rfl⟩ := hi body (by simp) hb
    rw [evaluated_lambda, blockCount_lambda]
    exact ⟨hc.lambda params none, by simp [Nat.add_comm]⟩
  case h_3 condition yes no =>
    obtain ⟨c, k₂, hy, h⟩ := Numbered.bind_eq_ok.mp h
    obtain ⟨b, k₃, hb, h⟩ := Numbered.bind_eq_ok.mp h
    obtain ⟨rfl, rfl⟩ := Numbered.finish_eq_ok.mp hb
    obtain ⟨d, k₄, hn, h⟩ := Numbered.bind_eq_ok.mp h
    obtain ⟨b', k₅, hb, h⟩ := Numbered.bind_eq_ok.mp h
    obtain ⟨rfl, rfl⟩ := Numbered.finish_eq_ok.mp hb
    obtain ⟨e, k₆, ht, h⟩ := Numbered.bind_eq_ok.mp h
    cases h
    obtain ⟨h₁, rfl⟩ := hi yes (by simp) hy
    obtain ⟨h₂, rfl⟩ := hi no (by simp) hn
    obtain ⟨h₃, rfl⟩ := hi condition (by simp) ht
    simp only [Numbering.advance_advance, Nat.add_zero] at h₂ h₃ ⊢
    rw [evaluated_conditional, blockCount_conditional]
    have hl : k.nextBlock + (yes.blockCount + 1 + no.blockCount) =
        k.nextBlock + (yes.blockCount + 1) + no.blockCount := (Nat.add_assoc ..).symm
    exact ⟨((((h₁.delta rfl).append (h₂.delta hl)).cons rfl rfl).append h₃).test, rfl⟩
  case h_4 f _ _ =>
    cases ho : f.operation? ts.length <;> simp only [ho] at h
    case none => cases h
    case some x =>
      obtain ⟨c, k₂, hc, h⟩ := Numbered.bind_eq_ok.mp h
      cases h
      obtain ⟨hx, hb, hl, hf⟩ := Form.unnumbered ho
      have hc := forestCode_numbers hi hc
      rw [blockCount, evaluated_form hl hl, evaluated_form hl hf]
      exact ⟨hc.1.concat hx hb, hc.2⟩

end

theorem code_numbers (t : Tree) : CodeNumbered t :=
  t.induction fun _ _ => code_numbers_node

theorem block_numbers {t : Tree} {b : Block Symbol} {k k' : Numbering} (h : t.block k = .ok b k') :
    b.Uses k (t.evaluated .lambda) (t.blockCount + 1) ∧ b.label = k.nextBlock + t.blockCount ∧
      k' = k.advance (t.evaluated .lambda) (t.blockCount + 1) := by
  obtain ⟨code, k₁, hc, hb⟩ := Numbered.bind_eq_ok.mp h
  obtain ⟨hn, rfl⟩ := code_numbers t hc
  obtain ⟨rfl, rfl⟩ := Numbered.finish_eq_ok.mp hb
  exact ⟨(hn.delta rfl).uses, rfl, Numbering.advance_advance ..⟩

end Tree

end RpalMachine
