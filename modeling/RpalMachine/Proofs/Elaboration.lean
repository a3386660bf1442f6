import RpalMachine.Proofs.Core
import RpalMachine.Proofs.Rewrites

namespace RpalMachine

namespace Numbered

theorem bind_eq_ok {x : Numbered α} {f : α → Numbered β} {k k' : Numbering} {b : β} :
    (x >>= f) k = .ok b k' ↔ ∃ a k₁, x k = .ok a k₁ ∧ f a k₁ = .ok b k' := by
  simp only [bind, EStateM.bind]
  cases x k
  case ok a k₁ =>
    constructor
    case mp  => exact fun h => ⟨a, k₁, rfl, h⟩
    case mpr => rintro ⟨_, _, ⟨⟩, h⟩; exact h
  case error => simp

@[simp]
theorem lift_eq_ok {result : Except ShapeFault α} {a : α} {k k' : Numbering} :
    Numbered.lift result k = .ok a k' ↔ result = .ok a ∧ k = k' := by
  cases result
  case ok    => simp [Numbered.lift, pure, EStateM.pure]
  case error => exact ⟨nofun, nofun⟩

-- There are always numbers to give out.
def Total (x : Numbered α) : Prop :=
  ∀ k, ∃ a k', x k = .ok a k'

namespace Total

theorem pure (a : α) : (Pure.pure a : Numbered α).Total :=
  fun k => ⟨a, k, rfl⟩

theorem bind {x : Numbered α} {f : α → Numbered β} (hx : x.Total) (hf : ∀ a, (f a).Total) :
    (x >>= f).Total := fun k => by
  obtain ⟨a, k₁, hx⟩ := hx k
  obtain ⟨b, k₂, hf⟩ := hf a k₁
  exact ⟨b, k₂, bind_eq_ok.mpr ⟨a, k₁, hx, hf⟩⟩

theorem lift {result : Except ShapeFault α} {a : α} (h : result = .ok a) :
    (Numbered.lift result).Total :=
  fun k => ⟨a, k, lift_eq_ok.mpr ⟨h, rfl⟩⟩

theorem lambdaId : Numbered.lambdaId.Total :=
  fun _ => ⟨_, _, rfl⟩

theorem blockLabel : Numbered.blockLabel.Total :=
  fun _ => ⟨_, _, rfl⟩

end Total

end Numbered

namespace Tree

-- The core is made from the tree, with whatever numbers.
inductive Elaborates : Tree → Core → Prop
  | leaf {l : Leaf} {c : Core} : l.core? = some c → Elaborates (leaf l) c
  | lambda {n e : Tree} {params : List String} {c : Core} (id label : Nat) :
    n.parameterNames = .ok params → Elaborates e c →
      Elaborates (lambda n e) (.lambda id params label c)
  | apply {f a : Tree} {c d : Core} :
    Elaborates f c → Elaborates a d → Elaborates (apply f a) (.apply c d)
  | tuple {parts : List (Tree × Core)} :
    2 ≤ parts.length → (∀ x ∈ parts, Elaborates x.1 x.2) →
      Elaborates (form .tau (parts.map (·.1))) (.tuple (parts.map (·.2)))
  | unary (op : UnaryOperator) {e : Tree} {c : Core} :
    Elaborates e c → Elaborates (form (.unary op) [e]) (.unary op c)
  | binary (op : BinaryOperator) {l r : Tree} {c d : Core} :
    Elaborates l c → Elaborates r d → Elaborates (form (.binary op) [l, r]) (.binary op c d)
  | conditional {i t e : Tree} {b c d : Core} (yesLabel noLabel : Nat) :
    Elaborates i b → Elaborates t c → Elaborates e d →
      Elaborates (form .conditional [i, t, e]) (.conditional b yesLabel c noLabel d)

-- What the tree is numbered as is made from it, whatever numbers are given out.
def NumberedSoundly (t : Tree) : Prop :=
  ∀ {c : Core} {k k' : Numbering}, t.number k = .ok c k' → Elaborates t c

theorem exists_parts_of_numberForest {ts : List Tree} (hi : ∀ t ∈ ts, NumberedSoundly t)
    {cs : List Core} {k k' : Numbering} (h : numberForest ts k = .ok cs k') :
    ∃ parts : List (Tree × Core), ts = parts.map (·.1) ∧ cs = parts.map (·.2) ∧
      ∀ x ∈ parts, Elaborates x.1 x.2 := by
  induction ts generalizing cs k
  case nil =>
    cases h
    exact ⟨[], rfl, rfl, by simp⟩
  case cons t ts hts =>
    rw [List.forall_mem_cons] at hi
    obtain ⟨c, k₁, ht, h⟩ := Numbered.bind_eq_ok.mp h
    obtain ⟨cs, k₂, hr, h⟩ := Numbered.bind_eq_ok.mp h
    cases h
    obtain ⟨parts, rfl, rfl, hp⟩ := hts hi.2 hr
    exact ⟨(t, c) :: parts, rfl, rfl, List.forall_mem_cons.mpr ⟨hi.1 ht, hp⟩⟩

theorem numberedSoundly_node {tag : Tag} {ts : List Tree} (hi : ∀ t ∈ ts, NumberedSoundly t) :
    NumberedSoundly (node tag ts) := by
  intro c k k' h
  unfold number at h
  rw [Numbered.bind_eq_ok] at h
  obtain ⟨⟨⟩, k₁, ha, h⟩ := h
  rw [Numbered.lift_eq_ok] at ha
  split at h
  case h_1 l =>
    have hc : ts = [] := by
      simpa [Tag.arity, Arity.accepts] using checkArity_eq_ok_iff.mp ha.1
    subst hc
    cases hl : l.core? <;> simp only [hl] at h <;> cases h
    exact .leaf hl
  case h_2 param body =>
    obtain ⟨params, k₂, hp, h⟩ := Numbered.bind_eq_ok.mp h
    obtain ⟨id, k₃, -, h⟩ := Numbered.bind_eq_ok.mp h
    obtain ⟨d, k₄, hb, h⟩ := Numbered.bind_eq_ok.mp h
    obtain ⟨label, k₅, -, h⟩ := Numbered.bind_eq_ok.mp h
    cases h
    exact .lambda id label (Numbered.lift_eq_ok.mp hp).1 (hi body (by simp) hb)
  case h_3 condition yes no =>
    obtain ⟨c, k₂, hy, h⟩ := Numbered.bind_eq_ok.mp h
    obtain ⟨yesLabel, k₃, -, h⟩ := Numbered.bind_eq_ok.mp h
    obtain ⟨d, k₄, hn, h⟩ := Numbered.bind_eq_ok.mp h
    obtain ⟨noLabel, k₅, -, h⟩ := Numbered.bind_eq_ok.mp h
    obtain ⟨b, k₆, hc, h⟩ := Numbered.bind_eq_ok.mp h
    cases h
    exact .conditional yesLabel noLabel (hi condition (by simp) hc) (hi yes (by simp) hy)
      (hi no (by simp) hn)
  case h_4 fn arg =>
    obtain ⟨c, k₂, hf, h⟩ := Numbered.bind_eq_ok.mp h
    obtain ⟨d, k₃, hg, h⟩ := Numbered.bind_eq_ok.mp h
    cases h
    exact .apply (hi fn (by simp) hf) (hi arg (by simp) hg)
  case h_5 =>
    obtain ⟨cs, k₂, hts, h⟩ := Numbered.bind_eq_ok.mp h
    cases h
    obtain ⟨parts, rfl, rfl, hp⟩ := exists_parts_of_numberForest hi hts
    have hl := checkArity_eq_ok_iff.mp ha.1
    exact .tuple (by simpa [Tag.arity, Form.arity, Arity.accepts] using hl) hp
  case h_6 op operand =>
    obtain ⟨c, k₂, ho, h⟩ := Numbered.bind_eq_ok.mp h
    cases h
    exact .unary op (hi operand (by simp) ho)
  case h_7 op left right =>
    obtain ⟨c, k₂, hl, h⟩ := Numbered.bind_eq_ok.mp h
    obtain ⟨d, k₃, hr, h⟩ := Numbered.bind_eq_ok.mp h
    cases h
    exact .binary op (hi left (by simp) hl) (hi right (by simp) hr)
  case h_8 => cases h

mutual

theorem elaborates_of_number : (t : Tree) → NumberedSoundly t
  | node _ ts => numberedSoundly_node (forall_elaborates_of_number ts)

theorem forall_elaborates_of_number : (ts : List Tree) → ∀ t ∈ ts, NumberedSoundly t
  | []      => nofun
  | t :: ts => List.forall_mem_cons.mpr ⟨elaborates_of_number t, forall_elaborates_of_number ts⟩

end

theorem numberForest_total {parts : List (Tree × Core)}
    (h : ∀ x ∈ parts, x.1.number.Total) : (numberForest (parts.map (·.1))).Total := by
  induction parts
  case nil => exact .pure []
  case cons x parts hi =>
    rw [List.forall_mem_cons] at h
    exact .bind h.1 fun _ => .bind (hi h.2) fun _ => .pure _

theorem Elaborates.total {t : Tree} {c : Core} (h : Elaborates t c) : t.number.Total := by
  induction h <;> unfold Tree.number
  case leaf hl =>
    refine .bind (.lift rfl) fun _ => ?_
    simp only [hl]
    exact .pure _
  case lambda hp _ he =>
    exact .bind (.lift rfl) fun _ => .bind (.lift hp) fun _ => .bind .lambdaId fun _ =>
      .bind he fun _ => .bind .blockLabel fun _ => .pure _
  case apply hf ha => exact .bind (.lift rfl) fun _ => .bind hf fun _ => .bind ha fun _ => .pure _
  case tuple parts hl _ hi =>
    refine .bind (.lift (checkArity_eq_ok_iff.mpr ?_)) fun _ =>
      .bind (numberForest_total hi) fun _ => .pure _
    simpa [Tag.arity, Form.arity, Arity.accepts] using hl
  case unary he => exact .bind (.lift rfl) fun _ => .bind he fun _ => .pure _
  case binary hl hr => exact .bind (.lift rfl) fun _ => .bind hl fun _ => .bind hr fun _ => .pure _
  case conditional hi ht he =>
    exact .bind (.lift rfl) fun _ => .bind ht fun _ => .bind .blockLabel fun _ => .bind he fun _ =>
      .bind .blockLabel fun _ => .bind hi fun _ => .pure _

end Tree

end RpalMachine
