import RpalMachine.Proofs.Blocks

namespace RpalMachine

namespace Numbered

-- What comes after, also if it fails.
def stateOf : EStateM.Result ShapeFault Numbering α → Numbering
  | .ok _ k | .error _ k => k

-- No number that was given out is given out again.
def Grows (x : Numbered α) : Prop :=
  ∀ k, k ≤ stateOf (x k)

namespace Grows

theorem pure (a : α) : (Pure.pure a : Numbered α).Grows :=
  Numbering.le_refl

theorem throw (e : ShapeFault) : (MonadExcept.throw e : Numbered α).Grows :=
  Numbering.le_refl

theorem bind {x : Numbered α} {f : α → Numbered β} (hx : x.Grows) (hf : ∀ a, (f a).Grows) :
    (x >>= f).Grows := by
  intro k
  have hx := hx k
  simp only [Bind.bind, EStateM.bind]
  cases h : x k <;> rw [h] at hx
  case ok a k'    => exact Numbering.le_trans hx (hf a k')
  case error e k' => exact hx

theorem lift (result : Except ShapeFault α) : (Numbered.lift result).Grows := by
  cases result
  case ok a    => exact pure a
  case error e => exact throw e

theorem lambdaId : Numbered.lambdaId.Grows :=
  (Numbering.le_advance · 1 0)

theorem finish (code : List Symbol) : (Numbered.finish code).Grows :=
  (Numbering.le_advance · 0 1)

end Grows

end Numbered

namespace Tree

theorem forestCode_grows {ts : List Tree} (hi : ∀ t ∈ ts, t.code.Grows) :
    (forestCode ts).Grows := by
  induction ts
  case nil => exact .pure []
  case cons t ts hts =>
    rw [List.forall_mem_cons] at hi
    exact .bind hi.1 fun _ => .bind (hts hi.2) fun _ => .pure _

theorem code_grows (t : Tree) : t.code.Grows := by
  induction t using Tree.induction
  case h tag ts hi =>
  unfold code
  refine .bind (.lift _) fun _ => ?_
  split
  case h_1 l =>
    cases l <;> first | exact .pure _ | exact .throw _
  case h_2 param body =>
    exact .bind (.lift _) fun _ => .bind .lambdaId fun _ => .bind (hi body (by simp)) fun _ =>
      .bind (.finish _) fun _ => .pure _
  case h_3 condition yes no =>
    exact .bind (hi yes (by simp)) fun _ => .bind (.finish _) fun _ => .bind (hi no (by simp))
      fun _ => .bind (.finish _) fun _ => .bind (hi condition (by simp)) fun _ => .pure _
  case h_4 =>
    split
    case h_1 => exact .bind (forestCode_grows hi) fun _ => .pure _
    case h_2 => exact .throw _

theorem block_grows (t : Tree) : t.block.Grows :=
  .bind t.code_grows fun _ => .finish _

variable {t : Tree} {ts : List Tree} {b : Block Symbol} {k k' : Numbering}

-- The blocks that are returned for several trees, one after the other.
def answers (k : Numbering) (ts : List Tree) : List (Block Symbol) :=
  (blocks k ts).filterMap (·.toOption)

theorem answers_of_ok (h : t.block k = .ok b k') : answers k (t :: ts) = b :: answers k' ts := by
  rw [answers, blocks, h]
  rfl

theorem answers_of_error {e : ShapeFault} (h : t.block k = .error e k') :
    answers k (t :: ts) = answers k' ts := by
  rw [answers, blocks, h]
  rfl

theorem answers_uses {k : Numbering} {ts : List Tree} {b : Block Symbol} (h : b ∈ answers k ts) :
    ∃ k' m n, k ≤ k' ∧ b.Uses k' m n := by
  induction ts generalizing k
  case nil => contradiction
  case cons t ts hi =>
    have hk := block_grows t k
    cases ht : t.block k <;> rw [ht] at hk
    case ok a k' =>
      rw [answers_of_ok ht, List.mem_cons] at h
      cases h
      case inl h => exact h ▸ ⟨k, _, _, Numbering.le_refl k, (block_numbers ht).1⟩
      case inr h =>
        have ⟨k'', m, n, hk', hb⟩ := hi h
        exact ⟨k'', m, n, Numbering.le_trans hk hk', hb⟩
    case error e k' =>
      rw [answers_of_error ht] at h
      have ⟨k'', m, n, hk', hb⟩ := hi h
      exact ⟨k'', m, n, Numbering.le_trans hk hk', hb⟩

theorem answers_precede (k : Numbering) (ts : List Tree) :
    (answers k ts).Pairwise Block.Precedes := by
  induction ts generalizing k
  case nil => exact .nil
  case cons t ts hi =>
    cases ht : t.block k
    case ok a k' =>
      rw [answers_of_ok ht]
      obtain ⟨ha, -, hk'⟩ := block_numbers ht
      refine .cons (fun b hb => ?_) (hi k')
      have ⟨k'', m, n, hk, hb⟩ := answers_uses hb
      exact ha.precedes (hk' ▸ hk) hb
    case error e k' =>
      rw [answers_of_error ht]
      exact hi k'

end Tree

end RpalMachine
