import Mathlib.Data.List.Nodup
import RpalMachine.Trace
import RpalMachine.Proofs.Counts
import RpalMachine.Proofs.Growth

namespace RpalMachine

-- No event of a run is about what was built.
theorem Trace.mem_events_ofMachine {limit l b : Nat} {events : List Event} {m : Machine} :
    .built l b ∈ (ofMachine limit events m).events ↔ .built l b ∈ events := by
  rw [ofMachine]
  split <;> simp

namespace Tree

section

variable {t u : Tree} {sink : Sink} {m : Machine} {k : Numbering}

theorem machine_numbers (h : t.machine sink = .ok (m, k)) :
    ∃ program, m = .start program sink ∧
      program.Uses {} (t.evaluated .lambda) (t.blockCount + 1) ∧ program.label = t.blockCount ∧
      k = ⟨t.evaluated .lambda + 1, t.blockCount + 1⟩ := by
  rw [machine] at h
  cases hb : t.block {} <;> rw [hb] at h <;> cases h
  obtain ⟨hu, hl, rfl⟩ := block_numbers hb
  exact ⟨_, rfl, hu, by simpa using hl, by simp [Numbering.advance, Nat.add_comm]⟩

theorem evaluated_eq_of_desugar (h : u.desugar = .ok t) (hm : t.machine sink = .ok (m, k))
    {f : Form} (hf : f ≠ .comma) : t.evaluated f = t.count f := by
  obtain ⟨core, k, hc, -⟩ := machine_eq_ok_iff.mp hm
  exact (elaborates_of_number t hc).evaluated_eq (desugars_of_desugar u h).plain hf

theorem built_mem_trace_iff (h : u.desugar = .ok t) (hm : t.machine sink = .ok (m, k))
    {limit l b : Nat} : .built l b ∈ (u.trace limit sink).events ↔
      l = k.nextLambda - 1 ∧ b = k.nextBlock := by
  simp only [trace, h, hm, Trace.mem_events_ofMachine]
  simp

end

theorem nodup_flatMap_of_lt {f : α → List Nat} {xs : List α} (h : ∀ x ∈ xs, (f x).Nodup)
    (hx : xs.Pairwise fun x y => ∀ i ∈ f x, ∀ j ∈ f y, i < j) : (xs.flatMap f).Nodup :=
  List.nodup_flatMap.mpr ⟨h, hx.imp fun h i hi hj => Nat.lt_irrefl i (h i hi i hj)⟩

-- Numbers are given out once. Whatever trees are turned into code one after the other, with
-- failures or not, the lambdas of all blocks that are returned have different numbers and so have
-- the blocks, those of a later block are larger, and a block has a larger number than those inside
-- of it. For a program the numbers are the first ones, as many as it has lambdas and blocks without
-- what hangs below the parameters of lambdas; nothing does in a tree that is left without sugar.
theorem numbers_given_once :
    (∀ (k : Numbering) (ts : List Tree),
      ((answers k ts).flatMap (·.lambdaIds)).Nodup ∧ ((answers k ts).flatMap (·.labels)).Nodup ∧
      (answers k ts).Pairwise Block.Precedes ∧ ∀ b ∈ answers k ts, b.Ordered) ∧
    (∀ (t : Tree) (sink : Sink) (m : Machine) (k : Numbering), t.machine sink = .ok (m, k) →
      (∃ program, m = .start program sink ∧
        program.lambdaIds.Perm (List.range' 1 (t.evaluated .lambda)) ∧
        program.labels.Perm
          (List.range (t.evaluated .lambda + 2 * t.evaluated .conditional + 1)) ∧
        program.label = t.evaluated .lambda + 2 * t.evaluated .conditional) ∧
      k.nextLambda - 1 = t.evaluated .lambda ∧
      k.nextBlock = t.evaluated .lambda + 2 * t.evaluated .conditional + 1 ∧
      ∀ u : Tree, u.desugar = .ok t →
        t.evaluated .lambda = t.count .lambda ∧ t.evaluated .conditional = t.count .conditional ∧
        ∀ limit l b, .built l b ∈ (u.trace limit sink).events ↔
          l = t.count .lambda ∧ b = t.count .lambda + 2 * t.count .conditional + 1) := by
  refine ⟨fun k ts => ⟨?_, ?_, answers_precede k ts, fun b hb => ?_⟩, fun t sink m k hm => ?_⟩
  case refine_1 =>
    refine nodup_flatMap_of_lt (fun b hb => ?_) ((answers_precede k ts).imp fun h => h.lambdaIds)
    have ⟨_, _, _, _, hu⟩ := answers_uses hb
    exact hu.lambdaIds.nodup_iff.mpr List.nodup_range'
  case refine_2 =>
    refine nodup_flatMap_of_lt (fun b hb => ?_) ((answers_precede k ts).imp fun h => h.labels)
    have ⟨_, _, _, _, hu⟩ := answers_uses hb
    exact hu.labels.nodup_iff.mpr List.nodup_range'
  case refine_3 =>
    have ⟨_, _, _, _, hu⟩ := answers_uses hb
    exact hu.ordered
  case refine_4 =>
    obtain ⟨program, hp, hu, hl, hk⟩ := machine_numbers hm
    subst hk
    refine ⟨⟨program, hp, hu.lambdaIds, ?_, hl⟩, rfl, rfl, fun u h => ?_⟩
    case refine_1 =>
      rw [List.range_eq_range']
      exact hu.labels
    case refine_2 =>
      have hlambda := evaluated_eq_of_desugar h hm (f := .lambda) nofun
      have hconditional := evaluated_eq_of_desugar h hm (f := .conditional) nofun
      refine ⟨hlambda, hconditional, fun limit l b => ?_⟩
      rw [built_mem_trace_iff h hm, ← hlambda, ← hconditional]
      rfl

-- The absolute value of an integer.
def absolute : Tree :=
  lambda (name "n") (form .conditional [form (.binary .lt) [name "n", leaf (.integer 0)],
    form (.unary .neg) [name "n"], name "n"])

-- Fails when the numbers of its first part have been used up.
def abandoned : Tree :=
  apply absolute (form .comma [name "x", name "y"])

example : (answers {} [absolute, abandoned, absolute]).map (fun b => (b.lambdaIds, b.labels)) =
    [([1], [3, 2, 1, 0]), ([3], [10, 9, 8, 7])] := by
  decide

theorem absolute_numbers_given_once :
    (answers {} [absolute, abandoned, absolute]).Pairwise Block.Precedes ∧
    ∃ m k, absolute.machine {} = .ok (m, k) ∧ (∃ program, m = .start program {} ∧
      program.lambdaIds.Perm (List.range' 1 1) ∧ program.labels.Perm (List.range 4) ∧
      program.label = 3) ∧ absolute.desugar = .ok absolute ∧
      .built 1 4 ∈ (absolute.trace 0 {}).events := by
  have h := numbers_given_once.2 absolute {} _ _ rfl
  have hb := ((h.2.2.2 absolute rfl).2.2 0 1 4).mpr ⟨rfl, rfl⟩
  exact ⟨(numbers_given_once.1 {} [absolute, abandoned, absolute]).2.2.1, _, _, rfl, h.1, rfl, hb⟩

-- A name with a lambda below it is a parameter like any other name.
def overhung : Tree :=
  lambda (node (.leaf (.identifier "x")) [lambda (name "y") (name "y")]) (name "x")

-- What hangs below a parameter is not looked at, so it can have lambdas that get no number.
theorem not_numbered_as_counted :
    ¬ ∀ (t : Tree) (sink : Sink) (m : Machine) (k : Numbering), t.machine sink = .ok (m, k) →
      ∃ program, m = .start program sink ∧
        program.lambdaIds.Perm (List.range' 1 (t.count .lambda)) ∧
        program.labels.Perm (List.range (t.count .lambda + 2 * t.count .conditional + 1)) ∧
        program.label = t.count .lambda + 2 * t.count .conditional := by
  intro h
  obtain ⟨program, hp, -, -, hl⟩ := h overhung {} _ _ rfl
  cases hp
  exact absurd hl (by decide)

end Tree

end RpalMachine
