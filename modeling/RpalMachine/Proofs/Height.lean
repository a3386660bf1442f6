import RpalMachine.Proofs.Limits
import RpalMachine.Proofs.WellFormed

namespace RpalMachine

-- The parameters of a node after its first one.
def Tag.moreParameters : Tag → (count : Nat) → Nat
  | .form .lambda, count   => count - 2
  | .form .function, count => count - 3
  | _, _                   => 0

namespace Tree

mutual

-- The parameters after the first ones, on the way down on which there are most.
def excess : Tree → Nat
  | node tag children => tag.moreParameters children.length + maxExcess children

def maxExcess : List Tree → Nat
  | []      => 0
  | t :: ts => max t.excess (maxExcess ts)

end

-- How high a tree can be without its sugar.
def ceiling (t : Tree) : Nat :=
  2 * t.height + t.excess

section

variable {t s : Tree} {ts : List Tree} {n : Nat}

theorem height_pos (t : Tree) : 0 < t.height := by
  cases t
  simp only [height]
  omega

theorem maxHeight_le_iff : maxHeight ts ≤ n ↔ ∀ t ∈ ts, t.height ≤ n := by
  induction ts
  case nil => simp [maxHeight]
  case cons hi => rw [maxHeight, Nat.max_le, hi, List.forall_mem_cons]

theorem excess_le_maxExcess (h : t ∈ ts) : t.excess ≤ maxExcess ts := by
  induction h
  case head => exact Nat.le_max_left ..
  case tail hi => exact Nat.le_trans hi (Nat.le_max_right ..)

-- A child is two lower for the level, and one for each parameter after the first.
theorem ceiling_add_le {f : Form} (h : t ∈ ts) :
    t.ceiling + 2 + Tag.moreParameters (.form f) ts.length ≤ (form f ts).ceiling := by
  have hh := height_le_maxHeight h
  have he := excess_le_maxExcess h
  simp only [ceiling, height, excess]
  omega

theorem ceiling_add_two_le {f : Form} (h : t ∈ ts) : t.ceiling + 2 ≤ (form f ts).ceiling :=
  Nat.le_trans (Nat.le_add_right ..) (ceiling_add_le h)

-- Each parameter is a level.
theorem height_curry_le {params : List Tree} {body : Tree} (hp : ∀ t ∈ params, t.height ≤ n)
    (hb : body.height ≤ n) : (curry params body).height ≤ params.length + n := by
  induction params
  case nil => simpa [curry] using hb
  case cons hi =>
    rw [List.forall_mem_cons] at hp
    have := hi hp.2
    simp only [curry_cons, height, maxHeight, List.length_cons]
    omega

theorem height_curry_after_le {pairs : Rewritten} {e b : Tree}
    (hp : ∀ x ∈ pairs, x.2.height ≤ x.1.ceiling) (hb : b.height ≤ e.ceiling)
    (h : ∀ t ∈ pairs.before ++ [e], t.ceiling ≤ n) :
    (curry pairs.after b).height ≤ pairs.length + n := by
  rw [List.forall_mem_append, Rewritten.forall_before] at h
  have hc := height_curry_le
    (pairs.forall_after.mpr fun x hx => Nat.le_trans (hp x hx) (h.1 x hx))
    (Nat.le_trans hb (h.2 e (.head _)))
  rwa [Rewritten.length_after] at hc

-- The rules that keep the number of parameters make a tree at most twice as high.
theorem Desugars.height_le (h : Desugars t s) : s.height ≤ t.ceiling := by
  induction h
  case leaf => simp only [ceiling, height, maxHeight]; omega
  case kept f pairs hf ha _ hi =>
    have hb : ∀ t ∈ pairs.before, t.ceiling + 2 ≤ (form f pairs.before).ceiling :=
      fun _ => ceiling_add_two_le
    rw [pairs.forall_before] at hb
    have ha : maxHeight pairs.after ≤ (form f pairs.before).ceiling - 2 :=
      maxHeight_le_iff.mpr <| pairs.forall_after.mpr fun x hx => by
        have := hi x hx
        have := hb x hx
        omega
    simp only [ceiling, height] at ha ⊢
    omega
  case lambda pairs e b hn _ _ hi he =>
    generalize hB : (form .lambda (pairs.before ++ [e])).ceiling = B
    have hl := List.length_pos_of_ne_nil hn
    have h : ∀ t ∈ pairs.before ++ [e], t.ceiling + pairs.length + 1 ≤ B := fun t ht => by
      have := ceiling_add_le (f := .lambda) ht
      simp [Tag.moreParameters, hB] at this
      omega
    have hc := height_curry_after_le hi he (n := B - pairs.length - 1) fun t ht => by
      have := h t ht
      omega
    have := h e (by simp)
    omega
  case function m n pairs e b _ hn _ _ hm hi he =>
    generalize hB : (form .function (m :: (pairs.before ++ [e]))).ceiling = B
    have hl := List.length_pos_of_ne_nil hn
    have h : ∀ t ∈ m :: (pairs.before ++ [e]), t.ceiling + pairs.length + 1 ≤ B := fun t ht => by
      have := ceiling_add_le (f := .function) ht
      simp [Tag.moreParameters, hB] at this
      omega
    have hc := height_curry_after_le hi he (n := B - pairs.length - 1) fun t ht => by
      have := h t (.tail _ ht)
      omega
    have := h m (.head _)
    simp only [height, maxHeight, Nat.max_zero]
    omega
  case simultaneous parts hlen _ hi =>
    generalize hB : (form .simultaneous parts.rewritten.before).ceiling = B
    have h : ∀ x ∈ parts, x.2.2.height + 3 ≤ B := fun x hx => by
      have hx' : x.1.ceiling + 2 ≤ B :=
        hB ▸ ceiling_add_two_le (parts.forall_before.mp (fun _ => id) x hx)
      have hv := hi x hx
      simp only [height, maxHeight, Nat.max_zero] at hv
      omega
    have hn : maxHeight parts.names ≤ 1 :=
      maxHeight_le_iff.mpr (parts.forall_names.mpr fun _ _ => Nat.le_refl 1)
    have hv : maxHeight parts.values ≤ B - 3 :=
      maxHeight_le_iff.mpr (parts.forall_values.mpr fun x hx => Nat.le_sub_of_add_le (h x hx))
    obtain ⟨x, hx⟩ := List.exists_mem_of_length_pos (Nat.zero_lt_of_lt hlen)
    have := h x hx
    have := x.2.2.height_pos
    simp only [height, maxHeight, Nat.max_zero]
    omega
  -- The rules of a fixed number of children.
  case letIn d e _ _ _ _ _ hd he =>
    have h₁ : d.ceiling + 2 ≤ (form .letIn [d, e]).ceiling := ceiling_add_two_le (.head _)
    have h₂ : e.ceiling + 2 ≤ (form .letIn [d, e]).ceiling := ceiling_add_two_le (by simp)
    simp only [height, maxHeight, Nat.max_zero] at hd ⊢
    omega
  case whereIn e d _ _ _ _ _ he hd =>
    have h₁ : e.ceiling + 2 ≤ (form .whereIn [e, d]).ceiling := ceiling_add_two_le (.head _)
    have h₂ : d.ceiling + 2 ≤ (form .whereIn [e, d]).ceiling := ceiling_add_two_le (by simp)
    simp only [height, maxHeight, Nat.max_zero] at hd ⊢
    omega
  case within d₁ d₂ _ _ _ _ _ _ hd₁ hd₂ =>
    have h₁ : d₁.ceiling + 2 ≤ (form .within [d₁, d₂]).ceiling := ceiling_add_two_le (.head _)
    have h₂ : d₂.ceiling + 2 ≤ (form .within [d₁, d₂]).ceiling := ceiling_add_two_le (by simp)
    simp only [height, maxHeight, Nat.max_zero] at hd₁ hd₂ ⊢
    omega
  case infixCall l m r _ _ _ _ _ _ hl hm hr =>
    have h₁ : l.ceiling + 2 ≤ (form .infixCall [l, m, r]).ceiling := ceiling_add_two_le (.head _)
    have h₂ : m.ceiling + 2 ≤ (form .infixCall [l, m, r]).ceiling := ceiling_add_two_le (by simp)
    have h₃ : r.ceiling + 2 ≤ (form .infixCall [l, m, r]).ceiling := ceiling_add_two_le (by simp)
    simp only [height, maxHeight, Nat.max_zero]
    omega
  case recursive d _ _ _ hd =>
    have h₁ : d.ceiling + 2 ≤ (form .recursive [d]).ceiling := ceiling_add_two_le (.head _)
    simp only [height, maxHeight, Nat.max_zero] at hd ⊢
    omega

end

-- Each lambda and each function has one parameter.
def Curried (t : Tree) : Prop :=
  ∀ u, Subtree u t → u.tag.moreParameters u.children.length = 0

mutual

theorem excess_eq_zero : (t : Tree) → Curried t → t.excess = 0
  | node tag ts, h => by
    have ht := maxExcess_eq_zero ts fun t ht u hu => h u (.inside ht hu)
    have hn : tag.moreParameters ts.length = 0 := h _ .root
    rw [excess, ht, hn]

theorem maxExcess_eq_zero : (ts : List Tree) → (∀ t ∈ ts, Curried t) → maxExcess ts = 0
  | [], _ => rfl
  | t :: ts, h => by
    rw [List.forall_mem_cons] at h
    rw [maxExcess, excess_eq_zero t h.1, maxExcess_eq_zero ts h.2, Nat.max_self]

end

-- The limit for the height of a program bounds what is left of it without sugar, but for the
-- parameters after the first ones.
theorem height_of_ofSource_le {depth : Nat} {source : String} {t s : Tree}
    (h : ofSource depth source = .ok t) (hs : t.desugar = .ok s) :
    s.height ≤ 2 * depth + t.excess ∧ (Curried t → s.height ≤ 2 * depth) := by
  have hd := (desugars_of_desugar t hs).height_le
  have ht := height_le_of_ofSource h
  rw [ceiling] at hd
  refine ⟨by omega, fun hc => ?_⟩
  have := excess_eq_zero t hc
  omega

theorem selfApplication_height_le :
    ofSource 8 "fn x . x x" = .ok (lambda (.name "x") (apply (.name "x") (.name "x"))) ∧
      (lambda (.name "x") (apply (.name "x") (.name "x"))).height ≤ 2 * 8 := by
  have h : ofSource 8 "fn x . x x" = .ok (lambda (.name "x") (apply (.name "x") (.name "x"))) :=
    Except.eq_ok_of_toOption (by decide +kernel)
  have hd : (lambda (.name "x") (apply (.name "x") (.name "x"))).desugar = .ok _ :=
    Except.eq_ok_of_toOption rfl
  refine ⟨h, (height_of_ofSource_le h hd).2 fun u hu => ?_⟩
  simp [subtree_node_iff] at hu
  obtain rfl | rfl | rfl | rfl := hu <;> rfl

def nineParameters : List Tree :=
  ["a", "b", "c", "d", "e", "f", "g", "h", "i"].map name

-- Nine parameters are nine levels, however low the tree is that they are read as.
theorem height_not_bounded_by_limit :
    ¬ ∀ {depth : Nat} {source : String} {t s : Tree}, ofSource depth source = .ok t →
      t.desugar = .ok s → s.height ≤ 2 * depth := by
  intro h
  have ht : ofSource 4 "fn a b c d e f g h i . 1" =
      .ok (form .lambda (nineParameters ++ [.leaf (.integer 1)])) :=
    Except.eq_ok_of_toOption (by decide +kernel)
  have hs : (form .lambda (nineParameters ++ [.leaf (.integer 1)])).desugar =
      .ok (curry nineParameters (.leaf (.integer 1))) :=
    Except.eq_ok_of_toOption (by decide +kernel)
  exact absurd (h ht hs) (by decide)

end Tree

end RpalMachine
