import RpalMachine.Proofs.Blocks

namespace RpalMachine

namespace Tree

mutual

-- How many nodes of a form there are.
def count (f : Form) : Tree → Nat
  | node tag ts => forestCount f ts + if tag = .form f then 1 else 0

def forestCount (f : Form) : List Tree → Nat
  | []      => 0
  | t :: ts => t.count f + forestCount f ts

end

variable {t : Tree} {ts : List Tree} {f : Form}

theorem forestEvaluated_eq (h : ∀ t ∈ ts, t.evaluated f = t.count f) :
    forestEvaluated f ts = forestCount f ts := by
  induction ts
  case nil => rfl
  case cons t ts hi =>
    rw [List.forall_mem_cons] at h
    rw [forestEvaluated, forestCount, h.1, hi h.2]

theorem evaluated_eq_of_forall {g : Form} (hg : g ≠ .lambda)
    (h : ∀ t ∈ ts, t.evaluated f = t.count f) : (form g ts).evaluated f = (form g ts).count f := by
  rw [evaluated.eq_2 _ _ _ fun _ _ h _ => hg (Tag.form.inj h), count, forestEvaluated_eq h]

theorem forestCount_eq_zero (h : ∀ t ∈ ts, t.count f = 0) : forestCount f ts = 0 := by
  induction ts
  case nil => rfl
  case cons t ts hi =>
    rw [List.forall_mem_cons] at h
    rw [forestCount, h.1, hi h.2]

-- A parameter is made of names, if it is a form at all.
theorem count_parameter {single : Tree → Prop} (h : Shaped single .parameter t) (hf : f ≠ .comma) :
    t.count f = 0 := by
  obtain ⟨tag, ts⟩ := t
  cases tag
  case leaf l => cases h <;> rfl
  case form g =>
    have hg : g = .comma := by
      have hr := (shaped_form_iff.mp h).1
      cases g <;> first | rfl | contradiction
    subst hg
    obtain ⟨-, -, hn⟩ := shaped_comma_iff.mp h
    have hts : forestCount f ts = 0 := forestCount_eq_zero fun t ht => by
      obtain ⟨x, rfl⟩ := hn t ht
      rfl
    rw [count, hts, if_neg fun h => hf (Tag.form.inj h).symm]

theorem Elaborates.evaluated_eq {c : Core} (h : Elaborates t c) (ht : Plain t) (hf : f ≠ .comma) :
    t.evaluated f = t.count f := by
  induction h
  case leaf => rfl
  case lambda n e params c _ _ hp _ hi =>
    have hn : Shaped Single .parameter n :=
      (ht.of_mem (.head _)).parameterNames_iff.mp ⟨params, hp⟩
    have hn := count_parameter hn hf
    have he := hi (ht.of_mem (.tail _ (.head _)))
    simp [evaluated, count, forestEvaluated, forestCount, hn, he, eq_comm]
  case apply hc hd =>
    exact evaluated_eq_of_forall (by simp)
      (by simp [hc (ht.of_mem (.head _)), hd (ht.of_mem (.tail _ (.head _)))])
  case tuple parts _ _ hi =>
    exact evaluated_eq_of_forall (by simp)
      (List.forall_mem_map.mpr fun x hx => hi x hx (ht.of_mem (List.mem_map_of_mem hx)))
  case unary he => exact evaluated_eq_of_forall (by simp) (by simp [he (ht.of_mem (.head _))])
  case binary hl hr =>
    exact evaluated_eq_of_forall (by simp)
      (by simp [hl (ht.of_mem (.head _)), hr (ht.of_mem (.tail _ (.head _)))])
  case conditional hb hc hd =>
    exact evaluated_eq_of_forall (by simp) (by
      simp [hb (ht.of_mem (.head _)), hc (ht.of_mem (.tail _ (.head _))),
        hd (ht.of_mem (.tail _ (.tail _ (.head _))))])

end Tree

end RpalMachine
