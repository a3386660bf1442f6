import RpalMachine.Proofs.WellFormed
import RpalMachine.Proofs.Elaboration
import RpalMachine.Trace
import Mathlib.Tactic.Tauto

namespace RpalMachine

namespace Tree

section

variable {t s : Tree} {x : String} {single : Tree → Prop} {role : Role}

theorem Desugars.eq_name_iff (h : Desugars t s) : s = name x ↔ t = name x := by
  cases h
  case leaf => rfl
  case lambda hn _ _ =>
    obtain ⟨n, ns, he⟩ := Rewritten.curry_after_eq hn
    simp [he]
  all_goals simp

@[simp]
theorem defines_equal_iff {n v : Tree} : Defines x (equal n v) ↔ n = name x := by
  constructor
  case mp  => rintro ⟨⟩; rfl
  case mpr => rintro rfl; exact .equal v

@[simp]
theorem defines_function_iff {n : Tree} {ts : List Tree} :
    Defines x (form .function (n :: ts)) ↔ n = name x := by
  constructor
  case mp  => rintro ⟨⟩; rfl
  case mpr => rintro rfl; exact .function ts

@[simp]
theorem defines_within_iff {d₁ d₂ : Tree} :
    Defines x (form .within [d₁, d₂]) ↔ Defines x d₂ := by
  constructor
  case mp  => rintro ⟨⟩; assumption
  case mpr => exact .within d₁

@[simp]
theorem defines_recursive_iff {d : Tree} : Defines x (form .recursive [d]) ↔ Defines x d := by
  constructor
  case mp  => rintro ⟨⟩; assumption
  case mpr => exact .recursive

@[simp]
theorem not_defines_simultaneous {ts : List Tree} : ¬ Defines x (form .simultaneous ts) :=
  nofun

-- A definition is of a single name if what is left of it is.
theorem Desugars.defines_iff {n v : Tree} (h : Desugars t (equal n v)) :
    Defines x t ↔ n = name x := by
  generalize hs : equal n v = s at h
  induction h generalizing n v
  case kept pairs _ _ hp _ =>
    match pairs, hs with
    | [(p, _), (q, _)], rfl =>
      exact (defines_equal_iff (n := p) (v := q)).trans (hp _ (.head _)).eq_name_iff.symm
  case lambda hn _ _ _ _ =>
    obtain ⟨n, ns, he⟩ := Rewritten.curry_after_eq hn
    simp [he] at hs
  case function hm _ _ _ _ _ _ =>
    cases hs
    rw [hm.eq_name_iff]
    exact defines_function_iff
  case within hi =>
    cases hs
    exact defines_within_iff.trans (hi rfl)
  case recursive hi =>
    cases hs
    exact defines_recursive_iff.trans (hi rfl)
  case simultaneous =>
    cases hs
    simp
  all_goals cases hs

theorem forall_zip_after_iff {p : Role → Tree → Prop} {pairs : Rewritten}
    (h : ∀ x ∈ pairs, ∀ {role}, p role x.2 ↔ p role x.1) (roles : List Role) :
    (∀ x ∈ roles.zip pairs.after, p x.1 x.2) ↔ ∀ x ∈ roles.zip pairs.before, p x.1 x.2 := by
  induction pairs generalizing roles
  case nil => simp [Rewritten.before, Rewritten.after]
  case cons x pairs hi =>
    cases roles
    case nil => simp
    case cons role roles =>
      rw [List.forall_mem_cons] at h
      simp only [Rewritten.before_cons, Rewritten.after_cons, List.zip_cons_cons,
        List.forall_mem_cons, h.1, hi h.2]

theorem forall_iff_of_desugars {p : Tree → Prop} {pairs : Rewritten}
    (h : ∀ x ∈ pairs, p x.2 ↔ p x.1) : (∀ t ∈ pairs.after, p t) ↔ ∀ t ∈ pairs.before, p t := by
  rw [pairs.forall_after, pairs.forall_before]
  exact forall₂_congr h

theorem Desugars.shaped_iff (h : Desugars t s) : Shaped Single role s ↔ Shaped Single role t := by
  induction h generalizing role
  case leaf => rfl
  case kept f pairs hf ha _ hi =>
    simp only [shaped_form_iff, Rewritten.length_after, Rewritten.length_before,
      forall_zip_after_iff hi]
    have hs : f ≠ .simultaneous := by rintro rfl; contradiction
    simp [hs]
  case letIn hd he | whereIn he hd =>
    have hd := @hd .definition
    simp only [shaped_equal_iff, true_and] at hd
    simp [he, ← hd]
    tauto
  case within h₁ h₂ =>
    have h₁ := @h₁ .definition
    have h₂ := @h₂ .definition
    simp only [shaped_equal_iff, true_and] at h₁ h₂
    simp [← h₁, ← h₂]
    tauto
  case lambda pairs _ _ hn _ _ hi he =>
    rw [shaped_curry_iff (Rewritten.after_ne_nil hn),
      shaped_lambda_iff (Rewritten.before_ne_nil hn), he,
      forall_iff_of_desugars fun x hx => hi x hx]
  case function hn _ _ hm hi he =>
    rw [shaped_equal_iff, shaped_curry_iff (Rewritten.after_ne_nil hn),
      shaped_function_iff (Rewritten.before_ne_nil hn), hm, he,
      forall_iff_of_desugars fun x hx => hi x hx]
    simp only [true_and]
  case infixCall hl hm hr =>
    simp [hl, hm, hr]
    tauto
  case recursive hd =>
    have hd := @hd .definition
    simp only [shaped_equal_iff, true_and] at hd
    simp [← hd]
  case simultaneous parts hlen hp hi =>
    have hv : ∀ x ∈ parts, Shaped Single .expression x.2.2 ↔ Shaped Single .definition x.1 :=
      fun x hx => by
        have hx := @hi x hx .definition
        simp only [shaped_equal_iff, true_and] at hx
        rw [← hx, and_iff_right (.parameter x.2.1)]
    have hs : ∀ x ∈ parts, Single x.1 := fun x hx => ⟨x.2.1, (hp x hx).defines_iff.mpr rfl⟩
    simp only [shaped_equal_iff, shaped_comma_iff, shaped_tau_iff, shaped_simultaneous_iff,
      parts.forall_names, parts.forall_values, parts.forall_before, forall₂_congr hv]
    simpa [hlen] using fun _ _ => hs

-- A definition without sugar is a name and its value.
theorem Shaped.exists_eq_equal (h : Shaped single .definition t) (ht : Plain t) :
    ∃ n v, t = equal n v := by
  cases ht
  case leaf => simp at h
  case lambda => simp at h
  case form f ts hf ha _ =>
    rw [shaped_form_iff] at h
    cases f <;> try cases h.1
    case equal =>
      obtain ⟨n, v, rfl⟩ := List.length_eq_two.mp (beq_iff_eq.mp ha)
      exact ⟨n, v, rfl⟩
    all_goals contradiction

theorem exists_pairs {R : α → β → Prop} {xs : List α} (h : ∀ x ∈ xs, ∃ y, R x y) :
    ∃ pairs : List (α × β), xs = pairs.map (·.1) ∧ ∀ x ∈ pairs, R x.1 x.2 := by
  induction xs
  case nil => exact ⟨[], rfl, by simp⟩
  case cons x xs hi =>
    rw [List.forall_mem_cons] at h
    obtain ⟨⟨y, hy⟩, h⟩ := h
    obtain ⟨pairs, rfl, hp⟩ := hi h
    exact ⟨(x, y) :: pairs, rfl, List.forall_mem_cons.mpr ⟨hy, hp⟩⟩

-- What is left of a definition is a name and its value.
theorem Desugars.exists_eq_equal (h : Desugars t s) (ht : Shaped Single .definition t) :
    ∃ n v, s = equal n v :=
  (h.shaped_iff.mpr ht).exists_eq_equal h.plain

theorem exists_desugars_form {f : Form} {pairs : Rewritten}
    (h : Shaped Single role (form f pairs.before)) (hp : ∀ x ∈ pairs, Desugars x.1 x.2) :
    ∃ s, Desugars (form f pairs.before) s := by
  have ha : f.arity.accepts pairs.length := by simpa [Tag.arity] using (legal_node_iff.mp h.legal).1
  cases f
  case letIn =>
    obtain ⟨⟨d, d'⟩, ⟨e, e'⟩, rfl⟩ := List.length_eq_two.mp (beq_iff_eq.mp ha)
    have hd : Desugars d d' := hp _ (.head _)
    obtain ⟨n, v, rfl⟩ := hd.exists_eq_equal (shaped_letIn_iff.mp h).2.1
    exact ⟨_, .letIn hd (hp _ (.tail _ (.head _)))⟩
  case whereIn =>
    obtain ⟨⟨e, e'⟩, ⟨d, d'⟩, rfl⟩ := List.length_eq_two.mp (beq_iff_eq.mp ha)
    have hd : Desugars d d' := hp _ (.tail _ (.head _))
    obtain ⟨n, v, rfl⟩ := hd.exists_eq_equal (shaped_whereIn_iff.mp h).2.2
    exact ⟨_, .whereIn (hp _ (.head _)) hd⟩
  case within =>
    obtain ⟨⟨d₁, d₁'⟩, ⟨d₂, d₂'⟩, rfl⟩ := List.length_eq_two.mp (beq_iff_eq.mp ha)
    have h₁ : Desugars d₁ d₁' := hp _ (.head _)
    have h₂ : Desugars d₂ d₂' := hp _ (.tail _ (.head _))
    obtain ⟨n₁, v₁, rfl⟩ := h₁.exists_eq_equal (shaped_within_iff.mp h).2.1
    obtain ⟨n₂, v₂, rfl⟩ := h₂.exists_eq_equal (shaped_within_iff.mp h).2.2
    exact ⟨_, .within h₁ h₂⟩
  case recursive =>
    obtain ⟨⟨d, d'⟩, rfl⟩ := List.length_eq_one_iff.mp (beq_iff_eq.mp ha)
    have hd : Desugars d d' := hp _ (.head _)
    obtain ⟨n, v, rfl⟩ := hd.exists_eq_equal (shaped_recursive_iff.mp h).2
    exact ⟨_, .recursive hd⟩
  case infixCall =>
    obtain ⟨l, m, r, rfl⟩ := List.length_eq_three.mp (beq_iff_eq.mp ha)
    exact ⟨_, .infixCall (hp l (.head _)) (hp m (.tail _ (.head _)))
      (hp r (.tail _ (.tail _ (.head _))))⟩
  case lambda =>
    obtain ⟨pairs, ⟨e, b⟩, rfl, hn⟩ := eq_append_of_two_le (of_decide_eq_true ha)
    rw [List.forall_mem_append] at hp
    rw [Rewritten.before_concat]
    exact ⟨_, .lambda hn hp.1 (hp.2 _ (.head _))⟩
  case function =>
    match pairs with
    | (m, n) :: pairs =>
    obtain ⟨pairs, ⟨e, b⟩, rfl, hn⟩ :=
      eq_append_of_two_le (Nat.le_of_succ_le_succ (of_decide_eq_true ha))
    rw [List.forall_mem_cons, List.forall_mem_append] at hp
    rw [Rewritten.before_cons, Rewritten.before_concat]
    exact ⟨_, .function hp.1 hn hp.2.1 (hp.2.2 _ (.head _))⟩
  case simultaneous =>
    obtain ⟨-, -, hd, hs⟩ := shaped_simultaneous_iff.mp h
    rw [Rewritten.forall_before] at hd hs
    obtain ⟨parts, rfl⟩ := eq_rewritten fun x hx => by
      obtain ⟨n, v, he⟩ := (hp x hx).exists_eq_equal (hd x hx)
      obtain ⟨y, hy⟩ := hs x hx
      exact ⟨y, v, (he ▸ hp x hx).defines_iff.mp hy ▸ he⟩
    refine ⟨_, .simultaneous ?_ fun x hx => hp _ (List.mem_map_of_mem hx)⟩
    simpa [Form.arity, Arity.accepts] using ha
  all_goals exact ⟨_, .kept rfl ha hp⟩

theorem Shaped.exists_desugars (h : Shaped Single role t) : ∃ s, Desugars t s := by
  induction h
  case literal l _ => exact ⟨_, .leaf l⟩
  case parameter x | name x => exact ⟨_, .leaf (.identifier x)⟩
  case unit => exact ⟨_, .leaf .unit⟩
  case form f ts roles hf hr hs hts hi =>
    have hd : ∀ t ∈ ts, ∃ s, Desugars t s := forall_of_forall_zip hr hi
    obtain ⟨pairs, rfl, hp⟩ := exists_pairs hd
    exact exists_desugars_form (.form hf hr hs hts) hp

end

section

variable {t s n : Tree} {ts : List Tree} {names : List String} {single : Tree → Prop}

theorem listedName_eq_ok_iff {x : String} : t.listedName = .ok x ↔ t.name? = some x := by
  rw [listedName]
  cases t.name? <;> simp

theorem mapM_listedName_eq_ok_iff :
    ts.mapM listedName = .ok names ↔ ts.map name? = names.map some := by
  induction ts generalizing names
  case nil => cases names <;> simp [pure, Except.pure]
  case cons t ts hi =>
    rw [List.mapM_cons]
    simp only [Except.bind_eq_ok, hi, listedName_eq_ok_iff, pure, Except.pure, Except.ok.injEq]
    cases names <;> simp

theorem exists_map_some_iff {f : α → Option β} {xs : List α} :
    (∃ ys : List β, xs.map f = ys.map some) ↔ ∀ x ∈ xs, ∃ y, f x = some y := by
  induction xs
  case nil => simp
  case cons x xs hi =>
    rw [List.forall_mem_cons, ← hi]
    constructor
    case mp =>
      rintro ⟨_ | ⟨y, ys⟩, h⟩ <;> simp at h
      exact ⟨⟨y, h.1⟩, ys, h.2⟩
    case mpr =>
      rintro ⟨⟨y, hy⟩, ys, hys⟩
      exact ⟨y :: ys, by simp [hy, hys]⟩

theorem Plain.name?_eq_some_iff {x : String} (h : Plain t) : t.name? = some x ↔ t = name x where
  mp  := h.eq_name
  mpr := by rintro rfl; rfl

-- Parameters are what names can be read off.
theorem Plain.parameterNames_iff (hn : Plain n) :
    (∃ names, n.parameterNames = .ok names) ↔ Shaped single .parameter n := by
  cases hn
  case leaf l => cases l <;> simp [parameterNames]
  case lambda => simp [parameterNames]
  case form f ts hf ha hts =>
    by_cases hc : f = .comma
    case pos =>
      subst hc
      have hl : 2 ≤ ts.length := of_decide_eq_true ha
      simp only [parameterNames, mapM_listedName_eq_ok_iff, shaped_comma_iff, hl, true_and,
        exists_map_some_iff]
      exact forall₂_congr fun t ht => exists_congr fun x => (hts t ht).name?_eq_some_iff
    case neg =>
      have hr : Role.parameter ≠ f.role := by cases f <;> first | contradiction | exact nofun
      have he : ∃ e, (Tree.form f ts).parameterNames = Except.error e := by
        cases f <;> first | contradiction | exact ⟨_, rfl⟩
      obtain ⟨e, he⟩ := he
      simp [shaped_form_iff, he, hr]

theorem Plain.exists_elaborates (hs : Plain s) (h : Shaped single .expression s) :
    ∃ c, Elaborates s c := by
  induction hs
  case leaf l =>
    cases l <;> first | exact ⟨_, .leaf rfl⟩ | simp at h
  case lambda n e hn _ _ hi =>
    obtain ⟨-, hp, he⟩ := shaped_single_lambda_iff.mp h
    obtain ⟨names, hp⟩ := hn.parameterNames_iff.mpr hp
    obtain ⟨c, he⟩ := hi he
    exact ⟨_, .lambda 0 0 hp he⟩
  case form f ts hf ha hts hi =>
    cases f <;> try contradiction
    case tau =>
      obtain ⟨-, hl, he⟩ := shaped_tau_iff.mp h
      obtain ⟨parts, rfl, hp⟩ := exists_pairs fun t ht => hi t ht (he t ht)
      exact ⟨_, .tuple (by simpa using hl) hp⟩
    case conditional =>
      obtain ⟨i, t, e, rfl⟩ := List.length_eq_three.mp (beq_iff_eq.mp ha)
      obtain ⟨-, h₁, h₂, h₃⟩ := shaped_conditional_iff.mp h
      obtain ⟨b, hb⟩ := hi i (by simp) h₁
      obtain ⟨c, hc⟩ := hi t (by simp) h₂
      obtain ⟨d, hd⟩ := hi e (by simp) h₃
      exact ⟨_, .conditional 0 0 hb hc hd⟩
    case gamma =>
      obtain ⟨f, a, rfl⟩ := List.length_eq_two.mp (beq_iff_eq.mp ha)
      obtain ⟨-, h₁, h₂⟩ := shaped_apply_iff.mp h
      obtain ⟨c, hc⟩ := hi f (by simp) h₁
      obtain ⟨d, hd⟩ := hi a (by simp) h₂
      exact ⟨_, .apply hc hd⟩
    case unary op =>
      obtain ⟨e, rfl⟩ := List.length_eq_one_iff.mp (beq_iff_eq.mp ha)
      obtain ⟨c, hc⟩ := hi e (by simp) (shaped_unary_iff.mp h).2
      exact ⟨_, .unary op hc⟩
    case binary op =>
      obtain ⟨l, r, rfl⟩ := List.length_eq_two.mp (beq_iff_eq.mp ha)
      obtain ⟨-, h₁, h₂⟩ := shaped_binary_iff.mp h
      obtain ⟨c, hc⟩ := hi l (by simp) h₁
      obtain ⟨d, hd⟩ := hi r (by simp) h₂
      exact ⟨_, .binary op hc hd⟩

theorem Elaborates.shaped {c : Core} (h : Elaborates s c) (hs : Plain s) :
    Shaped single .expression s := by
  induction h
  case leaf l c hl =>
    refine .literal ?_
    rintro rfl
    cases hl
  case lambda hp _ hi =>
    have hn := hs.of_mem (.head _)
    have he := hs.of_mem (.tail _ (.head _))
    simpa using ⟨hn.parameterNames_iff.mp ⟨_, hp⟩, hi he⟩
  case apply hf ha =>
    simpa using ⟨hf (hs.of_mem (.head _)), ha (hs.of_mem (.tail _ (.head _)))⟩
  case tuple parts hl _ hi =>
    refine shaped_tau_iff.mpr ⟨rfl, by simpa using hl, List.forall_mem_map.mpr fun x hx => ?_⟩
    exact hi x hx (hs.of_mem (List.mem_map_of_mem hx))
  case unary he => simpa using he (hs.of_mem (.head _))
  case binary hl hr =>
    simpa using ⟨hl (hs.of_mem (.head _)), hr (hs.of_mem (.tail _ (.head _)))⟩
  case conditional hi ht he =>
    simpa using ⟨hi (hs.of_mem (.head _)), ht (hs.of_mem (.tail _ (.head _))),
      he (hs.of_mem (.tail _ (.tail _ (.head _))))⟩

end

section

variable {t : Tree} {sink : Sink}

theorem load_eq_ok_iff {m : Machine} :
    t.load sink = .ok m ↔ ∃ s n, Desugars t s ∧ s.machine sink = .ok (m, n) := by
  rw [load, Except.bind_eq_ok]
  simp only [desugar_eq_ok_iff, Except.bind_eq_ok, pure, Except.pure, Except.ok.injEq]
  constructor
  case mp  => rintro ⟨s, hs, ⟨_, n⟩, hm, rfl⟩; exact ⟨s, n, hs, hm⟩
  case mpr => rintro ⟨s, n, hs, hm⟩; exact ⟨s, hs, _, hm, rfl⟩

theorem exists_load_iff : (∃ m, t.load sink = .ok m) ↔ WellFormed .expression t := by
  constructor
  case mp =>
    rintro ⟨m, hm⟩
    obtain ⟨s, n, hs, hm⟩ := load_eq_ok_iff.mp hm
    obtain ⟨core, k, hc, -⟩ := machine_eq_ok_iff.mp hm
    exact hs.shaped_iff.mp ((elaborates_of_number s hc).shaped hs.plain)
  case mpr =>
    intro h
    obtain ⟨s, hs⟩ := h.exists_desugars
    obtain ⟨c, hc⟩ := hs.plain.exists_elaborates (hs.shaped_iff.mpr h)
    obtain ⟨core, k, hk⟩ := hc.total {}
    exact ⟨_, load_eq_ok_iff.mpr ⟨s, _, hs, machine_eq_ok_iff.mpr ⟨core, k, hk, rfl, rfl⟩⟩⟩

-- A program that is not loaded is not run.
theorem evaluate_of_load_eq_error {e : ShapeFault} (h : t.load sink = .error e) (limit : Nat) :
    t.evaluate limit sink = some (.error (.shape e), sink) := by
  rw [evaluate, h]

theorem trace_of_load_eq_error {e : ShapeFault} (h : t.load sink = .error e) (limit : Nat) :
    ∃ events, t.trace limit sink = .refused events e := by
  rw [load] at h
  rw [trace]
  cases hs : t.desugar
  case error =>
    rw [hs] at h
    cases h
    exact ⟨_, rfl⟩
  case ok s =>
    cases hm : s.machine sink
    case error =>
      simp only [hs, hm, bind, Except.bind] at h
      cases h
      exact ⟨[.desugared s.tag], by simp only [hm]⟩
    case ok => simp [hs, hm, bind, Except.bind, pure, Except.pure] at h

-- The children of a form are as many after they have been rewritten, and none has too few or too
-- many children of its own.
theorem legal_of_desugarForest {f : Form} {ts us : List Tree} (ha : f.arity.accepts ts.length)
    (h : desugarForest ts = .ok us) :
    f.arity.accepts us.length ∧ ∀ u ∈ us, u.hasLegalArity := by
  obtain ⟨pairs, rfl, rfl, hp⟩ := desugars_of_desugarForest ts h
  refine ⟨by simpa using ha, pairs.forall_after.mpr fun x hx => ?_⟩
  exact (hp x hx).plain.legal _ .root

-- Exactly the well-formed expressions become a machine. Whatever else is evaluated ends with the
-- fault of the tree; nothing is run and nothing written. Wherever a form is rewritten or turned
-- into code it has a number of children that it admits, and so has each of its definitions.
theorem admits_iff_wellFormed (t : Tree) (sink : Sink) :
    ((∃ m, t.load sink = .ok m) ↔ WellFormed .expression t) ∧
    (¬ WellFormed .expression t → ∃ e, t.load sink = .error e ∧ ∀ limit,
      t.evaluate limit sink = some (.error (.shape e), sink) ∧
      ∃ events, t.trace limit sink = .refused events e) ∧
    (∀ f ts us, Subtree (form f ts) t → f.arity.accepts ts.length → desugarForest ts = .ok us →
      f.arity.accepts us.length ∧ ∀ u ∈ us, u.hasLegalArity) ∧
    (∀ s, t.desugar = .ok s → ∀ u, Subtree u s → u.hasLegalArity) := by
  refine ⟨exists_load_iff, ?_, fun f ts us _ => legal_of_desugarForest, ?_⟩
  case refine_1 =>
    intro h
    cases he : t.load sink
    case ok m => exact absurd (exists_load_iff.mp ⟨m, he⟩) h
    case error e =>
      exact ⟨e, rfl, fun limit =>
        ⟨evaluate_of_load_eq_error he limit, trace_of_load_eq_error he limit⟩⟩
  case refine_2 => exact fun s hs => (desugars_of_desugar t hs).plain.legal

end

end Tree

end RpalMachine
