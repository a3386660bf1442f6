import RpalMachine.Proofs.Admission
import RpalMachine.Proofs.Limits

namespace RpalMachine

namespace Category

-- What the trees of a category stand for.
def role : Category → Role
  | definition | simultaneous | recursion | binding => .definition
  | parameter | names                               => .parameter
  | name                                            => .name
  | _                                               => .expression

theorem role_of_alone? {c d : Category} (h : c.alone? = some d) :
    d.role = c.role ∨ d.role = .name ∧ (c.role = .expression ∨ c.role = .parameter) := by
  cases c <;> cases h <;> simp [role]

theorem role_of_operators {c d : Category} {x : Lexeme × BinaryOperator} (h : x ∈ c.operators)
    (hd : c.alone? = some d) : c.role = .expression ∧ d.role = .expression := by
  cases c <;> cases hd <;> first | exact ⟨rfl, rfl⟩ | contradiction

theorem role_of_series? {c d : Category} {mark : Lexeme} {f : Form}
    (h : c.series? = some (d, mark, f)) :
    c.role = f.role ∧ f.arity = .atLeast 2 ∧
      (∀ n, f.roles? (n + 2) = some (.replicate (n + 2) d.role)) ∧
      (f = .simultaneous → d.role = .definition) := by
  cases c <;> cases h <;> exact ⟨rfl, rfl, fun _ => rfl, by simp [role]⟩

end Category

namespace Tree

-- The definition is of several names, or of several definitions.
inductive Compound : Tree → Prop
  | names (ts : List Tree) (v : Tree) : Compound (.equal (form .comma ts) v)
  | simultaneous (ds : List Tree) : Compound (form .simultaneous ds)
  | within (d₁ : Tree) {d₂ : Tree} : Compound d₂ → Compound (form .within [d₁, d₂])
  | recursive {d : Tree} : Compound d → Compound (form .recursive [d])

theorem Compound.not_single {d : Tree} (h : Compound d) : ¬ Single d := by
  rintro ⟨x, hx⟩
  induction h
  case names => simp at hx
  case simultaneous => simp at hx
  case within hi => exact hi (defines_within_iff.mp hx)
  case recursive hi => exact hi (defines_recursive_iff.mp hx)

end Tree

open RpalMachine.Tree

namespace Derives

variable {c : Category} {ls : List Lexeme} {t : Tree}

theorem name_or_comma (h : Derives .names ls t) :
    (∃ x, t = Tree.name x) ∨ ∃ ts, t = form .comma ts := by
  cases h
  case alone hd h =>
    cases hd
    have ⟨x, _, ht⟩ := h.eq_of_name
    exact .inl ⟨x, ht⟩
  case chain => contradiction
  case series _ _ _ hs =>
    cases hs
    exact .inr ⟨_, rfl⟩

-- What is defined together need not be of a single name each.
theorem single_or_compound (h : Derives c ls t) (hc : c.role = .definition) :
    Single t ∨ Compound t := by
  induction h
  case alone hd _ hi =>
    obtain hr | ⟨-, hr | hr⟩ := Category.role_of_alone? hd
    case inl => exact hi (hr.trans hc)
    all_goals rw [hr] at hc; contradiction
  case chain ho hd _ _ _ _ =>
    rw [(Category.role_of_operators ho hd).1] at hc
    contradiction
  case series c _ _ _ _ _ _ hs _ _ _ _ _ =>
    cases c <;> cases hs <;> cases hc
    exact .inr (.simultaneous _)
  case within d _ _ _ hi =>
    obtain ⟨x, hx⟩ | hd := hi rfl
    case inl => exact .inl ⟨x, .within _ hx⟩
    case inr => exact .inr (.within _ hd)
  case recursive hi =>
    obtain ⟨x, hx⟩ | hd := hi rfl
    case inl => exact .inl ⟨x, .recursive hx⟩
    case inr => exact .inr (.recursive hd)
  case equal hn _ _ _ =>
    obtain ⟨x, rfl⟩ | ⟨ts, rfl⟩ := hn.name_or_comma
    case inl => exact .inl ⟨x, .equal _⟩
    case inr => exact .inr (.names _ _)
  case function x _ _ _ _ _ => exact .inl ⟨x, .function _⟩
  case parenthesizedDefinition hi => exact hi rfl
  all_goals cases hc

theorem shaped (h : Derives c ls t) : Shaped (fun d => Single d ∨ Compound d) c.role t := by
  induction h
  case alone hd _ hi =>
    obtain hr | ⟨hr, hc⟩ := Category.role_of_alone? hd
    case inl => exact hr ▸ hi
    case inr =>
      rw [hr, shaped_name_iff] at hi
      obtain ⟨x, rfl⟩ := hi
      simpa using hc.imp_right .inl
  case chain ho hd _ _ ht hu =>
    have ⟨hc, hd⟩ := Category.role_of_operators ho hd
    rw [hc] at ht ⊢
    exact shaped_binary_iff.mpr ⟨rfl, ht, hd ▸ hu⟩
  case series hs hne h hps ht hp =>
    have ⟨hc, ha, hr, hd⟩ := Category.role_of_series? hs
    refine (shaped_uniform_iff ha hr).mpr ⟨hc, ?_, ?_, ?_⟩
    case refine_1 =>
      have := List.length_pos_of_ne_nil hne
      simp [Pieces.trees]
      omega
    case refine_2 => exact List.forall_mem_cons.mpr ⟨ht, List.forall_mem_map.mpr hp⟩
    case refine_3 =>
      intro hf
      exact List.forall_mem_cons.mpr ⟨h.single_or_compound (hd hf),
        List.forall_mem_map.mpr fun p hp => (hps p hp).single_or_compound (hd hf)⟩
  case letIn hd ht => exact shaped_letIn_iff.mpr ⟨rfl, hd, ht⟩
  case lambda pieces _ _ hne _ _ hp ht =>
    refine (shaped_lambda_iff ?_).mpr ⟨rfl, List.forall_mem_map.mpr hp, ht⟩
    simpa [Pieces.trees]
  case whereIn ht hd => exact shaped_whereIn_iff.mpr ⟨rfl, ht, hd⟩
  case conditional ht hu hv => exact shaped_conditional_iff.mpr ⟨rfl, ht, hu, hv⟩
  case negation ht | minus ht => exact shaped_unary_iff.mpr ⟨rfl, ht⟩
  case comparison ht hu | power ht hu => exact shaped_binary_iff.mpr ⟨rfl, ht, hu⟩
  case plus ht => exact ht
  case infixCall x _ _ ht hu => exact shaped_infixCall_iff.mpr ⟨rfl, ht, .literal (by simp), hu⟩
  case application ht hu => exact shaped_apply_iff.mpr ⟨rfl, ht, hu⟩
  case integer | string | truth | nil | dummy => exact .literal (by simp)
  case parenthesized ht => exact ht
  case within hd he => exact shaped_within_iff.mpr ⟨rfl, hd, he⟩
  case recursive hd => exact shaped_recursive_iff.mpr ⟨rfl, hd⟩
  case equal hn ht => exact shaped_equal_iff.mpr ⟨rfl, hn, ht⟩
  case function pieces _ _ x hne _ _ hp ht =>
    refine (shaped_function_iff ?_).mpr ⟨rfl, .parameter x, List.forall_mem_map.mpr hp, ht⟩
    simpa [Pieces.trees]
  case parenthesizedDefinition hd => exact hd
  case noParameters => exact .unit
  case parenthesizedNames hn => exact hn
  case name x => exact .name x

end Derives

namespace Tree

section

variable {t s u : Tree} {single single' : Tree → Prop} {role : Role}

-- Definitions that hold together, of which one is of something else than a single name.
def Entangled (t : Tree) : Prop :=
  ∃ ds, Subtree (form .simultaneous ds) t ∧ ∃ d ∈ ds, ¬ Single d

theorem Shaped.of_branches (h : Shaped single role t)
    (hb : ∀ ds, Subtree (Tree.form .simultaneous ds) t → ∀ d ∈ ds, single' d) :
    Shaped single' role t := by
  induction h
  case literal h => exact .literal h
  case parameter x => exact .parameter x
  case unit => exact .unit
  case name x => exact .name x
  case form f ts roles hf hr _ _ hi =>
    refine .form hf hr (fun x hx => hi x hx fun ds hd => ?_) fun he t ht => ?_
    case refine_1 => exact hb ds (.inside (List.of_mem_zip hx).2 hd)
    case refine_2 => exact hb ts (he ▸ .root) t ht

theorem Shaped.branches (h : Shaped single role t) {ds : List Tree}
    (hs : Subtree (Tree.form .simultaneous ds) t) : ∀ d ∈ ds, single d := by
  induction h
  case form ts _ _ hr _ hd hi =>
    obtain he | ⟨u, hu, hs⟩ := subtree_node_iff.mp hs
    case inl => cases he; exact hd rfl
    case inr =>
      have hc : ∀ u ∈ ts, Subtree (Tree.form .simultaneous ds) u → ∀ d ∈ ds, single d :=
        forall_of_forall_zip hr hi
      exact hc u hu hs
  all_goals
    obtain he | ⟨u, hu, -⟩ := subtree_node_iff.mp hs
    case inl => cases he
    case inr => simp at hu

theorem wellFormed_iff (h : Shaped single role t) : WellFormed role t ↔ ¬ Entangled t := by
  constructor
  case mp =>
    rintro hw ⟨ds, hs, d, hd, hn⟩
    exact hn (hw.branches hs d hd)
  case mpr =>
    intro he
    exact h.of_branches fun ds hs d hd => by_contra fun hn => he ⟨ds, hs, d, hd, hn⟩

-- What is below a tree is free of sugar at the end if the tree is.
theorem Desugars.exists_of_subtree (h : Desugars t s) (hu : Subtree u t) :
    ∃ v, Desugars u v := by
  induction hu generalizing s
  case root => exact ⟨s, h⟩
  case inside tag t ts ht _ hi =>
    cases tag
    case leaf =>
      obtain ⟨rfl, -⟩ := desugar_leaf_eq_ok_iff.mp h.desugar_eq_ok
      simp at ht
    case form =>
      obtain ⟨-, us, hus, -⟩ := desugar_form_eq_ok_iff.mp h.desugar_eq_ok
      obtain ⟨pairs, rfl, -, hp⟩ := desugars_of_desugarForest ts hus
      obtain ⟨x, hx, rfl⟩ := List.mem_map.mp ht
      exact hi (hp x hx)

theorem Desugars.branches (h : Desugars t s) {ds : List Tree}
    (hd : Subtree (form .simultaneous ds) t) : ∀ d ∈ ds, Single d := by
  obtain ⟨v, hv⟩ := h.exists_of_subtree hd
  generalize hu : form .simultaneous ds = u at hv
  cases hv <;> cases hu
  case kept => contradiction
  case simultaneous parts _ hp =>
    exact parts.forall_before.mpr fun x hx => ⟨x.2.1, (hp x hx).defines_iff.mpr rfl⟩

end

-- A program that is read is no higher than the limit, and each node has as many children as its tag
-- admits. It becomes a machine unless a definition that holds together with others is of several
-- names or of several definitions; such a program is refused when its sugar is removed.
theorem ofSource_admits {depth : Nat} {source : String} {t : Tree}
    (h : ofSource depth source = .ok t) :
    t.height ≤ depth ∧ (∀ u, Subtree u t → u.hasLegalArity) ∧
    (∀ sink, (∃ m, t.load sink = .ok m) ↔ ¬ Entangled t) ∧
    ((∃ e, t.desugar = .error e) ↔ Entangled t) ∧
    (∀ ds, Subtree (form .simultaneous ds) t → ∀ d ∈ ds, ¬ Single d ↔ Compound d) := by
  obtain ⟨tokens, -, hd⟩ := ofSource_sound h
  have hs : Shaped _ .expression t := hd.shaped
  refine ⟨height_le_of_ofSource h, hs.legal, fun sink => ?_, ⟨?_, ?_⟩, fun ds hds d hd => ⟨?_, ?_⟩⟩
  case refine_1 => exact exists_load_iff.trans (wellFormed_iff hs)
  case refine_2 =>
    rintro ⟨e, he⟩
    refine by_contra fun hn => ?_
    obtain ⟨s, hs⟩ := ((wellFormed_iff hs).mpr hn).exists_desugars
    rw [hs.desugar_eq_ok] at he
    contradiction
  case refine_3 =>
    rintro ⟨ds, hds, d, hd, hn⟩
    cases he : t.desugar
    case ok s    => exact absurd ((desugars_of_desugar t he).branches hds d hd) hn
    case error e => exact ⟨e, rfl⟩
  case refine_4 => exact fun hn => (hs.branches hds d hd).resolve_left hn
  case refine_5 => exact Compound.not_single

-- A definition of two names beside one of a single name.
def entangled : Tree :=
  form .letIn [form .simultaneous [.equal (form .comma [.name "x", .name "y"]) (.name "p"),
    .equal (.name "z") (.name "q")], .name "z"]

theorem entangled_admits :
    ofSource 8 "let x, y = p and z = q in z" = .ok entangled ∧ Entangled entangled ∧
      ∃ e, entangled.desugar = .error e := by
  have h : ofSource 8 "let x, y = p and z = q in z" = .ok entangled :=
    Except.eq_ok_of_toOption (by decide +kernel)
  have he : Entangled entangled :=
    ⟨_, .inside (.head _) .root, _, .head _, Compound.not_single (.names _ _)⟩
  exact ⟨h, he, (ofSource_admits h).2.2.2.1.mpr he⟩

end Tree

end RpalMachine
