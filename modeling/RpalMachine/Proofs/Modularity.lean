import RpalMachine.Proofs.WellFormed

namespace RpalMachine

-- Whether no node of the form is left without sugar.
def Form.isSugar : Form → Bool
  | letIn | whereIn | function | within | simultaneous | recursive | infixCall => true
  | _ => false

namespace Tree

-- The tree at a position, which is a way down from the root. Children are counted from 0.
def at? : Tree → List Nat → Option Tree
  | t, []                    => some t
  | node _ ts, i :: position => ts[i]?.bind (·.at? position)

-- Puts another tree at a position.
def replaceAt : Tree → List Nat → Tree → Tree
  | _, [], s                      => s
  | node tag ts, i :: position, s => node tag (ts.modify i (·.replaceAt position s))

-- Every node has as many children as its tag admits, none is sugar, and each lambda has one
-- parameter.
structure Standard (t : Tree) : Prop where
  legal     : t.Legal
  sugarless : ∀ f ts, Subtree (form f ts) t → f.isSugar = false
  curried   : ∀ ts, Subtree (form .lambda ts) t → ts.length = 2

section

variable {t s c : Tree} {ts : List Tree} {tag : Tag}

theorem desugarForest_modify {g : Tree → Tree} {i : Nat} (ht : ts[i]? = some t)
    (h : (g t).desugar = t.desugar) : desugarForest (ts.modify i g) = desugarForest ts := by
  induction ts generalizing i
  case nil => contradiction
  case cons u ts hi =>
    cases i
    case zero =>
      cases ht
      simp only [List.modify_zero_cons, desugarForest, h]
    case succ i =>
      have ht : ts[i]? = some t := by simpa using ht
      simp only [List.modify_succ_cons, desugarForest, hi ht]

-- Two trees of which the same is left, or which are refused for the same reason, can stand for each
-- other wherever they are.
theorem desugar_replaceAt {position : List Nat} (ht : c.at? position = some t)
    (h : s.desugar = t.desugar) : (c.replaceAt position s).desugar = c.desugar := by
  induction position generalizing c
  case nil =>
    cases ht
    simpa only [replaceAt] using h
  case cons i position hi =>
    obtain ⟨tag, ts⟩ := c
    have ⟨u, hu, ht⟩ := Option.bind_eq_some_iff.mp ht
    have hf := desugarForest_modify (g := (·.replaceAt position s)) hu (hi ht)
    simp only [replaceAt, desugar, List.length_modify, hf]

theorem Plain.desugars (h : Plain t) : Desugars t t := by
  induction h
  case leaf l => exact .leaf l
  case lambda n e _ _ hn he => exact @Desugars.lambda [(n, n)] e e (by simp) (by simpa using hn) he
  case form f ts hf ha _ hi =>
    have h := @Desugars.kept f (ts.map fun t => (t, t)) hf (by simpa using ha)
      (List.forall_mem_map.mpr hi)
    simpa [Rewritten.before, Rewritten.after, Function.comp_def] using h

theorem desugar_eq_self_iff_plain : t.desugar = .ok t ↔ Plain t where
  mp h  := (desugars_of_desugar t h).plain
  mpr h := h.desugars.desugar_eq_ok

theorem desugar_of_desugar (h : t.desugar = .ok s) : s.desugar = .ok s :=
  desugar_eq_self_iff_plain.mpr (desugars_of_desugar t h).plain

theorem standard_leaf_iff {l : Leaf} : (node (.leaf l) ts).Standard ↔ ts = [] := by
  constructor
  case mp =>
    intro h
    simpa [Tag.arity, Arity.accepts] using (legal_node_iff.mp h.legal).1
  case mpr =>
    intro h
    subst h
    have hl : (node (.leaf l) []).Legal := legal_node_iff.mpr ⟨rfl, by simp⟩
    exact ⟨hl, by simp [subtree_node_iff], by simp [subtree_node_iff]⟩

theorem standard_form_iff {f : Form} : (form f ts).Standard ↔
    f.arity.accepts ts.length ∧ f.isSugar = false ∧ (f = .lambda → ts.length = 2) ∧
      ∀ t ∈ ts, t.Standard := by
  constructor
  case mp =>
    intro h
    have ⟨ha, hl⟩ := legal_node_iff.mp h.legal
    refine ⟨ha, h.sugarless f ts .root, fun hf => h.curried ts (hf ▸ .root), fun t ht => ?_⟩
    exact ⟨hl t ht, fun f us hs => h.sugarless f us (.inside ht hs),
      fun us hs => h.curried us (.inside ht hs)⟩
  case mpr =>
    intro ⟨ha, hf, hc, h⟩
    refine ⟨legal_node_iff.mpr ⟨ha, fun t ht => (h t ht).legal⟩, fun g us hs => ?_, fun us hs => ?_⟩
    case refine_1 =>
      match subtree_node_iff.mp hs with
      | .inl he           => cases he; exact hf
      | .inr ⟨t, ht, hs⟩ => exact (h t ht).sugarless g us hs
    case refine_2 =>
      match subtree_node_iff.mp hs with
      | .inl he           => cases he; exact hc rfl
      | .inr ⟨t, ht, hs⟩ => exact (h t ht).curried us hs

theorem Plain.standard (h : Plain t) : t.Standard := by
  induction h
  case leaf              => exact standard_leaf_iff.mpr rfl
  case lambda hn he      => exact standard_form_iff.mpr ⟨rfl, rfl, fun _ => rfl, by simp [hn, he]⟩
  case form f ts hf ha _ hi =>
    refine standard_form_iff.mpr ⟨ha, ?_, ?_, hi⟩
    all_goals cases f <;> simp [Form.isPlain] at hf ⊢ <;> rfl

mutual

theorem Standard.plain : (t : Tree) → t.Standard → Plain t
  | node (.leaf l) ts, h => standard_leaf_iff.mp h ▸ .leaf l
  | node (.form f) ts, h => by
    have ⟨ha, hf, hc, h⟩ := standard_form_iff.mp h
    have hts := Standard.forall_plain ts h
    by_cases hl : f = .lambda
    case pos =>
      subst hl
      obtain ⟨n, e, rfl⟩ := List.length_eq_two.mp (hc rfl)
      exact .lambda (hts n (by simp)) (hts e (by simp))
    case neg =>
      refine .form ?_ ha hts
      cases f <;> first | rfl | contradiction

theorem Standard.forall_plain : (ts : List Tree) → (∀ t ∈ ts, t.Standard) → ∀ t ∈ ts, Plain t
  | [], _      => by simp
  | t :: ts, h => by
    have ⟨ht, hts⟩ := List.forall_mem_cons.mp h
    exact List.forall_mem_cons.mpr ⟨Standard.plain t ht, Standard.forall_plain ts hts⟩

end

end

-- Freeing a part of a tree of its sugar first changes nothing, neither what is left of the tree nor
-- why it is refused. In particular what is left of a tree is left as it is, and so are exactly the
-- trees in standard form.
theorem desugar_modular :
    (∀ (c t s : Tree) (position : List Nat), c.at? position = some t → t.desugar = .ok s →
      (c.replaceAt position s).desugar = c.desugar) ∧
    (∀ t s : Tree, t.desugar = .ok s → s.desugar = .ok s) ∧
    (∀ t : Tree, t.desugar = .ok t ↔ t.Standard) := by
  refine ⟨fun c t s position ht hs => ?_, fun t s => desugar_of_desugar, fun t => ?_⟩
  case refine_1 => exact desugar_replaceAt ht ((desugar_of_desugar hs).trans hs.symm)
  case refine_2 => exact desugar_eq_self_iff_plain.trans ⟨Plain.standard, Standard.plain t⟩

-- A function of two parameters that is called between its arguments.
def projected : Tree :=
  form .letIn [form .function [name "f", name "x", name "y", name "x"],
    form .infixCall [leaf (.integer 1), name "f", leaf (.integer 2)]]

def standardProjected : Tree :=
  apply (lambda (name "f") (apply (apply (name "f") (leaf (.integer 1))) (leaf (.integer 2))))
    (lambda (name "x") (lambda (name "y") (name "x")))

-- The sum of a tree and of a negation that lacks its operand.
def lopsided (t : Tree) : Tree :=
  form (.binary .add) [t, form (.unary .neg) []]

theorem projected_modular :
    (lopsided projected).at? [0] = some projected ∧ projected.desugar = .ok standardProjected ∧
      (lopsided standardProjected).desugar = (lopsided projected).desugar ∧
      (lopsided projected).desugar = .error (.childCount (.form (.unary .neg)) 0) ∧
      standardProjected.desugar = .ok standardProjected :=
  ⟨rfl, rfl, desugar_modular.1 (lopsided projected) projected standardProjected [0] rfl rfl, rfl,
    desugar_modular.2.1 projected standardProjected rfl⟩

end Tree

end RpalMachine
