import RpalMachine.Sugar
import Mathlib.Data.List.Basic

namespace RpalMachine

theorem Except.bind_eq_ok {x : Except ε α} {f : α → Except ε β} {b : β} :
    (x >>= f) = .ok b ↔ ∃ a, x = .ok a ∧ f a = .ok b := by
  cases x <;> simp [bind, Except.bind]

theorem Except.eq_ok_of_toOption {x : Except ε α} {a : α} (h : x.toOption = some a) :
    x = .ok a := by
  cases x <;> cases h
  rfl

-- Whether a tree of the form is kept as it is, but for its children.
def Form.isPlain : Form → Bool
  | tau | conditional | gamma | equal | comma | unary _ | binary _ => true
  | _ => false

namespace Tree

-- Trees, each with what is left of it.
abbrev Rewritten :=
  List (Tree × Tree)

namespace Rewritten

variable (pairs : Rewritten)

def before : List Tree :=
  pairs.map (·.1)

def after : List Tree :=
  pairs.map (·.2)

@[simp]
theorem length_before : pairs.before.length = pairs.length :=
  List.length_map _

@[simp]
theorem length_after : pairs.after.length = pairs.length :=
  List.length_map _

@[simp]
theorem before_cons (x : Tree × Tree) : before (x :: pairs) = x.1 :: before pairs :=
  rfl

@[simp]
theorem after_cons (x : Tree × Tree) : after (x :: pairs) = x.2 :: after pairs :=
  rfl

theorem before_concat (t u : Tree) : before (pairs ++ [(t, u)]) = before pairs ++ [t] :=
  List.map_append

theorem after_concat (t u : Tree) : after (pairs ++ [(t, u)]) = after pairs ++ [u] :=
  List.map_append

theorem before_ne_nil {pairs : Rewritten} (h : pairs ≠ []) : pairs.before ≠ [] := by
  simpa [before]

theorem after_ne_nil {pairs : Rewritten} (h : pairs ≠ []) : pairs.after ≠ [] := by
  simpa [after]

theorem forall_before {p : Tree → Prop} : (∀ t ∈ pairs.before, p t) ↔ ∀ x ∈ pairs, p x.1 :=
  List.forall_mem_map

theorem forall_after {p : Tree → Prop} : (∀ t ∈ pairs.after, p t) ↔ ∀ x ∈ pairs, p x.2 :=
  List.forall_mem_map

end Rewritten

-- Definitions that hold together, each with the name that it defines and the value of that.
abbrev Branches :=
  List (Tree × String × Tree)

namespace Branches

variable (parts : Branches)

def rewritten : Rewritten :=
  parts.map fun x => (x.1, equal (name x.2.1) x.2.2)

@[simp]
theorem rewritten_cons (x : Tree × String × Tree) :
    rewritten (x :: parts) = (x.1, equal (name x.2.1) x.2.2) :: rewritten parts :=
  rfl

def names : List Tree :=
  parts.map fun x => name x.2.1

def values : List Tree :=
  parts.map (·.2.2)

@[simp]
theorem length_rewritten : parts.rewritten.length = parts.length :=
  List.length_map _

@[simp]
theorem length_names : parts.names.length = parts.length :=
  List.length_map _

@[simp]
theorem length_values : parts.values.length = parts.length :=
  List.length_map _

theorem forall_before {p : Tree → Prop} :
    (∀ t ∈ parts.rewritten.before, p t) ↔ ∀ x ∈ parts, p x.1 := by
  rw [Rewritten.forall_before, rewritten, List.forall_mem_map]

theorem forall_names {p : Tree → Prop} : (∀ t ∈ parts.names, p t) ↔ ∀ x ∈ parts, p (name x.2.1) :=
  List.forall_mem_map

theorem forall_values {p : Tree → Prop} : (∀ t ∈ parts.values, p t) ↔ ∀ x ∈ parts, p x.2.2 :=
  List.forall_mem_map

end Branches

-- Lambdas within each other, the first parameter outermost.
def curry (params : List Tree) (body : Tree) : Tree :=
  params.foldr lambda body

@[simp]
theorem curry_cons (param body : Tree) (params : List Tree) :
    curry (param :: params) body = lambda param (curry params body) :=
  rfl

-- If there are parameters, what they are taken apart into is a lambda of the first one.
theorem Rewritten.curry_after_eq {pairs : Rewritten} (h : pairs ≠ []) :
    ∃ n ns, ∀ body, curry pairs.after body = lambda n (curry ns body) := by
  obtain ⟨n, ns, he⟩ := List.exists_cons_of_ne_nil (after_ne_nil h)
  exact ⟨n, ns, fun body => he ▸ rfl⟩

-- A tree and what is left of it.
inductive Desugars : Tree → Tree → Prop
  | leaf (l : Leaf) : Desugars (.leaf l) (.leaf l)
  | kept {f : Form} {pairs : Rewritten} :
    f.isPlain → f.arity.accepts pairs.length → (∀ x ∈ pairs, Desugars x.1 x.2) →
      Desugars (form f pairs.before) (form f pairs.after)
  | letIn {d e n v b : Tree} :
    Desugars d (equal n v) → Desugars e b → Desugars (form .letIn [d, e]) (apply (lambda n b) v)
  | whereIn {e d b n v : Tree} :
    Desugars e b → Desugars d (equal n v) → Desugars (form .whereIn [e, d]) (apply (lambda n b) v)
  | lambda {pairs : Rewritten} {e b : Tree} :
    pairs ≠ [] → (∀ x ∈ pairs, Desugars x.1 x.2) → Desugars e b →
      Desugars (form .lambda (pairs.before ++ [e])) (curry pairs.after b)
  | function {m n : Tree} {pairs : Rewritten} {e b : Tree} :
    Desugars m n → pairs ≠ [] → (∀ x ∈ pairs, Desugars x.1 x.2) → Desugars e b →
      Desugars (form .function (m :: (pairs.before ++ [e]))) (equal n (curry pairs.after b))
  | within {d₁ d₂ n₁ v₁ n₂ v₂ : Tree} :
    Desugars d₁ (equal n₁ v₁) → Desugars d₂ (equal n₂ v₂) →
      Desugars (form .within [d₁, d₂]) (equal n₂ (apply (lambda n₁ v₂) v₁))
  | infixCall {l m r l' m' r' : Tree} :
    Desugars l l' → Desugars m m' → Desugars r r' →
      Desugars (form .infixCall [l, m, r]) (apply (apply m' l') r')
  | simultaneous {parts : Branches} :
    2 ≤ parts.length → (∀ x ∈ parts, Desugars x.1 (equal (name x.2.1) x.2.2)) →
      Desugars (form .simultaneous parts.rewritten.before)
        (equal (form .comma parts.names) (form .tau parts.values))
  | recursive {d n v : Tree} :
    Desugars d (equal n v) →
      Desugars (form .recursive [d]) (equal n (apply (.leaf .yStar) (lambda n v)))

-- Trees without sugar, every node of which has as many children as its tag admits.
inductive Plain : Tree → Prop
  | leaf (l : Leaf) : Plain (.leaf l)
  | lambda {n e : Tree} : Plain n → Plain e → Plain (lambda n e)
  | form {f : Form} {ts : List Tree} :
    f.isPlain → f.arity.accepts ts.length → (∀ t ∈ ts, Plain t) → Plain (form f ts)

namespace Plain

variable {n v e : Tree} {ts params : List Tree}

theorem apply (hf : Plain n) (ha : Plain v) : Plain (apply n v) :=
  .form rfl rfl (by simp [hf, ha])

theorem equal (hn : Plain n) (hv : Plain v) : Plain (equal n v) :=
  .form rfl rfl (by simp [hn, hv])

theorem of_mem {f : Form} {t : Tree} (h : Plain (.form f ts)) (ht : t ∈ ts) : Plain t := by
  cases h
  case lambda hn he =>
    simp only [List.mem_cons, List.not_mem_nil, or_false] at ht
    cases ht
    case inl ht => exact ht ▸ hn
    case inr ht => exact ht ▸ he
  case form _ hts _ => exact hts t ht

theorem curry (he : Plain e) (h : ∀ n ∈ params, Plain n) : Plain (curry params e) := by
  induction params
  case nil => exact he
  case cons hi =>
    rw [List.forall_mem_cons] at h
    exact .lambda h.1 (hi h.2)

-- A name has nothing below it.
theorem eq_name (h : Plain n) {x : String} (hx : n.name? = some x) : n = name x := by
  cases h
  case leaf l =>
    cases l <;> cases hx
    rfl
  all_goals contradiction

end Plain

namespace Desugars

variable {t s : Tree}

theorem plain (h : Desugars t s) : Plain s := by
  induction h
  case leaf l => exact .leaf l
  case kept hf ha _ hi => exact .form hf (by simpa using ha) (Rewritten.forall_after _ |>.mpr hi)
  case letIn hd he | whereIn he hd =>
    exact .apply (.lambda (hd.of_mem (.head _)) he) (hd.of_mem (.tail _ (.head _)))
  case lambda hi he => exact he.curry (Rewritten.forall_after _ |>.mpr hi)
  case function hm hi he => exact hm.equal (he.curry (Rewritten.forall_after _ |>.mpr hi))
  case within h₁ h₂ =>
    have hv := h₂.of_mem (.tail _ (.head _))
    exact .equal (h₂.of_mem (.head _))
      (.apply (.lambda (h₁.of_mem (.head _)) hv) (h₁.of_mem (.tail _ (.head _))))
  case infixCall hl hm hr => exact .apply (.apply hm hl) hr
  case simultaneous parts hlen _ hi =>
    have hv : ∀ x ∈ parts, Plain x.2.2 := fun x hx => (hi x hx).of_mem (.tail _ (.head _))
    refine .equal (.form rfl ?_ ?_) (.form rfl ?_ ?_)
    case refine_1 => simpa [Form.arity, Arity.accepts] using hlen
    case refine_2 => exact parts.forall_names.mpr fun _ _ => .leaf _
    case refine_3 => simpa [Form.arity, Arity.accepts] using hlen
    case refine_4 => exact parts.forall_values.mpr hv
  case recursive hd =>
    have hn := hd.of_mem (.head _)
    exact .equal hn (.apply (.leaf .yStar) (.lambda hn (hd.of_mem (.tail _ (.head _)))))

end Desugars

@[simp]
theorem checkArity_eq_ok_iff {tag : Tag} {count : Nat} :
    checkArity tag count = .ok () ↔ tag.arity.accepts count := by
  simp [checkArity]

theorem sides_eq_ok_iff {user : Form} {t n v : Tree} :
    sides user t = .ok (n, v) ↔ t = equal n v := by
  constructor
  case mp =>
    intro h
    rw [sides.eq_def] at h
    split at h <;> cases h
    rfl
  case mpr => rintro rfl; rfl

theorem forall_of_branches {ts : List Tree} {parts : List (Tree × Tree)}
    (h : branches ts = .ok parts) : ∀ t ∈ ts, ∃ n v, t = equal n v ∧ n.name?.isSome := by
  induction ts generalizing parts
  case nil => simp
  case cons t ts hi =>
    obtain ⟨⟨n, v⟩, ht, h⟩ := Except.bind_eq_ok.mp h
    cases hn : n.name? <;> simp only [hn, Option.isNone_none, Option.isNone_some] at h
    case none => contradiction
    case some =>
      obtain ⟨rest, hr, -⟩ := Except.bind_eq_ok.mp h
      exact List.forall_mem_cons.mpr ⟨⟨n, v, sides_eq_ok_iff.mp ht, by simp [hn]⟩, hi hr⟩

theorem branches_rewritten (parts : Branches) :
    branches parts.rewritten.after = .ok (parts.map fun x => (name x.2.1, x.2.2)) := by
  induction parts
  case nil => rfl
  case cons hi => simp [branches, sides, name?, hi, bind, Except.bind, pure, Except.pure]

theorem eq_rewritten {pairs : Rewritten} (h : ∀ x ∈ pairs, ∃ y v, x.2 = equal (name y) v) :
    ∃ parts : Branches, pairs = parts.rewritten := by
  induction pairs
  case nil => exact ⟨[], rfl⟩
  case cons x pairs hi =>
    rw [List.forall_mem_cons] at h
    obtain ⟨⟨y, v, hx⟩, h⟩ := h
    obtain ⟨parts, rfl⟩ := hi h
    exact ⟨(x.1, y, v) :: parts, by simp [← hx]⟩

-- Only names are defined together.
theorem eq_rewritten_of_branches {pairs : Rewritten} {bs : List (Tree × Tree)}
    (hp : ∀ x ∈ pairs, Plain x.2) (h : branches pairs.after = .ok bs) :
    ∃ parts : Branches, pairs = parts.rewritten := by
  refine eq_rewritten fun x hx => ?_
  obtain ⟨n, v, he, hn⟩ := pairs.forall_after.mp (forall_of_branches h) x hx
  obtain ⟨y, hy⟩ := Option.isSome_iff_exists.mp hn
  have hname := (he ▸ hp x hx).of_mem (.head _) |>.eq_name hy
  exact ⟨y, v, hname ▸ he⟩

theorem curried_append (param body : Tree) (params : List Tree) :
    curried param (params ++ [body]) = curry (param :: params) body := by
  induction params generalizing param
  case nil => rfl
  case cons hi => exact congrArg (lambda param) (hi _)

theorem reduce_of_isPlain {f : Form} {ts : List Tree} (h : f.isPlain) :
    reduce f ts = .ok (form f ts) := by
  cases f <;> first | rfl | contradiction

theorem desugar_leaf_eq_ok_iff {l : Leaf} {ts : List Tree} {s : Tree} :
    (node (.leaf l) ts).desugar = .ok s ↔ ts = [] ∧ s = .leaf l := by
  constructor
  case mp =>
    intro h
    obtain ⟨⟨⟩, ha, h⟩ := Except.bind_eq_ok.mp h
    have ht : ts = [] := by simpa [Tag.arity, Arity.accepts] using checkArity_eq_ok_iff.mp ha
    subst ht
    cases h
    exact ⟨rfl, rfl⟩
  case mpr => rintro ⟨rfl, rfl⟩; rfl

theorem desugar_form_eq_ok_iff {f : Form} {ts : List Tree} {s : Tree} :
    (form f ts).desugar = .ok s ↔ f.arity.accepts ts.length ∧
      ∃ us, desugarForest ts = .ok us ∧ reduce f us = .ok s := by
  constructor
  case mp =>
    intro h
    obtain ⟨⟨⟩, ha, h⟩ := Except.bind_eq_ok.mp h
    exact ⟨checkArity_eq_ok_iff.mp ha, Except.bind_eq_ok.mp h⟩
  case mpr =>
    rintro ⟨ha, h⟩
    exact Except.bind_eq_ok.mpr ⟨(), checkArity_eq_ok_iff.mpr ha, Except.bind_eq_ok.mpr h⟩

-- Parameters and a body.
theorem eq_append_of_two_le {xs : List α} (h : 2 ≤ xs.length) :
    ∃ ys x, xs = ys ++ [x] ∧ ys ≠ [] := by
  obtain rfl | ⟨ys, x, rfl⟩ := xs.eq_nil_or_concat
  case inl => contradiction
  case inr => exact ⟨ys, x, List.concat_eq_append, by rintro rfl; contradiction⟩

theorem reduce_lambda {params : List Tree} (h : params ≠ []) (body : Tree) :
    reduce .lambda (params ++ [body]) = .ok (curry params body) := by
  cases params
  case nil => contradiction
  case cons => exact congrArg _ (curried_append ..)

theorem reduce_function {params : List Tree} (h : params ≠ []) (n body : Tree) :
    reduce .function (n :: (params ++ [body])) = .ok (equal n (curry params body)) := by
  cases params
  case nil => contradiction
  case cons => exact congrArg (Except.ok <| equal n ·) (curried_append ..)

-- What is left of a form whose children have been rewritten.
theorem desugars_of_reduce {f : Form} {pairs : Rewritten} {s : Tree}
    (ha : f.arity.accepts pairs.length) (hp : ∀ x ∈ pairs, Desugars x.1 x.2)
    (h : reduce f pairs.after = .ok s) : Desugars (form f pairs.before) s := by
  cases f
  case letIn =>
    obtain ⟨x, y, rfl⟩ := List.length_eq_two.mp (beq_iff_eq.mp ha)
    obtain ⟨⟨n, v⟩, hs, h⟩ := Except.bind_eq_ok.mp h
    cases h
    obtain ⟨hd, he⟩ : Desugars x.1 x.2 ∧ Desugars y.1 y.2 := by simpa using hp
    exact .letIn (sides_eq_ok_iff.mp hs ▸ hd) he
  case whereIn =>
    obtain ⟨x, y, rfl⟩ := List.length_eq_two.mp (beq_iff_eq.mp ha)
    obtain ⟨⟨n, v⟩, hs, h⟩ := Except.bind_eq_ok.mp h
    cases h
    obtain ⟨he, hd⟩ : Desugars x.1 x.2 ∧ Desugars y.1 y.2 := by simpa using hp
    exact .whereIn he (sides_eq_ok_iff.mp hs ▸ hd)
  case within =>
    obtain ⟨x, y, rfl⟩ := List.length_eq_two.mp (beq_iff_eq.mp ha)
    obtain ⟨⟨n₁, v₁⟩, hs₁, h⟩ := Except.bind_eq_ok.mp h
    obtain ⟨⟨n₂, v₂⟩, hs₂, h⟩ := Except.bind_eq_ok.mp h
    cases h
    obtain ⟨h₁, h₂⟩ : Desugars x.1 x.2 ∧ Desugars y.1 y.2 := by simpa using hp
    exact .within (sides_eq_ok_iff.mp hs₁ ▸ h₁) (sides_eq_ok_iff.mp hs₂ ▸ h₂)
  case recursive =>
    obtain ⟨x, rfl⟩ := List.length_eq_one_iff.mp (beq_iff_eq.mp ha)
    obtain ⟨⟨n, v⟩, hs, h⟩ := Except.bind_eq_ok.mp h
    cases h
    exact .recursive (sides_eq_ok_iff.mp hs ▸ hp x (.head _))
  case infixCall =>
    obtain ⟨x, y, z, rfl⟩ := List.length_eq_three.mp (beq_iff_eq.mp ha)
    cases h
    obtain ⟨hl, hm, hr⟩ : Desugars x.1 x.2 ∧ Desugars y.1 y.2 ∧ Desugars z.1 z.2 := by
      simpa using hp
    exact .infixCall hl hm hr
  case simultaneous =>
    obtain ⟨bs, hb, h⟩ := Except.bind_eq_ok.mp h
    obtain ⟨parts, rfl⟩ := eq_rewritten_of_branches (fun x hx => (hp x hx).plain) hb
    rw [branches_rewritten] at hb
    cases hb
    simp only [List.map_map] at h
    cases h
    refine .simultaneous ?_ fun x hx => hp _ (List.mem_map_of_mem hx)
    simpa [Form.arity, Arity.accepts] using ha
  case lambda =>
    obtain ⟨pairs, x, rfl, hn⟩ := eq_append_of_two_le (of_decide_eq_true ha)
    rw [Rewritten.after_concat, reduce_lambda (Rewritten.after_ne_nil hn)] at h
    cases h
    rw [List.forall_mem_append] at hp
    rw [Rewritten.before_concat]
    exact .lambda hn hp.1 (hp.2 x (.head _))
  case function =>
    obtain _ | ⟨y, pairs⟩ := pairs
    case nil => contradiction
    obtain ⟨pairs, x, rfl, hn⟩ :=
      eq_append_of_two_le (Nat.le_of_succ_le_succ (of_decide_eq_true ha))
    rw [Rewritten.after_cons, Rewritten.after_concat,
      reduce_function (Rewritten.after_ne_nil hn)] at h
    cases h
    rw [List.forall_mem_cons, List.forall_mem_append] at hp
    rw [Rewritten.before_cons, Rewritten.before_concat]
    exact .function hp.1 hn hp.2.1 (hp.2.2 x (.head _))
  all_goals
    rw [reduce_of_isPlain rfl] at h
    cases h
    exact .kept rfl ha hp

mutual

theorem desugars_of_desugar : (t : Tree) → {s : Tree} → t.desugar = .ok s → Desugars t s
  | node (.leaf l) ts, s, h => by
    obtain ⟨rfl, rfl⟩ := desugar_leaf_eq_ok_iff.mp h
    exact .leaf l
  | node (.form f) ts, s, h => by
    obtain ⟨ha, us, hu, h⟩ := desugar_form_eq_ok_iff.mp h
    obtain ⟨pairs, rfl, rfl, hp⟩ := desugars_of_desugarForest ts hu
    exact desugars_of_reduce (by simpa using ha) hp h

theorem desugars_of_desugarForest : (ts : List Tree) → {us : List Tree} →
    desugarForest ts = .ok us →
      ∃ pairs : Rewritten, ts = pairs.before ∧ us = pairs.after ∧ ∀ x ∈ pairs, Desugars x.1 x.2
  | [], us, h => by
    cases h
    exact ⟨[], rfl, rfl, by simp⟩
  | t :: ts, us, h => by
    obtain ⟨u, hu, h⟩ := Except.bind_eq_ok.mp h
    obtain ⟨us, hus, h⟩ := Except.bind_eq_ok.mp h
    cases h
    obtain ⟨pairs, rfl, rfl, hp⟩ := desugars_of_desugarForest ts hus
    exact ⟨(t, u) :: pairs, rfl, rfl, List.forall_mem_cons.mpr ⟨desugars_of_desugar t hu, hp⟩⟩

end

theorem desugarForest_before {pairs : Rewritten} (h : ∀ x ∈ pairs, x.1.desugar = .ok x.2) :
    desugarForest pairs.before = .ok pairs.after := by
  induction pairs
  case nil => rfl
  case cons x pairs hi =>
    rw [List.forall_mem_cons] at h
    exact Except.bind_eq_ok.mpr ⟨_, h.1, Except.bind_eq_ok.mpr ⟨_, hi h.2, rfl⟩⟩

theorem desugar_before (pairs : Rewritten) {f : Form} {s : Tree}
    (ha : f.arity.accepts pairs.length) (h : ∀ x ∈ pairs, x.1.desugar = .ok x.2)
    (hr : reduce f pairs.after = .ok s) : (form f pairs.before).desugar = .ok s :=
  desugar_form_eq_ok_iff.mpr ⟨by simpa using ha, _, desugarForest_before h, hr⟩

theorem Desugars.desugar_eq_ok {t s : Tree} (h : Desugars t s) : t.desugar = .ok s := by
  induction h
  case leaf => rfl
  case kept pairs hf ha _ hi => exact desugar_before pairs ha hi (reduce_of_isPlain hf)
  case letIn hd he => exact desugar_before [(_, _), (_, _)] rfl (by simpa using ⟨hd, he⟩) rfl
  case whereIn he hd => exact desugar_before [(_, _), (_, _)] rfl (by simpa using ⟨he, hd⟩) rfl
  case within h₁ h₂ => exact desugar_before [(_, _), (_, _)] rfl (by simpa using ⟨h₁, h₂⟩) rfl
  case infixCall hl hm hr =>
    exact desugar_before [(_, _), (_, _), (_, _)] rfl (by simpa using ⟨hl, hm, hr⟩) rfl
  case recursive hd => exact desugar_before [(_, _)] rfl (by simpa using hd) rfl
  case simultaneous parts hlen _ hi =>
    refine desugar_before parts.rewritten ?_ (List.forall_mem_map.mpr hi) ?_
    case refine_1 => simpa [Form.arity, Arity.accepts] using hlen
    case refine_2 =>
      refine Except.bind_eq_ok.mpr ⟨_, branches_rewritten parts, ?_⟩
      simp only [List.map_map]
      rfl
  case lambda pairs e b hn _ _ hi he =>
    rw [← pairs.before_concat e b]
    refine desugar_before _ ?_ (List.forall_mem_append.mpr ⟨hi, by simpa using he⟩) ?_
    case refine_1 =>
      have := List.length_pos_of_ne_nil hn
      simp [Form.arity, Arity.accepts]
      omega
    case refine_2 => rw [Rewritten.after_concat, reduce_lambda (Rewritten.after_ne_nil hn)]
  case function m n pairs e b _ hn _ _ hm hi he =>
    rw [← pairs.before_concat e b]
    refine desugar_before ((m, n) :: (pairs ++ [(e, b)])) ?_ ?_ ?_
    case refine_1 =>
      have := List.length_pos_of_ne_nil hn
      simp [Form.arity, Arity.accepts]
      omega
    case refine_2 =>
      exact List.forall_mem_cons.mpr ⟨hm, List.forall_mem_append.mpr ⟨hi, by simpa using he⟩⟩
    case refine_3 =>
      rw [Rewritten.after_cons, Rewritten.after_concat, reduce_function (Rewritten.after_ne_nil hn)]

-- A tree is free of sugar at the end exactly if there is a rule for every node of it.
theorem desugar_eq_ok_iff {t s : Tree} : t.desugar = .ok s ↔ Desugars t s where
  mp  := desugars_of_desugar t
  mpr := (·.desugar_eq_ok)

end Tree

end RpalMachine
