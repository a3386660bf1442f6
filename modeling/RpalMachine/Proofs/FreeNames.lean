import RpalMachine.Proofs.Admission

namespace RpalMachine

namespace Tree

-- The names that a parameter binds.
def patternNames : Tree → List String
  | node (.leaf (.identifier x)) _ => [x]
  | node (.form .comma) ts         => ts.filterMap name?
  | _                              => []

mutual

-- The names that a definition is of.
def definedNames : Tree → List String
  | node (.form .equal) (n :: _)     => n.patternNames
  | node (.form .function) (n :: _)  => n.patternNames
  | node (.form .within) [_, d]      => definedNames d
  | node (.form .recursive) [d]      => definedNames d
  | node (.form .simultaneous) ds    => allDefinedNames ds
  | _                                => []

def allDefinedNames : List Tree → List String
  | []      => []
  | d :: ds => definedNames d ++ allDefinedNames ds

end

@[simp]
theorem definedNames_equal (n v : Tree) : (equal n v).definedNames = n.patternNames :=
  rfl

-- The body after some parameters, with their names in its scope.
def scopeOfBody (ts : List Tree) : List (List String × Tree) :=
  ts.getLast?.toList.map ((ts.dropLast.flatMap patternNames, ·))

-- The children of a form that have a value, each with the names that the form puts in its scope.
def scopes : Form → List Tree → List (List String × Tree)
  | .letIn, [d, e]     => [([], d), (d.definedNames, e)]
  | .whereIn, [e, d]   => [(d.definedNames, e), ([], d)]
  | .lambda, ts        => scopeOfBody ts
  | .function, _ :: ts => scopeOfBody ts
  | .equal, [_, v]     => [([], v)]
  | .within, [d₁, d₂]  => [([], d₁), (d₁.definedNames, d₂)]
  | .recursive, [d]    => [(d.definedNames, d)]
  | .comma, _          => []
  | _, ts              => ts.map (([], ·))

-- The name occurs in the tree where nothing in the tree has put it in scope.
inductive Free (x : String) : Tree → Prop
  | name (ts : List Tree) : Free x (node (.leaf (.identifier x)) ts)
  | inside {f : Form} {ts : List Tree} {names : List String} {t : Tree} :
    (names, t) ∈ scopes f ts → x ∉ names → Free x t → Free x (form f ts)

section

variable {x : String} {t s d e n v b : Tree} {ts params : List Tree}

theorem free_form_iff {f : Form} :
    Free x (form f ts) ↔ ∃ part ∈ scopes f ts, x ∉ part.1 ∧ Free x part.2 := by
  constructor
  case mp  => rintro (_ | ⟨hp, hx, ht⟩); exact ⟨_, hp, hx, ht⟩
  case mpr => rintro ⟨_, hp, hx, ht⟩; exact .inside hp hx ht

@[simp]
theorem free_leaf_iff {l : Leaf} : Free x (.leaf l) ↔ l = .identifier x := by
  constructor
  case mp  => rintro ⟨⟩; rfl
  case mpr => rintro rfl; exact .name []

-- Forms with a value in one of their children, or in two of them.
theorem free_one_iff {f : Form} {names : List String} (h : scopes f ts = [(names, t)]) :
    Free x (form f ts) ↔ x ∉ names ∧ Free x t := by
  simp [free_form_iff, h]

theorem free_two_iff {f : Form} {ms ns : List String} (h : scopes f ts = [(ms, t), (ns, s)]) :
    Free x (form f ts) ↔ x ∉ ms ∧ Free x t ∨ x ∉ ns ∧ Free x s := by
  simp [free_form_iff, h]

-- Forms that put no name in scope.
theorem free_plain_iff {f : Form} (h : scopes f ts = ts.map (([], ·))) :
    Free x (form f ts) ↔ ∃ t ∈ ts, Free x t := by
  simp [free_form_iff, h]

@[simp]
theorem free_letIn_iff : Free x (form .letIn [d, e]) ↔
    Free x d ∨ x ∉ d.definedNames ∧ Free x e := by
  rw [free_two_iff rfl]
  simp

@[simp]
theorem free_whereIn_iff : Free x (form .whereIn [e, d]) ↔
    x ∉ d.definedNames ∧ Free x e ∨ Free x d := by
  rw [free_two_iff rfl]
  simp

@[simp]
theorem free_within_iff {d₁ d₂ : Tree} : Free x (form .within [d₁, d₂]) ↔
    Free x d₁ ∨ x ∉ d₁.definedNames ∧ Free x d₂ := by
  rw [free_two_iff rfl]
  simp

@[simp]
theorem free_recursive_iff : Free x (form .recursive [d]) ↔ x ∉ d.definedNames ∧ Free x d :=
  free_one_iff rfl

@[simp]
theorem free_equal_iff : Free x (equal n v) ↔ Free x v := by
  rw [free_one_iff rfl]
  simp

@[simp]
theorem free_apply_iff : Free x (apply n v) ↔ Free x n ∨ Free x v := by
  rw [free_plain_iff rfl]
  simp

theorem scopeOfBody_concat : scopeOfBody (params ++ [e]) = [(params.flatMap patternNames, e)] := by
  simp [scopeOfBody]

theorem free_lambda_iff : Free x (form .lambda (params ++ [e])) ↔
    x ∉ params.flatMap patternNames ∧ Free x e :=
  free_one_iff scopeOfBody_concat

theorem free_function_iff : Free x (form .function (n :: (params ++ [e]))) ↔
    x ∉ params.flatMap patternNames ∧ Free x e :=
  free_one_iff scopeOfBody_concat

@[simp]
theorem free_single_lambda_iff : Free x (lambda n b) ↔ x ∉ n.patternNames ∧ Free x b := by
  have h : Free x (form .lambda ([n] ++ [b])) ↔ _ := free_lambda_iff
  simpa using h

theorem free_curry_iff :
    Free x (curry params e) ↔ x ∉ params.flatMap patternNames ∧ Free x e := by
  induction params
  case nil => simp [curry]
  case cons hi => simp [hi, and_assoc]

end

namespace Desugars

variable {x : String} {t s : Tree}

theorem name?_eq (h : Desugars t s) : t.name? = s.name? := by
  cases h
  case lambda hn _ _ =>
    obtain ⟨n, ns, he⟩ := Rewritten.curry_after_eq hn
    rw [he]
    rfl
  all_goals rfl

theorem filterMap_after_eq {pairs : Rewritten} (h : ∀ x ∈ pairs, x.1.name? = x.2.name?) :
    pairs.after.filterMap name? = pairs.before.filterMap name? := by
  simp only [Rewritten.after, Rewritten.before, List.filterMap_map]
  exact List.filterMap_congr fun x hx => (h x hx).symm

-- A parameter is kept with its names.
theorem patternNames_eq (h : Desugars t s) : s.patternNames = t.patternNames := by
  cases h
  case kept f pairs hf _ hp =>
    cases f <;> try rfl
    case comma => exact filterMap_after_eq fun x hx => (hp x hx).name?_eq
  case lambda hn _ _ =>
    obtain ⟨n, ns, he⟩ := Rewritten.curry_after_eq hn
    rw [he]
    rfl
  all_goals rfl

theorem flatMap_after_eq {pairs : Rewritten} (h : ∀ x ∈ pairs, Desugars x.1 x.2) :
    pairs.after.flatMap patternNames = pairs.before.flatMap patternNames := by
  simp only [Rewritten.after, Rewritten.before, List.flatMap_map]
  exact congrArg List.flatten (List.map_congr_left fun x hx => (h x hx).patternNames_eq)

theorem allDefinedNames_before {parts : Branches}
    (h : ∀ x ∈ parts, x.1.definedNames = [x.2.1]) :
    allDefinedNames parts.rewritten.before = parts.names.filterMap name? := by
  induction parts
  case nil => rfl
  case cons x parts hi =>
    rw [List.forall_mem_cons] at h
    rw [Branches.rewritten_cons, Rewritten.before_cons, allDefinedNames, h.1, hi h.2]
    rfl

theorem definedNames_eq (h : Desugars t s) : s.definedNames = t.definedNames := by
  induction h
  case kept f pairs _ ha hp _ =>
    cases f <;> try rfl
    case equal =>
      obtain ⟨n, v, rfl⟩ := List.length_eq_two.mp (beq_iff_eq.mp ha)
      exact (hp n (.head _)).patternNames_eq
    all_goals contradiction
  case lambda hn _ _ _ _ =>
    obtain ⟨n, ns, he⟩ := Rewritten.curry_after_eq hn
    rw [he]
    rfl
  case function hm _ _ _ _ _ _ => exact hm.patternNames_eq
  case within hi | recursive hi => exact hi
  case simultaneous parts _ _ hi => exact (allDefinedNames_before fun x hx => (hi x hx).symm).symm
  all_goals rfl

theorem exists_free_after_iff {pairs : Rewritten} (h : ∀ p ∈ pairs, Free x p.2 ↔ Free x p.1) :
    (∃ t ∈ pairs.after, Free x t) ↔ ∃ t ∈ pairs.before, Free x t := by
  simp only [Rewritten.after, Rewritten.before, List.mem_map, exists_exists_and_eq_and]
  exact exists_congr fun p => and_congr_right fun hp => h p hp

-- A tree has the same free names when its sugar is gone.
theorem free_iff (h : Desugars t s) : Free x s ↔ Free x t := by
  induction h
  case leaf => rfl
  case kept f pairs hf ha _ hi =>
    cases f <;> try contradiction
    case equal =>
      obtain ⟨n, v, rfl⟩ := List.length_eq_two.mp (beq_iff_eq.mp ha)
      exact free_equal_iff.trans ((hi v (by simp)).trans free_equal_iff.symm)
    case comma => simp [free_form_iff, scopes]
    all_goals
      rw [free_plain_iff rfl, free_plain_iff rfl]
      exact exists_free_after_iff hi
  case letIn hd _ hi he =>
    have hn := hd.definedNames_eq
    rw [free_equal_iff] at hi
    simp only [free_apply_iff, free_single_lambda_iff, free_letIn_iff, ← hn, he, ← hi,
      definedNames_equal]
    exact or_comm
  case whereIn hd he hi =>
    have hn := hd.definedNames_eq
    rw [free_equal_iff] at hi
    simp only [free_apply_iff, free_single_lambda_iff, free_whereIn_iff, ← hn, he, ← hi,
      definedNames_equal]
  case within h₁ _ hi₁ hi₂ =>
    have hn := h₁.definedNames_eq
    rw [free_equal_iff] at hi₁ hi₂
    simp only [free_equal_iff, free_apply_iff, free_single_lambda_iff, free_within_iff, ← hn,
      ← hi₁, ← hi₂, definedNames_equal]
    exact or_comm
  case lambda hp _ _ he =>
    rw [free_curry_iff, free_lambda_iff, flatMap_after_eq hp, he]
  case function hp _ _ _ he =>
    rw [free_equal_iff, free_curry_iff, free_function_iff, flatMap_after_eq hp, he]
  case infixCall hl hm hr =>
    rw [free_apply_iff, free_apply_iff, free_plain_iff rfl, hl, hm, hr]
    simp only [List.exists_mem_cons_iff, List.not_mem_nil, false_and, exists_false, or_false]
    exact (or_congr_left or_comm).trans or_assoc
  case simultaneous parts _ _ hi =>
    have hp : ∀ p ∈ parts.rewritten, Free x p.2 ↔ Free x p.1 := List.forall_mem_map.mpr hi
    rw [free_equal_iff, free_plain_iff rfl, free_plain_iff rfl, ← exists_free_after_iff hp]
    simp [Branches.values, Branches.rewritten, Rewritten.after, -Prod.exists]
  case recursive hd hi =>
    have hn := hd.definedNames_eq
    rw [free_equal_iff] at hi
    simp only [free_equal_iff, free_apply_iff, free_single_lambda_iff, free_recursive_iff, ← hn,
      ← hi, definedNames_equal, free_leaf_iff]
    simp

end Desugars

end Tree

-- The name occurs in the core where no lambda of it has bound it.
inductive Core.Free (x : String) : Core → Prop
  | name : Free x (.name x)
  | lambda {id label : Nat} {params : List String} {c : Core} :
    x ∉ params → Free x c → Free x (.lambda id params label c)
  | fn {c d : Core} : Free x c → Free x (.apply c d)
  | arg {c d : Core} : Free x d → Free x (.apply c d)
  | element {c : Core} {cs : List Core} : c ∈ cs → Free x c → Free x (.tuple cs)
  | operand {op : UnaryOperator} {c : Core} : Free x c → Free x (.unary op c)
  | left {op : BinaryOperator} {c d : Core} : Free x c → Free x (.binary op c d)
  | right {op : BinaryOperator} {c d : Core} : Free x d → Free x (.binary op c d)
  | condition {b c d : Core} {yesLabel noLabel : Nat} :
    Free x b → Free x (.conditional b yesLabel c noLabel d)
  | yes {b c d : Core} {yesLabel noLabel : Nat} :
    Free x c → Free x (.conditional b yesLabel c noLabel d)
  | no {b c d : Core} {yesLabel noLabel : Nat} :
    Free x d → Free x (.conditional b yesLabel c noLabel d)

namespace Tree

-- What a lambda binds are the names of its parameter.
theorem patternNames_of_parameterNames {n : Tree} {names : List String}
    (h : n.parameterNames = .ok names) : n.patternNames = names := by
  rw [parameterNames.eq_def] at h
  split at h
  case h_1 | h_2 => cases h; rfl
  case h_3 ts =>
    rw [mapM_listedName_eq_ok_iff] at h
    have hn : ts.filterMap name? = (ts.map name?).filterMap id := by
      rw [List.filterMap_map, Function.id_comp]
    rw [patternNames, hn, h]
    simp
  case h_4 => cases h

theorem Elaborates.free {t : Tree} {c : Core} {x : String} (h : Elaborates t c)
    (hx : c.Free x) : Free x t := by
  induction h
  case leaf l c hl => cases l <;> cases hl <;> cases hx; exact .name []
  case lambda hp _ hi =>
    cases hx
    case lambda hn hx =>
      rw [← patternNames_of_parameterNames hp] at hn
      exact free_single_lambda_iff.mpr ⟨hn, hi hx⟩
  case apply hf ha =>
    cases hx
    case fn hx  => exact free_apply_iff.mpr (.inl (hf hx))
    case arg hx => exact free_apply_iff.mpr (.inr (ha hx))
  case tuple parts _ _ hi =>
    cases hx
    case element hx hc =>
      obtain ⟨p, hp, rfl⟩ := List.mem_map.mp hc
      exact (free_plain_iff rfl).mpr ⟨p.1, List.mem_map_of_mem hp, hi p hp hx⟩
  case unary hi =>
    cases hx
    case operand hx => exact (free_plain_iff rfl).mpr ⟨_, .head _, hi hx⟩
  case binary hl hr =>
    cases hx
    case left hx  => exact (free_plain_iff rfl).mpr ⟨_, .head _, hl hx⟩
    case right hx => exact (free_plain_iff rfl).mpr ⟨_, .tail _ (.head _), hr hx⟩
  case conditional hi ht he =>
    cases hx
    case condition hx => exact (free_plain_iff rfl).mpr ⟨_, .head _, hi hx⟩
    case yes hx       => exact (free_plain_iff rfl).mpr ⟨_, .tail _ (.head _), ht hx⟩
    case no hx        => exact (free_plain_iff rfl).mpr ⟨_, .tail _ (.tail _ (.head _)), he hx⟩

end Tree

end RpalMachine
