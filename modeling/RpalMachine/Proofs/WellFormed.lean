import RpalMachine.Proofs.Rewrites

namespace RpalMachine

-- What a tree stands for.
inductive Role
  | expression
  | definition
  | parameter
  | name
deriving DecidableEq

namespace Form

def role : Form → Role
  | equal | function | within | recursive | simultaneous => .definition
  | comma                                                => .parameter
  | _                                                    => .expression

-- What so many children of a form stand for, if there can be so many.
def roles? : Form → (count : Nat) → Option (List Role)
  | letIn, 2            => some [.definition, .expression]
  | whereIn, 2          => some [.expression, .definition]
  | lambda, n + 2       => some (.replicate (n + 1) .parameter ++ [.expression])
  | tau, n + 2          => some (.replicate (n + 2) .expression)
  | conditional, 3      => some [.expression, .expression, .expression]
  | infixCall, 3        => some [.expression, .expression, .expression]
  | gamma, 2            => some [.expression, .expression]
  | binary _, 2         => some [.expression, .expression]
  | unary _, 1          => some [.expression]
  | equal, 2            => some [.parameter, .expression]
  | function, n + 3     => some (.parameter :: .replicate (n + 1) .parameter ++ [.expression])
  | within, 2           => some [.definition, .definition]
  | recursive, 1        => some [.definition]
  | simultaneous, n + 2 => some (.replicate (n + 2) .definition)
  | comma, n + 2        => some (.replicate (n + 2) .name)
  | _, _                => none

theorem length_of_roles? {f : Form} {n : Nat} {roles : List Role} (h : f.roles? n = some roles) :
    roles.length = n := by
  rw [roles?.eq_def] at h
  split at h <;> cases h <;> simp

-- The numbers of children that can be given roles are those that the arity of a form admits.
theorem accepts_iff {f : Form} {n : Nat} :
    f.arity.accepts n ↔ ∃ roles, f.roles? n = some roles := by
  rw [← Option.isSome_iff_exists]
  -- No count of more than three is told apart.
  cases f <;> rcases n with _ | _ | _ | _ | n <;> simp [roles?, arity, Arity.accepts]

end Form

namespace Tree

-- The definition is one of a single name.
inductive Defines (x : String) : Tree → Prop
  | equal (v : Tree) : Defines x (.equal (name x) v)
  | function (ts : List Tree) : Defines x (form .function (name x :: ts))
  | within (d₁ : Tree) {d₂ : Tree} : Defines x d₂ → Defines x (form .within [d₁, d₂])
  | recursive {d : Tree} : Defines x d → Defines x (form .recursive [d])

-- A tree that can stand for what is given. Of definitions that hold together, each is `single`.
inductive Shaped (single : Tree → Prop) : Role → Tree → Prop
  | literal {l : Leaf} : l ≠ .unit → Shaped single .expression (.leaf l)
  | parameter (x : String) : Shaped single .parameter (name x)
  | unit : Shaped single .parameter (.leaf .unit)
  | name (x : String) : Shaped single .name (name x)
  | form {role : Role} {f : Form} {ts : List Tree} {roles : List Role} :
    role = f.role → f.roles? ts.length = some roles →
      (∀ x ∈ roles.zip ts, Shaped single x.1 x.2) → (f = .simultaneous → ∀ t ∈ ts, single t) →
      Shaped single role (form f ts)

def Single (d : Tree) : Prop :=
  ∃ x, Defines x d

abbrev WellFormed : Role → Tree → Prop :=
  Shaped Single

section

variable {single : Tree → Prop} {role : Role} {f : Form} {t e : Tree} {ts : List Tree}

@[simp]
theorem shaped_leaf_iff {l : Leaf} : Shaped single role (.leaf l) ↔
    role = .expression ∧ l ≠ .unit ∨
    role = .parameter ∧ (l = .unit ∨ ∃ x, l = .identifier x) ∨
    role = .name ∧ ∃ x, l = .identifier x := by
  constructor
  case mp  => rintro (h | _ | _ | _) <;> simp [*]
  case mpr =>
    rintro (⟨rfl, h⟩ | ⟨rfl, rfl | ⟨x, rfl⟩⟩ | ⟨rfl, x, rfl⟩)
    · exact .literal h
    · exact .unit
    · exact .parameter x
    · exact .name x

theorem shaped_form_iff : Shaped single role (form f ts) ↔ role = f.role ∧
    (∃ roles, f.roles? ts.length = some roles ∧ ∀ x ∈ roles.zip ts, Shaped single x.1 x.2) ∧
    (f = .simultaneous → ∀ t ∈ ts, single t) := by
  constructor
  case mp =>
    rintro (_ | _ | _ | _ | ⟨hf, hr, hts, hs⟩)
    exact ⟨hf, ⟨_, hr, hts⟩, hs⟩
  case mpr =>
    rintro ⟨hf, ⟨roles, hr, hts⟩, hs⟩
    exact .form hf hr hts hs

theorem shaped_form_iff_of_roles? {roles : List Role} (hr : f.roles? ts.length = some roles) :
    Shaped single role (form f ts) ↔ role = f.role ∧
      (∀ x ∈ roles.zip ts, Shaped single x.1 x.2) ∧ (f = .simultaneous → ∀ t ∈ ts, single t) := by
  simp [shaped_form_iff, hr, -Prod.forall]

theorem shaped_name_iff : Shaped single .name t ↔ ∃ x, t = name x := by
  constructor
  case mp =>
    intro h
    cases h
    case name x => exact ⟨x, rfl⟩
    case form f _ _ _ _ _ hf => cases f <;> cases hf
  case mpr => rintro ⟨x, rfl⟩; exact .name x

section

variable {l m r n v d d₁ d₂ : Tree}

@[simp]
theorem shaped_letIn_iff : Shaped single role (form .letIn [d, e]) ↔
    role = .expression ∧ Shaped single .definition d ∧ Shaped single .expression e := by
  rw [shaped_form_iff_of_roles? rfl]
  simp [Form.role, -Prod.forall]

@[simp]
theorem shaped_whereIn_iff : Shaped single role (form .whereIn [e, d]) ↔
    role = .expression ∧ Shaped single .expression e ∧ Shaped single .definition d := by
  rw [shaped_form_iff_of_roles? rfl]
  simp [Form.role, -Prod.forall]

@[simp]
theorem shaped_conditional_iff : Shaped single role (form .conditional [l, m, r]) ↔
    role = .expression ∧ Shaped single .expression l ∧ Shaped single .expression m ∧
      Shaped single .expression r := by
  rw [shaped_form_iff_of_roles? rfl]
  simp [Form.role, -Prod.forall]

@[simp]
theorem shaped_infixCall_iff : Shaped single role (form .infixCall [l, m, r]) ↔
    role = .expression ∧ Shaped single .expression l ∧ Shaped single .expression m ∧
      Shaped single .expression r := by
  rw [shaped_form_iff_of_roles? rfl]
  simp [Form.role, -Prod.forall]

@[simp]
theorem shaped_apply_iff : Shaped single role (apply l r) ↔
    role = .expression ∧ Shaped single .expression l ∧ Shaped single .expression r := by
  rw [shaped_form_iff_of_roles? rfl]
  simp [Form.role, -Prod.forall]

@[simp]
theorem shaped_binary_iff {op : BinaryOperator} : Shaped single role (form (.binary op) [l, r]) ↔
    role = .expression ∧ Shaped single .expression l ∧ Shaped single .expression r := by
  rw [shaped_form_iff_of_roles? rfl]
  simp [Form.role, -Prod.forall]

@[simp]
theorem shaped_unary_iff {op : UnaryOperator} : Shaped single role (form (.unary op) [e]) ↔
    role = .expression ∧ Shaped single .expression e := by
  rw [shaped_form_iff_of_roles? rfl]
  simp [Form.role, -Prod.forall]

@[simp]
theorem shaped_equal_iff : Shaped single role (equal n v) ↔
    role = .definition ∧ Shaped single .parameter n ∧ Shaped single .expression v := by
  rw [shaped_form_iff_of_roles? rfl]
  simp [Form.role, -Prod.forall]

@[simp]
theorem shaped_within_iff : Shaped single role (form .within [d₁, d₂]) ↔
    role = .definition ∧ Shaped single .definition d₁ ∧ Shaped single .definition d₂ := by
  rw [shaped_form_iff_of_roles? rfl]
  simp [Form.role, -Prod.forall]

@[simp]
theorem shaped_recursive_iff : Shaped single role (form .recursive [d]) ↔
    role = .definition ∧ Shaped single .definition d := by
  rw [shaped_form_iff_of_roles? rfl]
  simp [Form.role, -Prod.forall]

end

section

-- What a list of children stands for, part by part.
variable {p : Role → Tree → Prop} {r : Role}

theorem forall_zip_replicate :
    (∀ x ∈ (List.replicate ts.length r).zip ts, p x.1 x.2) ↔ ∀ t ∈ ts, p r t := by
  induction ts
  case nil => simp
  case cons hi => simp [List.replicate_succ, ← hi]

theorem forall_zip_concat {r' : Role} :
    (∀ x ∈ (List.replicate ts.length r ++ [r']).zip (ts ++ [e]), p x.1 x.2) ↔
      (∀ t ∈ ts, p r t) ∧ p r' e := by
  rw [List.zip_append List.length_replicate, List.forall_mem_append, forall_zip_replicate]
  simp

end

theorem shaped_lambda_iff (h : ts ≠ []) : Shaped single role (form .lambda (ts ++ [e])) ↔
    role = .expression ∧ (∀ t ∈ ts, Shaped single .parameter t) ∧ Shaped single .expression e := by
  have hr : Form.lambda.roles? (ts ++ [e]).length =
      some (.replicate ts.length .parameter ++ [.expression]) := by
    obtain ⟨t, us, rfl⟩ := List.exists_cons_of_ne_nil h
    simp [Form.roles?]
  rw [shaped_form_iff_of_roles? hr, forall_zip_concat]
  simp [Form.role]

@[simp]
theorem shaped_single_lambda_iff {n : Tree} : Shaped single role (lambda n e) ↔
    role = .expression ∧ Shaped single .parameter n ∧ Shaped single .expression e := by
  simpa using shaped_lambda_iff (List.cons_ne_nil n [])

theorem shaped_curry_iff (h : ts ≠ []) : Shaped single role (curry ts e) ↔
    role = .expression ∧ (∀ t ∈ ts, Shaped single .parameter t) ∧ Shaped single .expression e := by
  obtain ⟨t, ts, rfl⟩ := List.exists_cons_of_ne_nil h
  clear h
  induction ts generalizing t role
  case nil => simp [curry]
  case cons hi =>
    rw [curry_cons, shaped_single_lambda_iff, hi]
    simp [and_assoc]

theorem shaped_function_iff (h : ts ≠ []) :
    Shaped single role (form .function (t :: (ts ++ [e]))) ↔ role = .definition ∧
      Shaped single .parameter t ∧ (∀ t ∈ ts, Shaped single .parameter t) ∧
      Shaped single .expression e := by
  have hr : Form.function.roles? (t :: (ts ++ [e])).length =
      some (.parameter :: (.replicate ts.length .parameter ++ [.expression])) := by
    obtain ⟨t, us, rfl⟩ := List.exists_cons_of_ne_nil h
    simp [Form.roles?]
  rw [shaped_form_iff_of_roles? hr, List.zip_cons_cons, List.forall_mem_cons, forall_zip_concat]
  simp [Form.role]

-- Forms of two or more children that stand for the same.
theorem shaped_uniform_iff {r : Role} (ha : f.arity = .atLeast 2)
    (hr : ∀ n, f.roles? (n + 2) = some (.replicate (n + 2) r)) :
    Shaped single role (form f ts) ↔ role = f.role ∧ 2 ≤ ts.length ∧
      (∀ t ∈ ts, Shaped single r t) ∧ (f = .simultaneous → ∀ t ∈ ts, single t) := by
  by_cases hl : 2 ≤ ts.length
  case pos =>
    have h := hr (ts.length - 2)
    rw [Nat.sub_add_cancel hl] at h
    rw [shaped_form_iff_of_roles? h, forall_zip_replicate]
    simp [hl]
  case neg =>
    have h : ¬ ∃ roles, f.roles? ts.length = some roles := by
      rw [← Form.accepts_iff, ha]
      simpa [Arity.accepts] using hl
    rw [shaped_form_iff]
    grind

theorem shaped_tau_iff : Shaped single role (form .tau ts) ↔
    role = .expression ∧ 2 ≤ ts.length ∧ ∀ t ∈ ts, Shaped single .expression t := by
  rw [shaped_uniform_iff rfl fun _ => rfl]
  simp [Form.role]

theorem shaped_comma_iff : Shaped single role (form .comma ts) ↔
    role = .parameter ∧ 2 ≤ ts.length ∧ ∀ t ∈ ts, ∃ x, t = name x := by
  rw [shaped_uniform_iff rfl fun _ => rfl]
  simp [Form.role, shaped_name_iff]

theorem shaped_simultaneous_iff : Shaped single role (form .simultaneous ts) ↔
    role = .definition ∧ 2 ≤ ts.length ∧ (∀ t ∈ ts, Shaped single .definition t) ∧
      ∀ t ∈ ts, single t := by
  rw [shaped_uniform_iff rfl fun _ => rfl]
  simp [Form.role]

end

-- What is below the root of a tree, or the tree itself.
inductive Subtree (u : Tree) : Tree → Prop
  | root : Subtree u u
  | inside {tag : Tag} {t : Tree} {ts : List Tree} : t ∈ ts → Subtree u t → Subtree u (node tag ts)

theorem subtree_node_iff {u : Tree} {tag : Tag} {ts : List Tree} :
    Subtree u (node tag ts) ↔ u = node tag ts ∨ ∃ t ∈ ts, Subtree u t := by
  constructor
  case mp =>
    rintro (_ | ⟨ht, h⟩)
    case root => exact .inl rfl
    case inside => exact .inr ⟨_, ht, h⟩
  case mpr =>
    rintro (rfl | ⟨t, ht, h⟩)
    case inl => exact .root
    case inr => exact .inside ht h

-- Every node has as many children as its tag admits.
def Legal (t : Tree) : Prop :=
  ∀ u, Subtree u t → u.hasLegalArity

theorem legal_node_iff {tag : Tag} {ts : List Tree} :
    (node tag ts).Legal ↔ tag.arity.accepts ts.length ∧ ∀ t ∈ ts, t.Legal := by
  simp only [Legal, subtree_node_iff]
  constructor
  case mp  => exact fun h => ⟨h _ (.inl rfl), fun t ht u hu => h u (.inr ⟨t, ht, hu⟩)⟩
  case mpr =>
    rintro ⟨ha, hts⟩ u (rfl | ⟨t, ht, hu⟩)
    case inl => exact ha
    case inr => exact hts t ht u hu

-- Every child of a form has a role.
theorem forall_of_forall_zip {f : Form} {roles : List Role} {ts : List Tree} {p : Tree → Prop}
    (hr : f.roles? ts.length = some roles) (h : ∀ x ∈ roles.zip ts, p x.2) : ∀ t ∈ ts, p t := by
  have hl := Nat.le_of_eq (Form.length_of_roles? hr).symm
  rw [← List.map_snd_zip hl, List.forall_mem_map]
  exact h

theorem Shaped.legal {single : Tree → Prop} {role : Role} {t : Tree} (h : Shaped single role t) :
    t.Legal := by
  induction h
  case form f ts roles _ hr _ _ hi =>
    exact legal_node_iff.mpr ⟨Form.accepts_iff.mpr ⟨roles, hr⟩, forall_of_forall_zip hr hi⟩
  all_goals exact legal_node_iff.mpr ⟨rfl, by simp⟩

theorem Plain.legal {t : Tree} (h : Plain t) : t.Legal := by
  induction h
  case leaf => exact legal_node_iff.mpr ⟨rfl, by simp⟩
  case lambda hn he => exact legal_node_iff.mpr ⟨rfl, by simp [hn, he]⟩
  case form ha _ hi => exact legal_node_iff.mpr ⟨ha, hi⟩

end Tree

end RpalMachine
