import RpalMachine.Proofs.Viability

namespace RpalMachine

namespace Lexeme

theorem legible_identifier : (identifier "x").Legible :=
  have hx : (ofWord (String.ofList ['x'])).Spelled := .word rfl nofun
  ⟨hx, nofun⟩

theorem legible_keyword {w : String} (h : w ∈ keywords) : (keyword w).Legible :=
  ⟨spelled_keyword h, nofun⟩

theorem legible_operator {c : Char} (h : Scan.isOperatorChar c) :
    (operator (String.ofList [c])).Legible :=
  ⟨.operator h nofun, nofun⟩

theorem legible_punctuation {c : Char} (h : Scan.isPunctuation c) :
    (punctuation (String.ofList [c])).Legible :=
  ⟨.punctuation h, nofun⟩

end Lexeme

namespace Level

open Reader

-- What a phrase begins with that has the opening.
def Opening.Opens (o : Opening) (c : Category) (l : Lexeme) : Prop :=
  match o with
  | .whole t     => Derives c [l] t
  | .parenthesis => l = .punctuation "("

theorem opens_of_operandOpening? {l : Lexeme} {o : Opening} (h : operandOpening? l = some o) :
    o.Opens .operand l := by
  cases l <;> simp only [operandOpening?] at h
  case identifier x => cases h; exact .alone rfl (.name x)
  case string s     => cases h; exact .string s
  case keyword w =>
    obtain ⟨l, hw, rfl⟩ := Option.map_eq_some_iff.mp h
    exact derives_of_word? hw
  case punctuation p =>
    split at h <;> cases h
    case isTrue hp => exact congrArg _ hp
  all_goals contradiction

theorem opens_of_parameterOpening? {l : Lexeme} {o : Opening} (h : parameterOpening? l = some o) :
    o.Opens .parameter l := by
  cases l <;> simp only [parameterOpening?] at h
  case identifier x => cases h; exact .alone rfl (.name x)
  case punctuation p =>
    split at h <;> cases h
    case isTrue hp => exact congrArg _ hp
  all_goals contradiction

-- A literal out of range is not a lexeme that is refused.
theorem operandHead_viable : Reader.Viable operandHead fun ls o? => match o? with
    | some o => ∃ l, ls = [l] ∧ o.Opens .operand l
    | none   => ls = [] := by
  refine .of_never (.get fun s => ?_) (.of_nil (a := none) rfl) fun s wanted rest => ?_
  case refine_1 =>
    cases s
    case nil => rintro _ _ ⟨⟩; exact ⟨[], rfl, rfl⟩
    case cons t s =>
      simp only
      split
      case h_1 ds ht =>
        intro o? s' h
        rw [bind_apply, set_apply] at h
        obtain ⟨n, s₁, hn, ho⟩ := bind_eq_ok h
        obtain ⟨k, hk, rfl, rfl⟩ := number_ok hn
        cases ho
        exact ⟨[t], rfl, _, rfl, ht ▸ derives_of_integer? hk⟩
      case h_2 =>
        split
        case h_1 o ho => rintro _ _ ⟨⟩; exact ⟨[t], rfl, _, rfl, opens_of_operandOpening? ho⟩
        case h_2      => rintro _ _ ⟨⟩; exact ⟨[], rfl, rfl⟩
  case refine_2 =>
    rcases s with _ | ⟨⟨l, _⟩, s⟩
    case nil => rintro ⟨⟩
    case cons =>
      cases l
      case integer ds =>
        simp only [operandHead, bind_apply, get_apply, set_apply]
        cases integer? (literal ds) <;> rintro ⟨⟩
      case keyword w     => cases hw : word? w <;> simp [operandHead, operandOpening?, hw]
      case punctuation p => by_cases hp : p = "(" <;> simp [operandHead, operandOpening?, hp]
      all_goals rintro ⟨⟩

theorem completes_of_name {c : Category} (h : Derives c [.identifier "x"] (.name "x")) :
    Completes (Derives c) [] :=
  .of_singleton Lexeme.legible_identifier h

theorem identifier_viable : Reader.Viable identifier (Derives .name) := by
  refine ⟨name_reads, completes_of_name (.name "x"), fun {s w rest} h => ?_⟩
  refine ⟨[], ?_, completes_of_name (.name "x")⟩
  simp only [identifier, bind_apply, get_apply] at h
  split at h <;> cases h
  rfl

-- Whatever is read on the level below can be completed.
def Viable (level : Level) : Prop :=
  ∀ phrase, Reader.Viable (level.nested phrase) (Derives phrase.category)

variable {level : Level}

theorem build_viable {f : Form} {children : List Tree} {p : List Lexeme → Tree → Prop}
    (h : p [] (.form f children)) : Reader.Viable (level.build f children) p := by
  refine .of_never (build_reads h) (.of_nil h) fun s _ _ => ?_
  by_cases hh : (Tree.form f children).height ≤ level.maxHeight <;> simp [build, hh, tooDeep]

theorem operation_viable {operator? : Lexeme → Option BinaryOperator} {operand : Reader Tree}
    {p q : List Lexeme → Tree → Prop} {t : Tree} (hv : Reader.Viable operand p)
    (h : ∀ {l op ms u}, operator? l = some op → p ms u → q (l :: ms) (.form (.binary op) [t, u])) :
    Reader.Viable (level.operation operator? operand t) (Further [] q) := by
  refine (Viable.takeIf operator?).bind fun ms op? hop => ?_
  cases op?
  case none => cases hop; exact .pure rfl
  case some op =>
    obtain ⟨l, rfl, hl⟩ := hop
    refine .map (hv.bind fun ms u hu => build_viable ?_)
    exact ⟨by simp, by simpa using h hl hu⟩

theorem leftChain_viable {c d : Category} {operand : Reader Tree} {ls : List Lexeme} {t : Tree}
    (hd : c.alone? = some d) (hv : Reader.Viable operand (Derives d)) (h : Derives c ls t) :
    Reader.Viable (level.leftChain c.operator? operand t) fun ms => Derives c (ls ++ ms) :=
  .iterate h fun _ _ h => operation_viable hv fun hl hu =>
    .chain (Category.operator?_eq_some_iff.mp hl) hd h hu

theorem joined_viable {c d e : Category} {mark : Lexeme} {f : Form} {first second : Reader Tree}
    (hc : c.alone? = some d) (h : ∀ {ls ms t u}, Derives d ls t → Derives e ms u →
      Derives c (ls ++ mark :: ms) (.form f [t, u])) (hf : Reader.Viable first (Derives d))
    (hs : Reader.Viable second (Derives e)) :
    Reader.Viable (level.joined mark f first second) (Derives c) := by
  refine hf.bind fun ls t ht => .ifSkip (hs.bind fun ms u hu => build_viable ?_) (.pure ?_)
  case refine_1 => simpa using h ht hu
  case refine_2 => simpa using .alone hc ht

theorem marked_viable {c d : Category} {mark : Lexeme} {f : Form} {phrase : Reader Tree}
    (hc : c.alone? = some d) (h : ∀ {ls t}, Derives d ls t → Derives c (mark :: ls) (.form f [t]))
    (hp : Reader.Viable phrase (Derives d)) :
    Reader.Viable (level.marked mark f phrase) (Derives c) := by
  refine .ifSkip (hp.bind fun ls t ht => build_viable ?_) (hp.mono fun _ _ => .alone hc)
  simpa using h ht

theorem seriesAfter_viable {c d : Category} {mark : Lexeme} {f : Form} {item : Reader Tree}
    {ls : List Lexeme} {t : Tree} (hs : c.series? = some (d, mark, f))
    (hi : Reader.Viable item (Derives d)) (h : Derives d ls t) :
    Reader.Viable (level.seriesAfter f mark item t) fun ms => Derives c (ls ++ ms) := by
  refine (hi.manyAfter mark).bind fun ms ts ⟨pieces, hp, ht, hm⟩ => ?_
  subst ht hm
  rw [gather]
  cases pieces
  case nil =>
    have hc := Category.alone?_of_series? hs
    exact .pure (by simpa [Pieces.markedBy] using .alone hc h)
  case cons p pieces =>
    refine build_viable ?_
    simpa [Pieces.trees] using Derives.series hs (List.cons_ne_nil _ _) h hp

theorem namesAfter_viable {ls : List Lexeme} {t : Tree} (h : Derives .name ls t) :
    Reader.Viable (level.namesAfter t) fun ms => Derives .names (ls ++ ms) :=
  seriesAfter_viable rfl identifier_viable h

theorem closing_viable : Reader.Viable (expect (.punctuation ")")) fun ls _ =>
    ls = [.punctuation ")"] :=
  .expect (Lexeme.legible_punctuation (c := ')') rfl)

theorem parameterAfter_viable {o : Opening} {l : Lexeme} (h : o.Opens .parameter l) :
    Reader.Viable (level.parameterAfter o) fun ms t => Derives .parameter (l :: ms) t := by
  cases o
  case whole t     => exact .pure h
  case parenthesis =>
    cases h
    refine .ifSkip (.pure .noParameters) (identifier_viable.bind fun ls t h => ?_)
    refine (namesAfter_viable h).bind fun ms u hu => closing_viable.bind fun _ _ hpar => .pure ?_
    simpa [hpar] using Derives.parenthesizedNames hu

theorem parameter_viable : Reader.Viable level.parameter (Derives .parameter) := by
  rw [parameter_eq]
  refine (Viable.takeIf _).bind fun ls o? ho => ?_
  cases o?
  case none =>
    cases ho
    exact .refuse (completes_of_name (.alone rfl (.name "x")))
  case some o =>
    obtain ⟨l, rfl, ho⟩ := ho
    exact parameterAfter_viable (opens_of_parameterOpening? ho)

theorem parametersUntil_viable {mark : Lexeme} (hm : mark.Legible) :
    Reader.Viable (manyUntil mark level.parameter) fun ls ts => ∃ pieces : Pieces,
      (∀ p ∈ pieces, Derives .parameter p.1 p.2) ∧ ts = pieces.trees ∧
        ls = pieces.lexemes ++ [mark] :=
  parameter_viable.manyUntil (fun _ _ h => h.ne_nil) hm

section
variable (v : level.Viable)
include v

theorem operandAfter_viable {o : Opening} {l : Lexeme} (h : o.Opens .operand l) :
    Reader.Viable (level.operandAfter o) fun ms t => Derives .operand (l :: ms) t := by
  cases o
  case whole t     => exact .pure h
  case parenthesis =>
    cases h
    refine (v .expression).bind fun ls t h => closing_viable.bind fun _ _ hpar => .pure ?_
    simpa [hpar] using Derives.parenthesized h

theorem operand_viable : Reader.Viable level.operand (Derives .operand) := by
  rw [operand_eq]
  refine operandHead_viable.bind fun ls o? ho => ?_
  cases o?
  case none =>
    cases ho
    exact .refuse (completes_of_name (.alone rfl (.name "x")))
  case some o =>
    obtain ⟨l, rfl, ho⟩ := ho
    exact operandAfter_viable v ho

theorem argument_viable {q : List Lexeme → Tree → Prop} {t : Tree}
    (h : ∀ {ms u}, Derives .operand ms u → q ms (.form .gamma [t, u])) :
    Reader.Viable (level.argument t) (Further [] q) := by
  rw [argument_eq]
  refine operandHead_viable.bind fun ls o? ho => ?_
  cases o?
  case none   => cases ho; exact .pure rfl
  case some o =>
    obtain ⟨l, rfl, ho⟩ := ho
    refine .map ((operandAfter_viable v ho).bind fun ms u hu => build_viable ?_)
    exact ⟨by simp, by simpa using h hu⟩

theorem application_viable : Reader.Viable level.application (Derives .application) :=
  (operand_viable v).bind fun _ _ h => .iterate (.alone rfl h) fun _ _ h =>
    argument_viable v fun hu => .application h hu

theorem call_viable {q : List Lexeme → Tree → Prop} {t : Tree}
    (h : ∀ {x ms u}, Derives .application ms u →
      q (.operator "@" :: .identifier x :: ms) (.form .infixCall [t, .name x, u])) :
    Reader.Viable (level.call t) (Further [] q) := by
  refine .ifSkip (identifier_viable.bind fun ms fn hfn => ?_) (.pure rfl)
  have ⟨x, hms, ht⟩ := hfn.eq_of_name
  subst hms ht
  refine .map ((application_viable v).bind fun ms u hu => build_viable ?_)
  exact ⟨by simp, by simpa using h hu⟩

theorem infixCall_viable : Reader.Viable level.infixCall (Derives .infixCall) :=
  (application_viable v).bind fun _ _ h => .iterate (.alone rfl h) fun _ _ h =>
    call_viable v fun hu => .infixCall _ h hu

theorem power_viable : Reader.Viable level.power (Derives .power) :=
  joined_viable rfl .power (infixCall_viable v) (v .power)

theorem product_viable : Reader.Viable level.product (Derives .product) :=
  (v .power).bind fun _ _ h => leftChain_viable (c := .product) rfl (v .power) (.alone rfl h)

theorem signed_viable : Reader.Viable level.signed (Derives .sum) := by
  have hp := product_viable v
  refine .ifSkip (hp.bind fun ls t h => build_viable ?_) (.ifSkip ?_ ?_)
  case refine_1 => simpa using Derives.minus h
  case refine_2 => exact hp.mono fun ls t h => .plus h
  case refine_3 => exact hp.mono fun ls t h => .alone rfl h

theorem sum_viable : Reader.Viable level.sum (Derives .sum) :=
  (signed_viable v).bind fun _ _ h => leftChain_viable (c := .sum) rfl (product_viable v) h

theorem comparison_viable : Reader.Viable level.comparison (Derives .comparison) := by
  refine (sum_viable v).bind fun ls t h => (Viable.takeIf _).bind fun ms op? hop => ?_
  cases op?
  case none   => exact .pure (by simpa [hop] using Derives.alone rfl h)
  case some op =>
    obtain ⟨l, rfl, hl⟩ := hop
    refine (sum_viable v).bind fun ms u hu => build_viable ?_
    simpa using Derives.comparison (comparison?_eq_some_iff.mp hl) h hu

theorem negation_viable : Reader.Viable level.negation (Derives .negation) :=
  marked_viable rfl .negation (comparison_viable v)

theorem conjunction_viable : Reader.Viable level.conjunction (Derives .conjunction) :=
  (negation_viable v).bind fun _ _ h =>
    leftChain_viable (c := .conjunction) rfl (negation_viable v) (.alone rfl h)

theorem disjunction_viable : Reader.Viable level.disjunction (Derives .disjunction) :=
  (conjunction_viable v).bind fun _ _ h =>
    leftChain_viable (c := .disjunction) rfl (conjunction_viable v) (.alone rfl h)

theorem conditional_viable : Reader.Viable level.conditional (Derives .conditional) := by
  have hbar : (Lexeme.operator "|").Legible := Lexeme.legible_operator (c := '|') rfl
  refine (disjunction_viable v).bind fun ls t h => .ifSkip ?_ (.pure ?_)
  case refine_1 =>
    refine (v .conditional).bind fun ms u hu => (Viable.expect hbar).bind fun _ _ hm => ?_
    refine (v .conditional).bind fun ns w hw => build_viable ?_
    simpa [hm] using Derives.conditional h hu hw
  case refine_2 => simpa using Derives.alone rfl h

theorem augmentation_viable : Reader.Viable level.augmentation (Derives .augmentation) :=
  (v .conditional).bind fun _ _ h =>
    leftChain_viable (c := .augmentation) rfl (v .conditional) (.alone rfl h)

theorem tuple_viable : Reader.Viable level.tuple (Derives .tuple) :=
  (augmentation_viable v).bind fun _ _ h => seriesAfter_viable rfl (augmentation_viable v) h

theorem bindingAfter_viable {x : String} :
    Reader.Viable (level.bindingAfter (.name x)) fun ms =>
      Derives .binding (.identifier x :: ms) := by
  have hequal : (Lexeme.operator "=").Legible := Lexeme.legible_operator (c := '=') rfl
  refine (Viable.takeIf _).bind fun ms o? ho => ?_
  cases o?
  case none =>
    cases ho
    refine (namesAfter_viable (.name x)).bind fun ms names hn => ?_
    refine (Viable.expect hequal).bind fun _ _ hm => (v .expression).bind fun ns u hu => ?_
    exact build_viable (by simpa [hm] using Derives.equal hn hu)
  case some o =>
    obtain ⟨l, rfl, ho⟩ := ho
    refine (parameterAfter_viable (opens_of_parameterOpening? ho)).bind fun ms first hf => ?_
    refine (parametersUntil_viable hequal).bind fun _ ps ⟨pieces, hp, hps, hm⟩ => ?_
    refine (v .expression).bind fun ns u hu => build_viable ?_
    have hp' : ∀ p ∈ (l :: ms, first) :: pieces, Derives .parameter p.1 p.2 :=
      List.forall_mem_cons.mpr ⟨hf, hp⟩
    simpa [hm, hps, Pieces.lexemes, Pieces.trees] using
      Derives.function x (List.cons_ne_nil _ _) hp' hu

theorem binding_viable : Reader.Viable level.binding (Derives .binding) := by
  rw [binding_eq]
  refine .ifSkip ?_ (identifier_viable.bind fun ls t h => ?_)
  case refine_1 =>
    refine (v .definition).bind fun ls t h => closing_viable.bind fun _ _ hpar => .pure ?_
    simpa [hpar] using Derives.parenthesizedDefinition h
  case refine_2 =>
    have ⟨x, hl, ht⟩ := h.eq_of_name
    subst hl ht
    exact bindingAfter_viable v

theorem recursion_viable : Reader.Viable level.recursion (Derives .recursion) :=
  marked_viable rfl .recursive (binding_viable v)

theorem simultaneous_viable : Reader.Viable level.simultaneous (Derives .simultaneous) :=
  (recursion_viable v).bind fun _ _ h => seriesAfter_viable rfl (recursion_viable v) h

theorem definition_viable : Reader.Viable level.definition (Derives .definition) :=
  joined_viable rfl .within (simultaneous_viable v) (v .definition)

theorem clause_viable : Reader.Viable level.clause (Derives .clause) :=
  joined_viable rfl .whereIn (tuple_viable v) (recursion_viable v)

theorem expression_viable : Reader.Viable level.expression (Derives .expression) := by
  refine .ifSkip ?_ (.ifSkip ?_ ((clause_viable v).mono fun ls t h => .alone rfl h))
  case refine_1 =>
    have hin : (Lexeme.keyword "in").Legible := Lexeme.legible_keyword (by decide)
    refine (v .definition).bind fun ls t h => (Viable.expect hin).bind fun _ _ hm => ?_
    refine (v .expression).bind fun ms u hu => build_viable ?_
    simpa [hm] using Derives.letIn h hu
  case refine_2 =>
    have hdot : (Lexeme.operator ".").Legible := Lexeme.legible_operator (c := '.') rfl
    refine parameter_viable.bind fun ls t h => ?_
    refine (parametersUntil_viable hdot).bind fun _ ps ⟨pieces, hp, hps, hm⟩ => ?_
    refine (v .expression).bind fun ns u hu => build_viable ?_
    have hp' : ∀ p ∈ (ls, t) :: pieces, Derives .parameter p.1 p.2 :=
      List.forall_mem_cons.mpr ⟨h, hp⟩
    simpa [hm, hps, Pieces.lexemes, Pieces.trees] using
      Derives.lambda (List.cons_ne_nil _ _) hp' hu

theorem phrase_viable : (phrase : Phrase) →
    Reader.Viable (level.phrase phrase) (Derives phrase.category)
  | .expression  => expression_viable v
  | .conditional => conditional_viable v
  | .power       => power_viable v
  | .definition  => definition_viable v

end

end Level

namespace Derives

theorem power_of_name (x : String) : Derives .power [.identifier x] (.name x) :=
  .alone rfl (.alone rfl (.alone rfl (.alone rfl (.name x))))

theorem conditional_of_name (x : String) : Derives .conditional [.identifier x] (.name x) :=
  .alone rfl (.alone rfl (.alone rfl (.alone rfl (.alone rfl (.alone rfl (.alone rfl
    (power_of_name x)))))))

theorem expression_of_name (x : String) : Derives .expression [.identifier x] (.name x) :=
  .alone rfl (.alone rfl (.alone rfl (.alone rfl (conditional_of_name x))))

theorem definition_of_names (x y : String) :
    Derives .definition [.identifier x, .operator "=", .identifier y]
      (.form .equal [.name x, .name y]) :=
  .alone rfl (.alone rfl (.alone rfl (.equal (.alone rfl (.name x)) (expression_of_name y))))

end Derives

namespace Phrase

open Reader

theorem completes : (phrase : Phrase) → Completes (Derives phrase.category) []
  | .expression  => Level.completes_of_name (.expression_of_name "x")
  | .conditional => Level.completes_of_name (.conditional_of_name "x")
  | .power       => Level.completes_of_name (.power_of_name "x")
  | .definition  => by
    have hequal : (Lexeme.operator "=").Legible := Lexeme.legible_operator (c := '=') rfl
    have hx := Lexeme.legible_identifier
    exact ⟨_, _, by simp [hx, hequal], .definition_of_names "x" "x"⟩

-- Whatever was taken when a lexeme is refused is the beginning of a phrase.
theorem read_viable (m n : Nat) (phrase : Phrase) :
    Viable (read m n phrase) (Derives phrase.category) := by
  induction n generalizing phrase
  case zero      => exact .of_never (read_reads m 0 phrase) phrase.completes fun _ _ _ => nofun
  case succ n hi =>
    have v : Level.Viable ⟨m, read m n⟩ := hi
    exact Level.phrase_viable v phrase

end Phrase

end RpalMachine
