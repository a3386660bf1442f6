import RpalMachine.Proofs.Lookahead
import RpalMachine.Proofs.Reading

namespace RpalMachine

@[simp]
def Phrase.category : Phrase → Category
  | expression  => .expression
  | conditional => .conditional
  | power       => .power
  | definition  => .definition

namespace Level

open Reader

-- What is read on the level below are phrases of the grammar.
def Sound (level : Level) : Prop :=
  ∀ phrase, Reads (level.nested phrase) (Derives phrase.category)

variable {level : Level}

theorem build_reads {f : Form} {children : List Tree} {p : List Lexeme → Tree → Prop}
    (h : p [] (.form f children)) : Reads (level.build f children) p := by
  by_cases hh : (Tree.form f children).height ≤ level.maxHeight
  case pos =>
    simp only [build, hh, if_true]
    exact .pure h
  case neg =>
    simp only [build, hh, if_false]
    exact .get fun _ => Reads.throw _ _

theorem name_reads : Reads identifier (Derives .name) :=
  Reads.identifier.mono fun _ _ ⟨x, hl, ht⟩ => hl ▸ ht ▸ .name x

-- What reading an operator and its second operand adds to the first operand.
theorem operation_reads {operator? : Lexeme → Option BinaryOperator} {operand : Reader Tree}
    {p q : List Lexeme → Tree → Prop} {t : Tree} (hr : Reads operand p)
    (h : ∀ {l op ms u}, operator? l = some op → p ms u → q (l :: ms) (.form (.binary op) [t, u])) :
    Reads (level.operation operator? operand t) (Further [] q) := by
  refine (Reads.takeIf operator?).bind fun ms op? hop => ?_
  cases op?
  case none => cases hop; exact .pure rfl
  case some op =>
    obtain ⟨l, rfl, hl⟩ := hop
    refine .map (hr.bind fun ms u hu => build_reads ?_)
    exact ⟨by simp, by simpa using h hl hu⟩

theorem leftChain_reads {c d : Category} {operand : Reader Tree} {ls : List Lexeme} {t : Tree}
    (hd : c.alone? = some d) (hr : Reads operand (Derives d)) (h : Derives c ls t) :
    Reads (level.leftChain c.operator? operand t) fun ms => Derives c (ls ++ ms) :=
  .iterate h fun _ _ h => operation_reads hr fun hl hu =>
    .chain (Category.operator?_eq_some_iff.mp hl) hd h hu

theorem joined_reads {c d e : Category} {mark : Lexeme} {f : Form} {first second : Reader Tree}
    (hc : c.alone? = some d) (h : ∀ {ls ms t u}, Derives d ls t → Derives e ms u →
      Derives c (ls ++ mark :: ms) (.form f [t, u])) (hf : Reads first (Derives d))
    (hs : Reads second (Derives e)) : Reads (level.joined mark f first second) (Derives c) := by
  refine hf.bind fun ls t ht => .ifSkip (hs.bind fun ms u hu => build_reads ?_) (.pure ?_)
  case refine_1 => simpa using h ht hu
  case refine_2 => simpa using .alone hc ht

theorem marked_reads {c d : Category} {mark : Lexeme} {f : Form} {phrase : Reader Tree}
    (hc : c.alone? = some d) (h : ∀ {ls t}, Derives d ls t → Derives c (mark :: ls) (.form f [t]))
    (hp : Reads phrase (Derives d)) : Reads (level.marked mark f phrase) (Derives c) := by
  refine .ifSkip (hp.bind fun ls t ht => build_reads ?_) (hp.mono fun _ _ => .alone hc)
  simpa using h ht

theorem number_ok {o : Token} {n? : Option Int64} {t : Tree} {s s' : List Token}
    (h : number o n? s = .ok (t, s')) : ∃ n, n? = some n ∧ t = .leaf (.integer n) ∧ s' = s := by
  cases n?
  case none   => contradiction
  case some n => cases h; exact ⟨n, rfl, rfl, rfl⟩

theorem derives_of_integer? {digits : String} {n : Int64}
    (h : integer? (literal digits) = some n) :
    Derives .operand [.integer digits] (.leaf (.integer n)) :=
  .integer (integer?_eq_some_iff.mp h)

theorem derives_of_word? {w : String} {l : Leaf} (h : word? w = some l) :
    Derives .operand [.keyword w] (.leaf l) := by
  simp only [word?] at h
  split at h <;> cases h
  case h_1 => exact .truth true
  case h_2 => exact .truth false
  case h_3 => exact .nil
  case h_4 => exact .dummy

-- One item stands for itself, as the grammar has it.
theorem seriesAfter_reads {c d : Category} {mark : Lexeme} {f : Form} {item : Reader Tree}
    {ls : List Lexeme} {t : Tree} (hs : c.series? = some (d, mark, f)) (hi : Reads item (Derives d))
    (h : Derives d ls t) :
    Reads (level.seriesAfter f mark item t) fun ms => Derives c (ls ++ ms) := by
  refine (hi.manyAfter mark).bind fun ms ts ⟨pieces, hp, ht, hm⟩ => ?_
  subst ht hm
  rw [gather]
  cases pieces
  case nil =>
    have hc := Category.alone?_of_series? hs
    exact .pure (by simpa [Pieces.markedBy] using .alone hc h)
  case cons p pieces =>
    refine build_reads ?_
    simpa [Pieces.trees] using Derives.series hs (List.cons_ne_nil _ _) h hp

section
variable (sound : level.Sound)
include sound

theorem inParentheses_reads :
    Reads (do let e ← level.nested .expression; expect (.punctuation ")"); return e)
      fun ls t => Derives .operand (.punctuation "(" :: ls) t := by
  refine (sound .expression).bind fun ls t h => (Reads.expect _).bind fun _ _ hpar => .pure ?_
  simpa [hpar] using Derives.parenthesized h

theorem operand_reads : Reads level.operand (Derives .operand) := by
  rw [operand]
  refine .get fun s => ?_
  match s with
  | [] => exact Reads.refuse _ _
  | ⟨.operator _, _⟩ :: s => exact Reads.refuse _ _
  | ⟨.identifier x, o⟩ :: s =>
    rintro _ _ ⟨⟩
    exact ⟨[⟨.identifier x, o⟩], rfl, .alone rfl (.name x)⟩
  | ⟨.string x, o⟩ :: s =>
    rintro _ _ ⟨⟩
    exact ⟨[⟨.string x, o⟩], rfl, .string x⟩
  | ⟨.integer ds, o⟩ :: s =>
    intro t s' h
    dsimp only at h
    rw [bind_apply, set_apply] at h
    have ⟨n, hn, ht, hs⟩ := number_ok h
    exact ⟨[⟨.integer ds, o⟩], congrArg _ hs.symm, ht ▸ derives_of_integer? hn⟩
  | ⟨.keyword w, o⟩ :: s =>
    simp only
    split
    case h_1 l hw => rintro _ _ ⟨⟩; exact ⟨[⟨.keyword w, o⟩], rfl, derives_of_word? hw⟩
    case h_2 => exact Reads.refuse _ _
  | ⟨.punctuation p, o⟩ :: s =>
    by_cases hp : p = "("
    case neg => simp only [hp, if_false]; exact Reads.refuse _ _
    case pos =>
      subst hp
      simp only [if_true]
      intro t s'' h
      rw [bind_apply, set_apply] at h
      have ⟨taken, hs, ht⟩ := inParentheses_reads sound s t s'' h
      exact ⟨⟨.punctuation "(", o⟩ :: taken, congrArg _ hs, ht⟩

theorem argument_reads {q : List Lexeme → Tree → Prop} {t : Tree}
    (h : ∀ {ms u}, Derives .operand ms u → q ms (.form .gamma [t, u])) :
    Reads (level.argument t) (Further [] q) := by
  refine .get fun s => ?_
  split
  case isFalse => rintro _ _ ⟨⟩; exact ⟨[], rfl, rfl⟩
  case isTrue  =>
    refine Reads.map ((operand_reads sound).bind fun ms u hu => build_reads ?_) s
    have ⟨_, _, hms, _⟩ := hu.begins
    exact ⟨by simp [hms], by simpa using h hu⟩

theorem argumentsAfter_reads {ls : List Lexeme} {t : Tree} (h : Derives .application ls t) :
    Reads (level.argumentsAfter t) fun ms => Derives .application (ls ++ ms) :=
  .iterate h fun _ _ h => argument_reads sound fun hu => .application h hu

theorem application_reads : Reads level.application (Derives .application) :=
  (operand_reads sound).bind fun _ _ h => argumentsAfter_reads sound (.alone rfl h)

theorem call_reads {q : List Lexeme → Tree → Prop} {t : Tree}
    (h : ∀ {x ms u}, Derives .application ms u →
      q (.operator "@" :: .identifier x :: ms) (.form .infixCall [t, .name x, u])) :
    Reads (level.call t) (Further [] q) := by
  refine .ifSkip (Reads.identifier.bind fun ms fn ⟨x, hms, hfn⟩ => ?_) (.pure rfl)
  subst hms hfn
  refine .map ((application_reads sound).bind fun ms u hu => build_reads ?_)
  exact ⟨by simp, by simpa using h hu⟩

theorem callsAfter_reads {ls : List Lexeme} {t : Tree} (h : Derives .infixCall ls t) :
    Reads (level.callsAfter t) fun ms => Derives .infixCall (ls ++ ms) :=
  .iterate h fun _ _ h => call_reads sound fun hu => .infixCall _ h hu

theorem infixCall_reads : Reads level.infixCall (Derives .infixCall) :=
  (application_reads sound).bind fun _ _ h => callsAfter_reads sound (.alone rfl h)

theorem power_reads : Reads level.power (Derives .power) :=
  joined_reads rfl .power (infixCall_reads sound) (sound .power)

theorem product_reads : Reads level.product (Derives .product) := by
  refine (sound .power).bind fun ls t h => ?_
  exact leftChain_reads (c := .product) rfl (sound .power) (.alone rfl h)

theorem signed_reads : Reads level.signed (Derives .sum) := by
  refine .ifSkip ?_ (.ifSkip ?_ ?_)
  case refine_1 =>
    refine (product_reads sound).bind fun ls t h => build_reads ?_
    simpa using Derives.minus h
  case refine_2 => exact (product_reads sound).mono fun ls t h => .plus h
  case refine_3 => exact (product_reads sound).mono fun ls t h => .alone rfl h

theorem sum_reads : Reads level.sum (Derives .sum) :=
  (signed_reads sound).bind fun _ _ h => leftChain_reads (c := .sum) rfl (product_reads sound) h

theorem comparison_reads : Reads level.comparison (Derives .comparison) := by
  refine (sum_reads sound).bind fun ls t h => (Reads.takeIf _).bind fun ms op? hop => ?_
  cases op?
  case none   => exact .pure (by simpa [hop] using Derives.alone rfl h)
  case some op =>
    obtain ⟨l, rfl, hl⟩ := hop
    refine (sum_reads sound).bind fun ms u hu => build_reads ?_
    simpa using Derives.comparison (comparison?_eq_some_iff.mp hl) h hu

theorem negation_reads : Reads level.negation (Derives .negation) :=
  marked_reads rfl .negation (comparison_reads sound)

theorem conjunction_reads : Reads level.conjunction (Derives .conjunction) :=
  (negation_reads sound).bind fun _ _ h =>
    leftChain_reads (c := .conjunction) rfl (negation_reads sound) (.alone rfl h)

theorem disjunction_reads : Reads level.disjunction (Derives .disjunction) :=
  (conjunction_reads sound).bind fun _ _ h =>
    leftChain_reads (c := .disjunction) rfl (conjunction_reads sound) (.alone rfl h)

theorem conditional_reads : Reads level.conditional (Derives .conditional) := by
  refine (disjunction_reads sound).bind fun ls t h => .ifSkip ?_ (.pure ?_)
  case refine_1 =>
    refine (sound .conditional).bind fun ms u hu => (Reads.expect _).bind fun _ _ hbar => ?_
    refine (sound .conditional).bind fun ns v hv => build_reads ?_
    simpa [hbar] using Derives.conditional h hu hv
  case refine_2 => simpa using Derives.alone rfl h

theorem augmentation_reads : Reads level.augmentation (Derives .augmentation) :=
  (sound .conditional).bind fun _ _ h =>
    leftChain_reads (c := .augmentation) rfl (sound .conditional) (.alone rfl h)

theorem tuple_reads : Reads level.tuple (Derives .tuple) :=
  (augmentation_reads sound).bind fun _ _ h =>
    seriesAfter_reads rfl (augmentation_reads sound) h

omit sound in
theorem namesAfter_reads {ls : List Lexeme} {t : Tree} (h : Derives .name ls t) :
    Reads (level.namesAfter t) fun ms => Derives .names (ls ++ ms) :=
  seriesAfter_reads rfl name_reads h

omit sound in
theorem parameter_reads : Reads level.parameter (Derives .parameter) := by
  refine .ifSkip (.ifSkip (.pure .noParameters) ?_) (name_reads.mono fun ls t h => .alone rfl h)
  refine name_reads.bind fun ls t h => (namesAfter_reads h).bind fun ms u hu => ?_
  refine (Reads.expect _).bind fun _ _ hpar => .pure ?_
  simpa [hpar] using Derives.parenthesizedNames hu

omit sound in
theorem parametersUntil_reads (mark : Lexeme) :
    Reads (manyUntil mark level.parameter) fun ls ts => ∃ pieces : Pieces,
      (∀ p ∈ pieces, Derives .parameter p.1 p.2) ∧ ts = pieces.trees ∧
        ls = pieces.lexemes ++ [mark] :=
  Reads.manyUntil parameter_reads (fun _ _ h => h.ne_nil) mark

theorem binding_reads : Reads level.binding (Derives .binding) := by
  refine .ifSkip ?_ (name_reads.bind fun ls t h => .get fun s => ?_)
  case refine_1 =>
    refine (sound .definition).bind fun ls t h => (Reads.expect _).bind fun _ _ hpar => .pure ?_
    simpa [hpar] using Derives.parenthesizedDefinition h
  case refine_2 =>
    split
    case isTrue hs =>
      refine (parametersUntil_reads _ s).bind fun taken ps s' ht ⟨pieces, hp, hps, hm⟩ => ?_
      -- What starts a parameter is not the mark after the parameters.
      have hne : pieces ≠ [] := by
        rintro rfl
        have ⟨t, ht', htl⟩ := List.map_eq_singleton_iff.mp hm
        simp [ht, ht', htl, binding.startsParameter] at hs
      refine (sound .expression).bind (fun ns u hu => build_reads ?_) s'
      have ⟨x, hl, ht⟩ := h.eq_of_name
      simpa [hm, hl, ht, hps] using Derives.function x hne hp hu
    case isFalse =>
      refine Reads.bind (namesAfter_reads h) (fun ms names hn => ?_) s
      refine (Reads.expect _).bind fun _ _ heq => ?_
      refine (sound .expression).bind fun ns u hu => build_reads ?_
      simpa [heq] using Derives.equal hn hu

theorem recursion_reads : Reads level.recursion (Derives .recursion) :=
  marked_reads rfl .recursive (binding_reads sound)

theorem simultaneous_reads : Reads level.simultaneous (Derives .simultaneous) :=
  (recursion_reads sound).bind fun _ _ h => seriesAfter_reads rfl (recursion_reads sound) h

theorem definition_reads : Reads level.definition (Derives .definition) :=
  joined_reads rfl .within (simultaneous_reads sound) (sound .definition)

theorem clause_reads : Reads level.clause (Derives .clause) :=
  joined_reads rfl .whereIn (tuple_reads sound) (recursion_reads sound)

theorem expression_reads : Reads level.expression (Derives .expression) := by
  refine .ifSkip ?_ (.ifSkip ?_ ((clause_reads sound).mono fun ls t h => .alone rfl h))
  case refine_1 =>
    refine (sound .definition).bind fun ls t h => (Reads.expect _).bind fun _ _ hin => ?_
    refine (sound .expression).bind fun ms u hu => build_reads ?_
    simpa [hin] using Derives.letIn h hu
  case refine_2 =>
    refine parameter_reads.bind fun ls t h => ?_
    refine (parametersUntil_reads _).bind fun _ ps ⟨pieces, hp, hps, hm⟩ => ?_
    refine (sound .expression).bind fun ns u hu => build_reads ?_
    have hp' : ∀ p ∈ (ls, t) :: pieces, Derives .parameter p.1 p.2 :=
      List.forall_mem_cons.mpr ⟨h, hp⟩
    simpa [hm, hps, Pieces.lexemes, Pieces.trees] using
      Derives.lambda (List.cons_ne_nil _ _) hp' hu

end

theorem phrase_reads (sound : level.Sound) : (phrase : Phrase) →
    Reads (level.phrase phrase) (Derives phrase.category)
  | .expression  => expression_reads sound
  | .conditional => conditional_reads sound
  | .power       => power_reads sound
  | .definition  => definition_reads sound

end Level

namespace Phrase

theorem read_reads (maxHeight : Nat) : (depth : Nat) → (phrase : Phrase) →
    Reader.Reads (read maxHeight depth phrase) (Derives phrase.category)
  | 0, _              => .get fun _ => Reader.Reads.throw _ _
  | depth + 1, phrase =>
    have sound : Level.Sound ⟨maxHeight, read maxHeight depth⟩ := read_reads maxHeight depth
    Level.phrase_reads sound phrase

end Phrase

end RpalMachine
