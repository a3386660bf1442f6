import RpalMachine.Proofs.Admission
import RpalMachine.Proofs.Height
import RpalMachine.Proofs.Language
import RpalMachine.Proofs.Modularity
import RpalMachine.Proofs.Refinement
import RpalMachine.Proofs.Layout

namespace RpalMachine

namespace Symbol

-- The least integer is left out, since the digits of it are not those of an integer.
inductive IsData : Symbol → Prop
  | integer {n : Int64} : n ≠ Int64.minValue → IsData (integer n)
  | truth (b : Bool) : IsData (truth b)
  | dummy : IsData dummy
  | nil : IsData nil
  | tuple {xs : List Symbol} : 2 ≤ xs.length → (∀ x ∈ xs, IsData x) → IsData (tuple xs)

mutual

-- How deep tuples are nested. The empty tuple is a word.
def nesting : Symbol → Nat
  | tuple (x :: xs) => 1 + max x.nesting (maxNesting xs)
  | _               => 0

def maxNesting : List Symbol → Nat
  | []      => 0
  | x :: xs => max x.nesting (maxNesting xs)

end

-- The lexemes that data is printed as, and the tree of them.
inductive Prints : Symbol → List Lexeme → Tree → Prop
  | number {n : Int64} {k : Nat} :
    n.toInt = k → Prints (integer n) [.integer (toString k)] (.leaf (.integer n))
  | negative {n a : Int64} {k : Nat} :
    n.toInt = -k → a.toInt = k → k ≠ 0 →
      Prints (integer n) [.operator "-", .integer (toString k)]
        (.form (.unary .neg) [.leaf (.integer a)])
  | truth (b : Bool) :
    Prints (truth b) [.keyword (if b then "true" else "false")] (.leaf (.truth b))
  | dummy : Prints dummy [.keyword "dummy"] (.leaf .dummy)
  | nil : Prints nil [.keyword "nil"] (.leaf .nil)
  | tuple {x : Symbol} {ls : List Lexeme} {t : Tree} {items : List (Symbol × List Lexeme × Tree)} :
    items ≠ [] → Prints x ls t → (∀ i ∈ items, Prints i.1 i.2.1 i.2.2) →
      Prints (tuple (x :: items.map (·.1)))
        (.punctuation "(" ::
          (ls ++ Pieces.markedBy (items.map (·.2)) (.punctuation ",") ++ [.punctuation ")"]))
        (.form .tau (t :: Pieces.trees (items.map (·.2))))

-- The opposite of a negative integer, which there is unless it is the least one.
theorem exists_opposite {n : Int64} (h : n ≠ Int64.minValue) (hn : n.toInt < 0) :
    ∃ a : Int64, a.toInt = -n.toInt := by
  have hne : n.toInt ≠ Int64.minValue.toInt := fun he => h (Int64.toInt_inj.mp he)
  have hle := n.minValue_le_toInt
  cases ha : integer? (-n.toInt)
  case some a => exact ⟨a, integer?_eq_some_iff.mp ha⟩
  case none =>
    rw [integer?_eq_none_iff] at ha
    rw [Int64.toInt_minValue] at hne hle ha
    rw [Int64.toInt_maxValue] at ha
    omega

theorem IsData.exists_prints {v : Symbol} (h : v.IsData) :
    ∃ p : List Lexeme × Tree, Prints v p.1 p.2 := by
  induction h
  case integer n hn =>
    cases hk : n.toInt
    case ofNat k     => exact ⟨(_, _), .number hk⟩
    case negSucc k =>
      have ⟨a, ha⟩ := exists_opposite hn (hk ▸ Int.negSucc_lt_zero k)
      have hn : n.toInt = -(k + 1 : Nat) := hk.trans (Int.negSucc_eq k)
      rw [hn, Int.neg_neg] at ha
      exact ⟨(_, _), .negative hn ha (Nat.succ_ne_zero k)⟩
  case truth b => exact ⟨(_, _), .truth b⟩
  case dummy   => exact ⟨(_, _), .dummy⟩
  case nil     => exact ⟨(_, _), .nil⟩
  case tuple xs hl _ hi =>
    have ⟨items, he, hp⟩ := Tree.exists_pairs hi
    subst he
    match items, hl with
    | i :: j :: items, _ =>
      have ⟨hi, hp⟩ := List.forall_mem_cons.mp hp
      exact ⟨(_, _), .tuple (List.cons_ne_nil j items) hi hp⟩

end Symbol

-- A phrase that is read with this many levels.
structure ReadAt (n : Nat) (c : Category) (ls : List Lexeme) (t : Tree) : Prop where
  derives : Derives c ls t
  accepts : AcceptsAt n c ls t

namespace ReadAt

variable {c d : Category} {ls : List Lexeme} {t : Tree} {n : Nat}

theorem leaf {l : Lexeme} (hd : Derives .operand [l] t)
    (h : ∀ {level : Level} {o : Token} {s : List Token}, o.lexeme = l →
      level.operand (o :: s) = .ok (t, s)) : ReadAt n .operand [l] t :=
  ⟨hd, .leaf h⟩

theorem number {a : Int64} {k : Nat} (h : a.toInt = k) :
    ReadAt n .operand [.integer (toString k)] (.leaf (.integer a)) := by
  have h : a.toInt = Level.literal (toString k) := by rw [h, Level.literal_toString]
  exact leaf (.integer h) fun ho => Level.operand_of_integer ho h

theorem alone (hc : c.alone? = some d) (h : ReadAt n d ls t) :
    ReadAt (n + (c.rank - d.rank)) c ls t :=
  ⟨.alone hc h.derives, h.accepts.alone hc h.derives⟩

theorem covered (hc : c.Covers d) (h : ReadAt n d ls t) :
    ReadAt (n + (c.rank - d.rank)) c ls t :=
  ⟨h.derives.covered hc, fun _ _ _ hs hh hr => (h.accepts.foundIn hh).covered hc h.derives hs hr⟩

theorem of_operand (h : ReadAt n .operand ls t) : ReadAt (n + 2) .augmentation ls t :=
  (alone rfl (covered Category.covers_product h)).covered Category.covers_augmentation

theorem minus (h : ReadAt n .operand ls t) :
    ReadAt (n + 2) .augmentation (.operator "-" :: ls) (.form (.unary .neg) [t]) := by
  have h := covered Category.covers_product h
  exact covered Category.covers_augmentation ⟨.minus h.derives, h.accepts.minus⟩

theorem parenthesized (h : ReadAt n .expression ls t) :
    ReadAt (n + 1) .operand (.punctuation "(" :: (ls ++ [.punctuation ")"])) t :=
  ⟨.parenthesized h.derives, h.accepts.parenthesized⟩

theorem series {f : Form} {mark : Lexeme} {pieces : Pieces} (hc : c.series? = some (d, mark, f))
    (hne : pieces ≠ []) (h : ReadAt n d ls t) (hp : ∀ p ∈ pieces, ReadAt n d p.1 p.2) :
    ReadAt n c (ls ++ pieces.markedBy mark) (.form f (t :: pieces.trees)) :=
  ⟨.series hc hne h.derives fun p hm => (hp p hm).derives,
    .series hc hne h.accepts fun p hm => (hp p hm).accepts⟩

end ReadAt

namespace Symbol

theorem nesting_le_maxNesting {x : Symbol} {xs : List Symbol} (h : x ∈ xs) :
    x.nesting ≤ maxNesting xs := by
  induction xs
  case nil => contradiction
  case cons y ys hi =>
    rw [maxNesting]
    cases h
    case head   => exact Nat.le_max_left ..
    case tail h => exact Nat.le_trans (hi h) (Nat.le_max_right ..)

theorem text_integer (n : Int64) : (integer n).text = toString n.toInt :=
  rfl

theorem text_tuple_cons (x : Symbol) (xs : List Symbol) :
    (tuple (x :: xs)).text = "(" ++ x.text ++ restText xs ++ ")" :=
  rfl

theorem restText_cons (x : Symbol) (xs : List Symbol) :
    restText (x :: xs) = ", " ++ x.text ++ restText xs :=
  rfl

theorem text_of_nat {n : Int64} {k : Nat} (h : n.toInt = k) : (integer n).text = toString k := by
  rw [text_integer, h, Int.toString_eq_repr, Int.repr_eq_if, if_pos (Int.natCast_nonneg k),
    Int.toNat_natCast, Nat.toString_eq_repr]

theorem text_of_neg {n : Int64} {k : Nat} (h : n.toInt = -k) (hk : k ≠ 0) :
    (integer n).text = "-" ++ toString k := by
  rw [text_integer, h, Int.toString_eq_repr, Int.repr_eq_if, if_neg (by omega), Int.neg_neg,
    Int.toNat_natCast, Nat.toString_eq_repr]

end Symbol

namespace Symbol.Prints

variable {v : Symbol} {ls : List Lexeme} {t : Tree} {n : Nat}

-- Each tuple takes three levels: one for the operand, and those down to an element.
theorem readAt (h : Prints v ls t) (hn : 3 * v.nesting + 2 ≤ n) : ReadAt n .augmentation ls t := by
  have ⟨m, hm⟩ : ∃ m, n = m + 2 := ⟨n - 2, by omega⟩
  subst hm
  induction h generalizing m
  case number hk        => exact .of_operand (.number hk)
  case negative _ ha _  => exact .minus (.number ha)
  case dummy            => exact .of_operand (.leaf .dummy fun ho => Level.operand_of_word ho rfl)
  case nil              => exact .of_operand (.leaf .nil fun ho => Level.operand_of_word ho rfl)
  case truth b =>
    refine .of_operand (.leaf (.truth b) fun ho => Level.operand_of_word ho ?_)
    cases b <;> rfl
  case tuple x ls t items hne _ _ hi hi' =>
    simp only [nesting] at hn
    have ⟨m, hm⟩ : ∃ k, m = k + 3 := ⟨m - 3, by omega⟩
    subst hm
    have hx : ReadAt (m + 2) .augmentation ls t := hi m (by omega)
    have hp : ∀ p ∈ items.map (·.2), ReadAt (m + 2) .augmentation p.1 p.2 :=
      List.forall_mem_map.mpr fun i h => by
        have := nesting_le_maxNesting (List.mem_map_of_mem (f := (·.1)) h)
        exact hi' i h m (by omega)
    have hs := ReadAt.series (c := .tuple) rfl (by simpa using hne) hx hp
    exact .of_operand (.parenthesized (hs.covered Category.covers_expression))

theorem height_le (h : Prints v ls t) : t.height ≤ v.nesting + 2 := by
  induction h
  case tuple x ls t items _ _ _ hi hi' =>
    have hm : Tree.maxHeight (Pieces.trees (items.map (·.2))) ≤
        maxNesting (items.map (·.1)) + 2 := by
      refine Tree.maxHeight_le_iff.mpr (List.forall_mem_map.mpr (List.forall_mem_map.mpr ?_))
      intro i h
      have := nesting_le_maxNesting (List.mem_map_of_mem (f := (·.1)) h)
      have := hi' i h
      omega
    simp only [Tree.height, Tree.maxHeight, nesting]
    omega
  all_goals simp [Tree.height, Tree.maxHeight]

open Scan

-- A sign goes on with no digit, and with none of them is it a comment.
theorem scans_minus {k : Nat} {rest : List Char} {ms : List Lexeme}
    (h : Scans ((toString k).toList ++ rest) ms) :
    Scans ("-".toList ++ ((toString k).toList ++ rest)) (.operator "-" :: ms) := by
  have hm : (Lexeme.operator (String.ofList ['-'])).Spelled := .operator rfl nofun
  have ho : opensComment ("-".toList ++ ((toString k).toList ++ rest)) = false :=
    opensComment_of_ne (by decide)
  refine .lexeme hm (fun c hc => ?_) ho h
  have ⟨d, ds, hl, hd, _⟩ := Lexeme.exists_digits k
  rw [hl] at hc
  cases hc
  refine Bool.eq_false_iff.mpr fun hc => ?_
  simp [(first_of_isOperatorChar hc).2.1] at hd

-- The elements after the first, each behind its mark.
theorem scans_rest {items : List (Symbol × List Lexeme × Tree)} {rest : List Char}
    {ms : List Lexeme} (hi : ∀ i ∈ items, ∀ {rest : List Char} {ms : List Lexeme}, Scans rest ms →
      (∀ c ∈ rest.head?, isPunctuation c) → Scans (i.1.text.toList ++ rest) (i.2.1 ++ ms))
    (h : Scans rest ms) (hr : ∀ c ∈ rest.head?, isPunctuation c) :
    Scans ((restText (items.map (·.1))).toList ++ rest)
      (Pieces.markedBy (items.map (·.2)) (.punctuation ",") ++ ms) ∧
      ∀ c ∈ ((restText (items.map (·.1))).toList ++ rest).head?, isPunctuation c := by
  induction items
  case nil => exact ⟨h, hr⟩
  case cons i items ih =>
    rw [List.forall_mem_cons] at hi
    have ⟨hs, hp⟩ := ih hi.2
    have hs := ((hi.1 hs hp).blank (c := ' ') rfl).punctuation (c := ',') rfl
    have ht : (restText ((i :: items).map (·.1))).toList ++ rest =
        ',' :: ' ' :: (i.1.text.toList ++ ((restText (items.map (·.1))).toList ++ rest)) := by
      simp [restText_cons]
    rw [ht]
    refine ⟨?_, by simp; rfl⟩
    simpa [Pieces.markedBy] using hs

theorem scans (h : Prints v ls t) {rest : List Char} {ms : List Lexeme} (hs : Scans rest ms)
    (hr : ∀ c ∈ rest.head?, isPunctuation c) : Scans (v.text.toList ++ rest) (ls ++ ms) := by
  induction h generalizing rest ms
  case number n k hk =>
    rw [text_of_nat hk]
    exact hs.beforePunctuation (Lexeme.spelled_number k) rfl hr
  case negative n a k hn _ hk =>
    rw [text_of_neg hn hk, String.toList_append, List.append_assoc]
    exact scans_minus (hs.beforePunctuation (Lexeme.spelled_number k) rfl hr)
  case truth b =>
    have hw : (if b then "true" else "false") ∈ Lexeme.keywords := by cases b <;> decide
    have := hs.beforePunctuation (Lexeme.spelled_keyword hw) rfl hr
    cases b <;> exact this
  case dummy => exact hs.beforePunctuation (Lexeme.spelled_keyword (by decide)) rfl hr
  case nil   => exact hs.beforePunctuation (Lexeme.spelled_keyword (by decide)) rfl hr
  case tuple x ls t items _ _ _ hi hi' =>
    have hs := hs.punctuation (c := ')') rfl
    have ⟨hs, hp⟩ := scans_rest (fun i h _ _ => hi' i h) hs (by simp; rfl)
    have hs := (hi hs hp).punctuation (c := '(') rfl
    simpa [text_tuple_cons] using hs

theorem plain (h : Prints v ls t) : Tree.Plain t := by
  induction h
  case negative => exact .form rfl rfl (List.forall_mem_singleton.mpr (.leaf _))
  case tuple items hne _ _ hi hi' =>
    refine .form rfl ?_ (List.forall_mem_cons.mpr ⟨hi, ?_⟩)
    case refine_1 =>
      have := List.length_pos_iff.mpr hne
      simp [Form.arity, Arity.accepts, Pieces.trees]
      omega
    case refine_2 => exact List.forall_mem_map.mpr (List.forall_mem_map.mpr hi')
  all_goals exact .leaf _

end Symbol.Prints

namespace Tree

-- No numbers are given out for the tree, and its value is the symbol whatever is in scope.
def Denotes (t : Tree) (v : Symbol) : Prop :=
  ∃ (c : Core) (x : Value), (∀ k, t.number k = .ok c k) ∧ x.symbol = v ∧
    ∀ apply scope w, c.eval apply scope w = some (.ok x, w)

namespace Denotes

variable {t : Tree} {v : Symbol}

theorem constant {l : Leaf} {c : Constant} (hl : l.core? = some (.constant c))
    (hc : (Value.ofConstant c).symbol = v) : (leaf l).Denotes v := by
  refine ⟨.constant c, .ofConstant c, fun k => ?_, hc, fun _ _ _ => rfl⟩
  unfold number
  simp only [hl]
  rfl

theorem negative {n a : Int64} (h : a.toInt = -n.toInt) :
    (form (.unary .neg) [leaf (.integer a)]).Denotes (.integer n) := by
  refine ⟨.unary .neg (.constant (.integer a)), .integer n, fun _ => rfl, rfl, fun _ _ w => ?_⟩
  have hn : Arithmetic.negate a = .ok n := by
    rw [Arithmetic.negate, Operation.checked, h, Int.neg_neg, integer?_toInt]
  have hv : Value.unary .neg (.integer a) = .ok (.integer n) := by
    simp only [Value.unary, Value.symbol, UnaryOperator.apply, Symbol.toInteger, bind, Except.bind,
      hn]
    rfl
  simp only [Core.eval, Evaluation.bind_eq_ok]
  exact ⟨_, w, rfl, congrArg (fun r => some (r, w)) hv⟩

theorem forest {items : List (Tree × Symbol)} (h : ∀ i ∈ items, i.1.Denotes i.2) :
    ∃ (cs : List Core) (xs : List Value),
      (∀ k, numberForest (items.map (·.1)) k = .ok cs k) ∧
        Value.symbols xs = items.map (·.2) ∧
          ∀ apply scope w, Core.forestEval apply scope cs w = some (.ok xs, w) := by
  induction items
  case nil => exact ⟨[], [], fun _ => rfl, rfl, fun _ _ _ => rfl⟩
  case cons i items hi =>
    have ⟨⟨c, x, hc, hx, he⟩, h⟩ := List.forall_mem_cons.mp h
    have ⟨cs, xs, hcs, hxs, hes⟩ := hi h
    refine ⟨c :: cs, x :: xs, fun k => ?_, ?_, fun apply scope w => ?_⟩
    case refine_1 =>
      simp only [List.map_cons, numberForest, Numbered.bind_eq_ok]
      exact ⟨c, k, hc k, cs, k, hcs k, rfl⟩
    case refine_2 => rw [Value.symbols, hx, hxs, List.map_cons]
    case refine_3 =>
      simp only [Core.forestEval, Evaluation.bind_eq_ok]
      exact ⟨xs, w, hes apply scope w, x, w, he apply scope w, rfl⟩

theorem tuple {items : List (Tree × Symbol)} (hl : 2 ≤ items.length)
    (h : ∀ i ∈ items, i.1.Denotes i.2) :
    (form .tau (items.map (·.1))).Denotes (.tuple (items.map (·.2))) := by
  have ⟨cs, xs, hcs, hxs, hes⟩ := forest h
  refine ⟨.tuple cs, .tuple xs, fun k => ?_, by rw [Value.symbol, hxs], fun apply scope w => ?_⟩
  case refine_1 =>
    unfold number
    have ha : checkArity (.form .tau) (items.map (·.1)).length = .ok () :=
      checkArity_eq_ok_iff.mpr (by simpa [Tag.arity, Form.arity, Arity.accepts] using hl)
    rw [ha]
    simp only [Numbered.bind_eq_ok]
    exact ⟨(), k, rfl, cs, k, hcs k, rfl⟩
  case refine_2 =>
    simp only [Core.eval, Evaluation.bind_eq_ok]
    exact ⟨xs, w, hes apply scope w, rfl⟩

-- A program without sugar that denotes a value comes to it and writes nothing.
theorem evaluates (h : t.Denotes v) (hp : Plain t) {sink : Sink} (hs : sink.flushes) :
    ∃ limit, t.evaluate limit sink = some (.ok v, sink) := by
  obtain ⟨c, x, hc, hx, he⟩ := h
  have hm : t.machine sink = .ok (.start ⟨0, c.code⟩ sink, _) :=
    machine_eq_ok_iff.mpr ⟨c, {}, hc {}, rfl, rfl⟩
  have hload : t.load sink = .ok (.start ⟨0, c.code⟩ sink) :=
    load_eq_ok_iff.mpr ⟨t, _, hp.desugars, hm⟩
  have hends := ends_of_yields c 0 0
    (c.eval_implements (Value.apply_applies 0) (.initial sink) rfl)
  have hprogram : meaning?.program 0 c ⟨1, sink⟩ = some (.ok v, ⟨1, sink⟩) := by
    rw [meaning?.program, Evaluation.bind_eq_ok]
    refine ⟨x, ⟨1, sink⟩, he _ _ _, ?_⟩
    simp [Evaluation.onSink, Sink.flush, hs, hx]
  rw [hprogram] at hends
  obtain ⟨limit, final, ho, hf⟩ := hends
  exact ⟨limit, by rw [evaluate, hload]; simp [ho, hf]⟩

end Denotes

end Tree

namespace Symbol

theorem Prints.denotes {v : Symbol} {ls : List Lexeme} {t : Tree} (h : Prints v ls t) :
    t.Denotes v := by
  induction h
  case number         => exact .constant (c := .integer _) rfl rfl
  case negative hn ha _ => exact .negative (by omega)
  case truth b        => exact .constant (c := .truth b) rfl rfl
  case dummy          => exact .constant (c := .dummy) rfl rfl
  case nil            => exact .constant (c := .nil) rfl rfl
  case tuple x ls t items hne _ _ hi hi' =>
    have hl := List.length_pos_iff.mpr hne
    have hd : ∀ i ∈ (t, x) :: items.map fun i => (i.2.2, i.1), i.1.Denotes i.2 :=
      List.forall_mem_cons.mpr ⟨hi, List.forall_mem_map.mpr hi'⟩
    have h := Tree.Denotes.tuple (by simpa using Nat.succ_le_of_lt hl) hd
    simpa [Pieces.trees, Function.comp_def] using h

-- Data reads back: with three levels for each tuple around and three for what is inmost, its
-- printed form is read as a program, which ends with the data and writes nothing.
theorem text_reads_back {v : Symbol} (h : v.IsData) {depth : Nat}
    (hd : 3 * (v.nesting + 1) ≤ depth) :
    ∃ t, Tree.ofSource depth v.text = .ok t ∧
      ∀ sink : Sink, sink.flushes → ∃ limit, t.evaluate limit sink = some (.ok v, sink) := by
  have ⟨(ls, t), p⟩ := h.exists_prints
  have ⟨n, hn⟩ : ∃ n, depth = n + 1 := ⟨depth - 1, by omega⟩
  subst hn
  have hs := p.scans .nil nofun
  rw [List.append_nil, List.append_nil] at hs
  have ⟨tokens, ht, hl⟩ := tokenize_of_lexes (.of_scans hs)
  have hr : ReadAt n .augmentation ls t := p.readAt (by omega)
  have hr : ReadAt n .tuple ls t := ReadAt.alone (c := .tuple) rfl hr
  have hr : ReadAt n .expression ls t := hr.covered Category.covers_expression
  subst hl
  have hh : t.height ≤ n + 1 := Nat.le_trans p.height_le (by omega)
  have hread := Phrase.readAll_of_acceptsAt hr.accepts hh
  exact ⟨t, Tree.ofSource_of_readAll ht hr.derives hread,
    fun _ hs => p.denotes.evaluates p.plain hs⟩

-- A pair within a triple.
def triple : Symbol :=
  tuple [integer (-5), tuple [truth true, dummy], nil]

example : triple.text = "(-5, (true, dummy), nil)" :=
  rfl

theorem triple_reads_back : triple.IsData ∧ ∃ t, Tree.ofSource 9 triple.text = .ok t ∧
    ∀ sink : Sink, sink.flushes → ∃ limit, t.evaluate limit sink = some (.ok triple, sink) := by
  have hp : (tuple [truth true, dummy]).IsData :=
    .tuple (by decide) (by simp [IsData.truth, IsData.dummy])
  have h : triple.IsData :=
    .tuple (by decide) (by simp [hp, IsData.integer (n := -5) (by decide), IsData.nil])
  exact ⟨h, text_reads_back h (by decide)⟩

end Symbol

end RpalMachine
