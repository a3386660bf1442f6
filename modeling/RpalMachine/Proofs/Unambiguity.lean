import RpalMachine.Proofs.Data

namespace RpalMachine

namespace Symbol

-- Integers, truth values, `dummy`, `error` and tuples of these, of any length and depth.
inductive StringFree : Symbol → Prop
  | integer (n : Int64) : StringFree (integer n)
  | truth (b : Bool) : StringFree (truth b)
  | dummy : StringFree dummy
  | error : StringFree error
  | tuple {xs : List Symbol} : (∀ x ∈ xs, StringFree x) → StringFree (tuple xs)

def words : List Symbol :=
  [truth true, truth false, dummy, error, nil]

-- What is printed without the marks of a tuple.
inductive IsAtom : Symbol → Prop
  | integer (n : Int64) : IsAtom (integer n)
  | word {x : Symbol} : x ∈ words → IsAtom x

-- What the elements of a tuple stand between.
def isMark (c : Char) : Bool :=
  c == '(' || c == ',' || c == ')'

-- A value is over where this begins.
def Delimits (rest : List Char) : Prop :=
  ∀ c ∈ rest.head?, isMark c

-- What the value is, and where it ends, can be told from what is printed.
def ReadsUniquely (x : Symbol) : Prop :=
  ∀ ⦃y : Symbol⦄ ⦃r s : List Char⦄, y.StringFree → Delimits r → Delimits s →
    x.text.toList ++ r = y.text.toList ++ s → x = y ∧ r = s

section

variable {a b x y : Symbol} {xs ys : List Symbol} {r s : List Char} {n : Int64} {c : Char}

theorem isMark_eq_false (h : c.isAlpha ∨ c.isDigit ∨ c = '-') : isMark c = false := by
  by_contra hc
  simp only [isMark, Bool.not_eq_false, Bool.or_eq_true, beq_iff_eq] at hc
  obtain (rfl | rfl) | rfl := hc <;> revert h <;> decide

-- The digits of an integer come after a sign if it is negative.
theorem text_integer_cases (n : Int64) : ∃ k : Nat,
    n.toInt = k ∧ (integer n).text = toString k ∨
      n.toInt = -k ∧ (integer n).text = "-" ++ toString k := by
  cases hk : n.toInt
  case ofNat k => exact ⟨k, .inl ⟨rfl, text_of_nat hk⟩⟩
  case negSucc k =>
    have hn := Int.negSucc_eq k
    exact ⟨k + 1, .inr ⟨hn, text_of_neg (hk.trans hn) (Nat.succ_ne_zero k)⟩⟩

theorem text_integer_chars (n : Int64) : (integer n).text.toList ≠ [] ∧
    ∀ c ∈ (integer n).text.toList, c.isDigit ∨ c = '-' := by
  have ⟨k, hk⟩ := text_integer_cases n
  have ⟨c, cs, hl, hc, hcs⟩ := Lexeme.exists_digits k
  have hd : ∀ d ∈ c :: cs, d.isDigit ∨ d = '-' :=
    List.forall_mem_cons.mpr ⟨.inl hc, fun d hd => .inl (hcs d hd)⟩
  obtain ⟨_, ht⟩ | ⟨_, ht⟩ := hk
  case inl =>
    rw [ht, hl]
    exact ⟨nofun, hd⟩
  case inr =>
    rw [ht, String.toList_append, hl]
    exact ⟨nofun, List.forall_mem_cons.mpr ⟨.inr rfl, hd⟩⟩

theorem integer_eq_of_text {m n : Int64} (h : (integer m).text = (integer n).text) : m = n := by
  have natural {k l : Nat} (h : toString k = toString l) : k = l := by
    have h := congrArg Level.literal h
    rwa [Level.literal_toString, Level.literal_toString] at h
  -- A digit is not a sign.
  have sign (k l : Nat) : toString k ≠ "-" ++ toString l := by
    intro h
    have ⟨c, cs, hl, hc, _⟩ := Lexeme.exists_digits k
    rw [h, String.toList_append] at hl
    cases hl
    exact absurd hc (by decide)
  have ⟨k, hk⟩ := text_integer_cases m
  have ⟨l, hl⟩ := text_integer_cases n
  rw [← Int64.toInt_inj]
  obtain ⟨hm, htm⟩ | ⟨hm, htm⟩ := hk <;> obtain ⟨hn, htn⟩ | ⟨hn, htn⟩ := hl <;> rw [htm, htn] at h
  case inl.inl => rw [hm, hn, natural h]
  case inl.inr => exact absurd h (sign k l)
  case inr.inl => exact absurd h.symm (sign l k)
  case inr.inr => rw [hm, hn, natural ((String.append_right_inj "-").mp h)]

theorem text_word_chars : ∀ x ∈ words, x.text.toList ≠ [] ∧ ∀ c ∈ x.text.toList, c.isAlpha := by
  have h : ∀ x ∈ words, x.text.toList ≠ [] ∧ x.text.toList.all Char.isAlpha := by decide
  exact fun x hx => ⟨(h x hx).1, List.all_eq_true.mp (h x hx).2⟩

theorem eq_of_word_text : ∀ x ∈ words, ∀ y ∈ words, x.text = y.text → x = y := by
  decide

theorem IsAtom.text_ne_nil (h : a.IsAtom) : a.text.toList ≠ [] := by
  cases h
  case integer n => exact (text_integer_chars n).1
  case word h    => exact (text_word_chars a h).1

theorem IsAtom.isMark_eq_false (h : a.IsAtom) : ∀ c ∈ a.text.toList, isMark c = false := by
  intro c hc
  cases h
  case integer n => exact Symbol.isMark_eq_false (.inr ((text_integer_chars n).2 c hc))
  case word h    => exact Symbol.isMark_eq_false (.inl ((text_word_chars a h).2 c hc))

theorem text_integer_ne_word (hx : x ∈ words) : (integer n).text ≠ x.text := by
  intro h
  have ⟨hne, ha⟩ := text_word_chars x hx
  have ⟨c, hc⟩ := List.exists_mem_of_ne_nil _ hne
  have hd := (text_integer_chars n).2 c (h ▸ hc)
  have ha := ha c hc
  obtain hd | rfl := hd
  case inl => exact absurd ha (by simp [Scan.first_of_isDigit hd])
  case inr => exact absurd ha (by decide)

theorem IsAtom.eq_of_text (ha : a.IsAtom) (hb : b.IsAtom) (h : a.text = b.text) : a = b := by
  cases ha <;> cases hb
  case integer.integer m n => rw [integer_eq_of_text h]
  case integer.word hb     => exact absurd h (text_integer_ne_word hb)
  case word.integer ha _   => exact absurd h.symm (text_integer_ne_word ha)
  case word.word ha hb     => exact eq_of_word_text a ha b hb h

theorem IsAtom.truth (b : Bool) : IsAtom (truth b) :=
  word (by cases b <;> decide)

theorem IsAtom.dummy : IsAtom dummy :=
  word (by decide)

theorem IsAtom.error : IsAtom error :=
  word (by decide)

theorem IsAtom.nil : IsAtom nil :=
  word (by decide)

theorem StringFree.atom_or_tuple (h : a.StringFree) :
    a.IsAtom ∨ ∃ x xs, a = .tuple (x :: xs) ∧ x.StringFree ∧ ∀ y ∈ xs, y.StringFree := by
  cases h
  case integer n => exact .inl (.integer n)
  case truth b   => exact .inl (.truth b)
  case dummy     => exact .inl .dummy
  case error     => exact .inl .error
  case tuple xs h =>
    cases xs
    case nil       => exact .inl .nil
    case cons x xs => exact .inr ⟨x, xs, rfl, List.forall_mem_cons.mp h⟩

theorem IsAtom.eq_of_append (ha : a.IsAtom) (hb : b.IsAtom) (hr : Delimits r) (hs : Delimits s)
    (h : a.text.toList ++ r = b.text.toList ++ s) : a = b ∧ r = s := by
  have htake {x : Symbol} (hx : x.IsAtom) {rest : List Char} (hr : Delimits rest) :
      (x.text.toList ++ rest).takeWhile (!isMark ·) = x.text.toList :=
    Scan.takeWhile_append_eq (fun c hc => by rw [hx.isMark_eq_false c hc]; rfl)
      fun c hc => by rw [hr c hc]; rfl
  have ht : a.text.toList = b.text.toList := by rw [← htake ha hr, h, htake hb hs]
  exact ⟨ha.eq_of_text hb (String.toList_inj.mp ht), List.append_cancel_left (ht ▸ h)⟩

-- The text from the first element on.
theorem toList_tuple_append (x : Symbol) (xs : List Symbol) (r : List Char) :
    (tuple (x :: xs)).text.toList ++ r =
      '(' :: (x.text.toList ++ ((restText xs).toList ++ ')' :: r)) := by
  simp [text_tuple_cons]

theorem toList_restText_append (x : Symbol) (xs : List Symbol) (r : List Char) :
    (restText (x :: xs)).toList ++ r =
      ',' :: ' ' :: (x.text.toList ++ ((restText xs).toList ++ r)) := by
  simp [restText_cons]

theorem delimits_restText (xs : List Symbol) (r : List Char) :
    Delimits ((restText xs).toList ++ ')' :: r) := by
  cases xs
  case nil => rintro _ ⟨⟩; rfl
  case cons x xs =>
    rw [toList_restText_append]
    rintro _ ⟨⟩
    rfl

theorem IsAtom.append_ne_tuple (h : a.IsAtom) :
    a.text.toList ++ r ≠ (tuple (x :: xs)).text.toList ++ s := by
  intro he
  rw [toList_tuple_append] at he
  cases hl : a.text.toList
  case nil => exact h.text_ne_nil hl
  case cons c cs =>
    have hc := h.isMark_eq_false c (hl ▸ List.mem_cons_self)
    rw [hl] at he
    rw [(List.cons.inj he).1] at hc
    cases hc

theorem IsAtom.readsUniquely (h : a.IsAtom) : a.ReadsUniquely := by
  intro b r s hb hr hs he
  obtain hb | ⟨x, xs, rfl, _⟩ := hb.atom_or_tuple
  case inl => exact h.eq_of_append hb hr hs he
  case inr => exact absurd he h.append_ne_tuple

theorem ReadsUniquely.restText (h : ∀ x ∈ xs, x.ReadsUniquely) (hy : ∀ y ∈ ys, y.StringFree)
    (he : (restText xs).toList ++ ')' :: r = (restText ys).toList ++ ')' :: s) :
    xs = ys ∧ r = s := by
  induction xs generalizing ys
  case nil =>
    cases ys
    case nil => cases he; exact ⟨rfl, rfl⟩
    case cons y ys =>
      rw [toList_restText_append] at he
      cases he
  case cons x xs hi =>
    cases ys
    case nil =>
      rw [toList_restText_append] at he
      cases he
    case cons y ys =>
      have ⟨hx, hxs⟩ := List.forall_mem_cons.mp h
      have ⟨hy, hys⟩ := List.forall_mem_cons.mp hy
      rw [toList_restText_append, toList_restText_append] at he
      have he := List.cons.inj (List.cons.inj he).2 |>.2
      have ⟨hxy, he⟩ := hx hy (delimits_restText xs r) (delimits_restText ys s) he
      have ⟨hs, hr⟩ := hi hxs hys he
      exact ⟨by rw [hxy, hs], hr⟩

theorem ReadsUniquely.tuple (hx : x.ReadsUniquely) (hxs : ∀ y ∈ xs, y.ReadsUniquely) :
    (tuple (x :: xs)).ReadsUniquely := by
  intro b r s hb _ _ he
  obtain hb | ⟨y, ys, rfl, hy, hys⟩ := hb.atom_or_tuple
  case inl => exact absurd he.symm hb.append_ne_tuple
  case inr =>
    rw [toList_tuple_append, toList_tuple_append] at he
    have ⟨hxy, he⟩ := hx hy (delimits_restText xs r) (delimits_restText ys s) (List.cons.inj he).2
    have ⟨hs, hr⟩ := ReadsUniquely.restText hxs hys he
    exact ⟨by rw [hxy, hs], hr⟩

theorem StringFree.readsUniquely (h : a.StringFree) : a.ReadsUniquely := by
  induction h
  case integer n => exact (IsAtom.integer n).readsUniquely
  case truth b   => exact (IsAtom.truth b).readsUniquely
  case dummy     => exact IsAtom.dummy.readsUniquely
  case error     => exact IsAtom.error.readsUniquely
  case tuple xs _ hi =>
    cases xs
    case nil => exact IsAtom.nil.readsUniquely
    case cons x xs =>
      have ⟨hx, hxs⟩ := List.forall_mem_cons.mp hi
      exact hx.tuple hxs

theorem StringFree.text_inj (ha : a.StringFree) (hb : b.StringFree) : a.text = b.text ↔ a = b := by
  constructor
  case mp =>
    intro h
    have hd : Delimits [] := nofun
    exact (ha.readsUniquely hb hd hd (by rw [h])).1
  case mpr => exact congrArg text

-- Values without strings are compared by their structure, though it is what is printed that is
-- compared.
theorem equality_structural (ha : a.StringFree) (hb : b.StringFree) :
    BinaryOperator.eq.apply a b = .ok (.truth (a = b)) ∧
      BinaryOperator.ne.apply a b = .ok (.truth (a ≠ b)) := by
  have h : a.printsAs b = decide (a = b) := by
    rw [printsAs, Bool.eq_iff_iff, beq_iff_eq, decide_eq_true_iff, ha.text_inj hb]
  constructor
  case left  => rw [BinaryOperator.apply, h]
  case right => rw [BinaryOperator.apply, h, decide_not]

end

theorem nested_nil_not_equal :
    let x := tuple [integer (-1), nil]
    let y := tuple [integer (-1), tuple [nil]]
    (x.StringFree ∧ y.StringFree) ∧ BinaryOperator.eq.apply x y = .ok (.truth false) ∧
      BinaryOperator.ne.apply x y = .ok (.truth true) := by
  have pair {x : Symbol} (h : x.StringFree) : (tuple [integer (-1), x]).StringFree :=
    .tuple (List.forall_mem_cons.mpr ⟨.integer (-1), List.forall_mem_singleton.mpr h⟩)
  have hn : nil.StringFree := .tuple nofun
  have hx := pair hn
  have hy := pair (.tuple (List.forall_mem_singleton.mpr hn))
  exact ⟨⟨hx, hy⟩, equality_structural hx hy⟩

end Symbol

end RpalMachine
