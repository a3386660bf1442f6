import Mathlib.Data.Option.Basic
import Mathlib.Tactic.SplitIfs
import RpalMachine.Json.Compact

namespace RpalMachine.Json.Compact

namespace Reader

section

variable (cs : List Char)

@[simp]
theorem pure_apply (a : α) : (pure a : Reader α) cs = some (a, cs) :=
  rfl

@[simp]
theorem bind_apply (x : Reader α) (f : α → Reader β) : (x >>= f) cs =
    match x cs with
    | some (a, rest) => f a rest
    | none           => none := by
  simp only [bind, StateT.bind]
  cases x cs <;> rfl

@[simp]
theorem map_apply (f : α → β) (x : Reader α) :
    (f <$> x) cs = (x cs).map fun (a, rest) => (f a, rest) := by
  simp only [Functor.map, StateT.map]
  cases x cs <;> rfl

@[simp]
theorem lift_apply (o : Option α) : (liftM o : Reader α) cs = o.map fun a => (a, cs) := by
  cases o <;> rfl

@[simp]
theorem guard_apply (p : Prop) [Decidable p] :
    (guard p : Reader Unit) cs = if p then some ((), cs) else none := by
  rw [guard]
  split <;> rfl

@[simp]
theorem get_apply : (get : Reader (List Char)) cs = some (cs, cs) :=
  rfl

@[simp]
theorem set_apply (rest : List Char) : (set rest : Reader PUnit) cs = some (⟨⟩, rest) :=
  rfl

end

-- Strings

variable {c d : Char} {cs rest : List Char}

theorem stringBody_escaped (h : escaped? d = some c) (hu : d ≠ 'u') :
    stringBody ('\\' :: d :: cs) = (stringBody cs).map fun (body, rest) => (c :: body, rest) := by
  rw [stringBody.eq_4 _ _ fun _ _ _ _ _ he => absurd he hu, h]
  cases stringBody cs <;> rfl

theorem stringBody_plain (hq : c ≠ '"') (hb : c ≠ '\\') (hc : 0x20 ≤ c.toNat) :
    stringBody (c :: cs) = (stringBody cs).map fun (body, rest) => (c :: body, rest) := by
  have hg : (guard (c ≠ '\\' ∧ 0x20 ≤ c.toNat) : Option Unit) = some () := if_pos ⟨hb, hc⟩
  rw [stringBody.eq_5 _ _ hq (fun _ _ _ _ _ he => absurd he hb) fun _ _ he => absurd he hb, hg]
  cases stringBody cs <;> rfl

theorem stringBody_code {w x y z : Char} {n : Nat} (h : hex4? w x y z = some n) (hn : n < 0xD800) :
    stringBody ('\\' :: 'u' :: w :: x :: y :: z :: cs) =
      (stringBody cs).map fun (body, rest) => (Char.ofNat n :: body, rest) := by
  rw [stringBody.eq_3, h]
  simp only [hn, true_or, Option.bind_eq_bind, Option.bind_some, if_true]
  cases stringBody cs <;> rfl

theorem hex4?_of_lt : ∀ n < 0x20,
    hex4? '0' '0' (hexDigit (n / 16)) (hexDigit (n % 16)) = some n := by
  decide

theorem stringBody_control (hc : c.toNat < 0x20) :
    stringBody ('\\' :: 'u' :: '0' :: '0' :: hexDigit (c.toNat / 16) :: hexDigit (c.toNat % 16) ::
      cs) = (stringBody cs).map fun (body, rest) => (c :: body, rest) := by
  rw [stringBody_code (hex4?_of_lt _ hc) (by omega), Char.ofNat_toNat]

-- A character is read as it was written.
theorem stringBody_escape (c : Char) (cs : List Char) :
    stringBody (escape c ++ cs) = (stringBody cs).map fun (body, rest) => (c :: body, rest) := by
  rw [escape]
  split_ifs with hq hb h h h h h hc
  case neg => exact stringBody_plain hq hb (Nat.le_of_not_lt hc)
  -- Seven characters have escapes of their own.
  iterate 7
    · subst_vars
      exact stringBody_escaped rfl (by decide)
  exact stringBody_control hc

theorem stringBody_flatMap_escape (s : List Char) :
    stringBody (s.flatMap escape ++ '"' :: rest) = some (s, rest) := by
  induction s
  case nil => rfl
  case cons c s ih =>
    rw [List.flatMap_cons, List.append_assoc, stringBody_escape, ih]
    rfl

theorem string_append (s : String) :
    string (s.toList.flatMap escape ++ '"' :: rest) = some (s, rest) := by
  simp [string, stringBody_flatMap_escape]

-- Numbers

-- What may follow a value inside of a document.
def Closes (rest : List Char) : Prop :=
  ∀ c ∈ rest.head?, c = ',' ∨ c = ']' ∨ c = '\x7d'

theorem skip?_of_closes (h : Closes rest) (hs : ∀ c ∈ cs, c ≠ ',' ∧ c ≠ ']' ∧ c ≠ '\x7d') :
    skip? cs rest = some (false, rest) := by
  cases rest
  case nil => rfl
  case cons c rest =>
    have hc : c ∉ cs := fun hc => by
      have ⟨hcomma, hbracket, hbrace⟩ := hs c hc
      rcases h c rfl with h | h | h <;> contradiction
    simp [skip?, hc]

theorem digitOf?_of_isDigit (h : c.isDigit) : digitOf? c = some (c.toNat - 48) := by
  rw [Char.isDigit, Bool.and_eq_true, decide_eq_true_iff, decide_eq_true_iff] at h
  exact if_pos h

theorem digits_of_closes (h : Closes rest) : digits rest = some ([], rest) := by
  cases rest
  case nil => rfl
  case cons c rest => rcases h c rfl with rfl | rfl | rfl <;> rfl

theorem digits_append {ds : List Char} (hd : ∀ d ∈ ds, d.isDigit) (hr : Closes rest) :
    digits (ds ++ rest) = some (ds.map (·.toNat - 48), rest) := by
  induction ds
  case nil => exact digits_of_closes hr
  case cons d ds ih =>
    have ⟨hd, hds⟩ := List.forall_mem_cons.mp hd
    have hs := ih hds
    simp only [digits, Option.some.injEq, Prod.mk.injEq] at hs ⊢
    simp [digitOf?_of_isDigit hd, hs]

-- The digits of a number do not start with a zero that could be left out.
theorem head_toDigits (k : Nat) (hk : 0 < k) :
    ∀ c ∈ (Nat.toDigits 10 k).head?, c.toNat - 48 ≠ 0 := by
  induction k using Nat.strongRecOn
  case ind k ih =>
    by_cases h : k < 10
    case pos =>
      rw [Nat.toDigits_of_lt_base h]
      intro c hc
      cases hc
      rw [Nat.toNat_digitChar_of_lt_ten h]
      omega
    case neg =>
      have hne : Nat.toDigits 10 (k / 10) ≠ [] := Nat.toDigits_ne_nil
      rw [Nat.toDigits_of_base_le (by decide) (Nat.le_of_not_lt h), List.head?_append,
        Option.or_of_isSome (List.isSome_head?.mpr hne)]
      exact ih _ (by omega) (by omega)

variable {k : Nat} (negative : Bool)

theorem numeral_toDigits (h : Nat.toDigits 10 k = c :: cs) (hr : Closes rest) :
    numeral negative (c.toNat - 48) (cs ++ rest) =
      some (⟨negative, (c :: cs).map (·.toNat - 48), [], none⟩, rest) := by
  have hd : ∀ d ∈ cs, d.isDigit := fun d hd =>
    Nat.isDigit_of_mem_toDigits (by decide) (by decide) (h ▸ List.mem_cons_of_mem c hd)
  have hz : ¬ c.toNat - 48 = 0 ∨ cs = [] := by
    by_cases hk : k = 0
    case pos =>
      subst hk
      cases h
      exact .inr rfl
    case neg => exact .inl (head_toDigits k (Nat.pos_of_ne_zero hk) c (h ▸ rfl))
  have hp : skip? ['.'] rest = some (false, rest) := skip?_of_closes hr (by simp)
  have he : skip? ['e', 'E'] rest = some (false, rest) := skip?_of_closes hr (by simp)
  simp [numeral, digits_append hd hr, hz, hp, he]

theorem number_toDigits (h : Nat.toDigits 10 k = c :: cs) (hr : Closes rest) :
    number negative c (cs ++ rest) =
      (Numeral.value? ⟨negative, (Nat.toDigits 10 k).map (·.toNat - 48), [], none⟩).map
        fun n => (.number n, rest) := by
  have hd : c.isDigit :=
    Nat.isDigit_of_mem_toDigits (by decide) (by decide) (h ▸ List.mem_cons_self)
  have hn := numeral_toDigits negative h hr
  simp only [number, bind_apply, map_apply, lift_apply, digitOf?_of_isDigit hd, hn, h,
    Option.map_some, Option.map_map]
  rfl

end Reader

namespace Numeral

variable {s k : Nat} {ds : List Nat}

theorem le_foldl : s ≤ ds.foldl (10 * · + ·) s := by
  induction ds generalizing s
  case nil => exact Nat.le_refl s
  case cons d ds ih =>
    calc
      s ≤ 10 * s + d                         := by omega
      _ ≤ ds.foldl (10 * · + ·) (10 * s + d) := ih

theorem absorb_of_lt (h : ds.foldl (10 * · + ·) s < UInt64.size) :
    absorb s ds = (ds.foldl (10 * · + ·) s, 0) := by
  induction ds generalizing s
  case nil => rfl
  case cons d ds ih =>
    have hd : 10 * s + d < UInt64.size := Nat.lt_of_le_of_lt le_foldl h
    rw [absorb, if_pos hd, ih h, List.foldl_cons]

theorem absorb_toDigits (h : k < UInt64.size) :
    absorb 0 ((Nat.toDigits 10 k).map (·.toNat - 48)) = (k, 0) := by
  have hk : ((Nat.toDigits 10 k).map (·.toNat - 48)).foldl (10 * · + ·) 0 = k := by
    rw [List.foldl_map]
    exact Nat.ofDigitChars_eq_foldl.symm.trans Nat.ofDigitChars_ten_toDigits
  rw [absorb_of_lt (hk.symm ▸ h), hk]

theorem value?_toDigits (h : k < UInt64.size) :
    value? ⟨false, (Nat.toDigits 10 k).map (·.toNat - 48), [], none⟩ = some (.integer k) := by
  simp [value?, absorb_toDigits h]

theorem value?_neg_toDigits (hk : 0 < k) (h : k ≤ Nat.pow 2 63) :
    value? ⟨true, (Nat.toDigits 10 k).map (·.toNat - 48), [], none⟩ = some (.integer (-k)) := by
  have hs : k < UInt64.size := Nat.lt_of_le_of_lt h (by decide)
  simp [value?, absorb_toDigits hs, hk, h]

end Numeral

namespace Reader

section

variable {c : Char} {cs rest : List Char}

theorem blanks_cons (h : isBlank c = false) : blanks (c :: cs) = some ((), c :: cs) :=
  congrArg (fun cs => some ((), cs)) (List.dropWhile_cons_of_neg (by simp [h]))

theorem next_cons : next (c :: cs) = some (c, cs) :=
  rfl

theorem expect_cons : expect c (c :: cs) = some ((), cs) := by
  simp [expect, next_cons]

end

-- The reader takes a spelling off the front of any text that goes on as documents do.
def Reads (reader : Reader α) (spelling : List Char) (x : α) : Prop :=
  ∀ rest, Closes rest → reader (spelling ++ rest) = some (x, rest)

variable {n : Nat} {c : Char} {cs rest : List Char}

theorem value_of_scalar (hb : isBlank c = false) (ha : c ≠ '[') (ho : c ≠ '\x7b') :
    value n (c :: cs) = scalar c cs := by
  cases n
  all_goals simp [value, blanks_cons hb, next_cons]

theorem scalar_of_isDigit (h : c.isDigit) : scalar c = number false c := by
  rw [scalar.eq_def]
  split
  case h_6 => rfl
  all_goals contradiction

theorem exists_toDigits (k : Nat) : ∃ c cs, Nat.toDigits 10 k = c :: cs ∧ c.isDigit := by
  have hd : ∀ c ∈ Nat.toDigits 10 k, c.isDigit := fun c =>
    Nat.isDigit_of_mem_toDigits (by decide) (by decide)
  have ⟨c, cs, hl⟩ := List.exists_cons_of_ne_nil (Nat.toDigits_ne_nil (n := k) (b := 10))
  exact ⟨c, cs, hl, hd c (hl ▸ List.mem_cons_self)⟩

theorem first_of_isDigit (h : c.isDigit) :
    isBlank c = false ∧ c ≠ '[' ∧ c ≠ ']' ∧ c ≠ '\x7b' := by
  have hn : ∀ d : Char, d.isDigit = false → c ≠ d := fun d hd he => by simp [← he, h] at hd
  simp [isBlank, hn]

theorem reads_natural {k : Nat} (hk : k < UInt64.size) :
    (value n).Reads (Nat.toDigits 10 k) (.number (.integer k)) := by
  intro rest hr
  have ⟨c, cs, hl, hd⟩ := exists_toDigits k
  have ⟨hb, ha, _, ho⟩ := first_of_isDigit hd
  have hs := number_toDigits false hl hr
  rw [hl, List.cons_append, value_of_scalar hb ha ho, scalar_of_isDigit hd, hs,
    Numeral.value?_toDigits hk, Option.map_some]

theorem reads_negative {k : Nat} (hk : 0 < k) (h : k ≤ Nat.pow 2 63) :
    (value n).Reads ('-' :: Nat.toDigits 10 k) (.number (.integer (-k))) := by
  intro rest hr
  have ⟨c, cs, hl, hd⟩ := exists_toDigits k
  have hs := number_toDigits true hl hr
  rw [hl, List.cons_append, value_of_scalar rfl (by decide) (by decide)]
  simp [scalar, next_cons, hs, Numeral.value?_neg_toDigits hk h]

theorem toList_toString_of_nonneg {k : Int} (h : 0 ≤ k) :
    (toString k).toList = Nat.toDigits 10 k.toNat := by
  rw [Int.toString_eq_repr, Int.repr_eq_if, if_pos h, Nat.repr_eq_ofList_toDigits,
    String.toList_ofList]

theorem toList_toString_of_neg {k : Int} (h : k < 0) :
    (toString k).toList = '-' :: Nat.toDigits 10 (-k).toNat := by
  have hn : ¬ 0 ≤ k := Int.not_le.mpr h
  rw [Int.toString_eq_repr, Int.repr_eq_if, if_neg hn, String.toList_append,
    Nat.repr_eq_ofList_toDigits, String.toList_ofList (l := Nat.toDigits ..)]
  rfl

theorem reads_integer {k : Int} (h : -Nat.pow 2 63 ≤ k) (hk : k < UInt64.size) :
    (value n).Reads (toString k).toList (.number (.integer k)) := by
  by_cases hz : 0 ≤ k
  case pos =>
    have hr := reads_natural (n := n) (k := k.toNat) (by omega)
    rwa [Int.toNat_of_nonneg hz, ← toList_toString_of_nonneg hz] at hr
  case neg =>
    have hz : k < 0 := Int.not_le.mp hz
    have hr := reads_negative (n := n) (k := (-k).toNat) (by omega) (by omega)
    rwa [Int.toNat_of_nonneg (by omega), Int.neg_neg, ← toList_toString_of_neg hz] at hr

theorem word_append {w : List Char} {a : α} : word w a (w ++ rest) = some (a, rest) := by
  have hw : (forM w expect : Reader PUnit) (w ++ rest) = some (⟨⟩, rest) := by
    induction w
    case nil => rfl
    case cons c cs ih =>
      simp only [List.forM_cons, List.cons_append, bind_apply, expect_cons]
      exact ih
  simp [word, hw]

end Reader

end RpalMachine.Json.Compact
