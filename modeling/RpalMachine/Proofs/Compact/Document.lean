import Mathlib.Data.List.Induction
import RpalMachine.Proofs.Compact.Scalars

namespace RpalMachine.Json

namespace Compact

open Value (array object Exact nesting nesting_array_le_iff nesting_object_le_iff)

namespace Reader

-- Lists of items

section

variable {c : Char} {cs rest : List Char}

variable {item : Reader α} {spell : α → List Char} {close : Char} {x : α} {xs : List α} {m : Nat}

theorem items_comma (h : item cs = some (x, ',' :: rest)) : items item close (m + 1) cs =
    (items item close m rest).map fun (xs, rest) => (x :: xs, rest) := by
  have hb : blanks (',' :: rest) = some ((), ',' :: rest) := rfl
  simp only [items, bind_apply, h, hb, next_cons]
  exact map_apply ..

theorem closes_comma : Closes (',' :: cs) := by
  simp [Closes]

theorem closes_of_close (hc : close = ']' ∨ close = '\x7d') : Closes (close :: cs) := by
  simp [Closes, hc]

theorem items_close (hc : close = ']' ∨ close = '\x7d') (h : item cs = some (x, close :: rest)) :
    items item close (m + 1) cs = some ([x], rest) := by
  have hb : isBlank close = false := by rcases hc with rfl | rfl <;> rfl
  have hn : close ≠ ',' := by rcases hc with rfl | rfl <;> decide
  simp [items, h, blanks_cons hb, next_cons, hn]

theorem intercalate_map_cons_cons {y : α} : [','].intercalate ((x :: y :: xs).map spell) =
    spell x ++ ',' :: [','].intercalate ((y :: xs).map spell) := by
  simp [List.intercalate_cons_cons]

theorem items_intercalate (hc : close = ']' ∨ close = '\x7d') (hm : xs.length ≤ m)
    (hr : ∀ y ∈ x :: xs, Reads item (spell y) y) :
    items item close (m + 1) ([','].intercalate ((x :: xs).map spell) ++ close :: rest) =
      some (x :: xs, rest) := by
  induction xs generalizing x m
  case nil =>
    rw [List.map_singleton, List.intercalate_singleton]
    exact items_close hc (hr x List.mem_cons_self _ (closes_of_close hc))
  case cons y ys ih =>
    have ⟨hx, hys⟩ := List.forall_mem_cons.mp hr
    cases m
    case zero   => contradiction
    case succ m =>
      have hs := ih (Nat.le_of_succ_le_succ hm) hys
      rw [intercalate_map_cons_cons, List.append_assoc, List.cons_append,
        items_comma (hx _ closes_comma), hs]
      rfl

theorem length_le_intercalate (ls : List (List Char)) :
    ls.length ≤ ([','].intercalate ls).length + 1 := by
  induction ls
  case nil => exact Nat.zero_le _
  case cons l ls ih =>
    cases ls
    case nil  => simp
    case cons =>
      simp only [List.intercalate_cons_cons, List.length_append, List.length_cons] at ih ⊢
      omega

theorem listing_cons (hb : isBlank c = false) (hc : c ≠ close) :
    listing item close (c :: cs) = items item close (cs.length + 1) (c :: cs) := by
  simp [listing, blanks_cons hb, skip?, hc]

theorem listing_intercalate (hc : close = ']' ∨ close = '\x7d')
    (hf : ∀ x ∈ xs, ∃ c cs, spell x = c :: cs ∧ isBlank c = false ∧ c ≠ close)
    (hr : ∀ x ∈ xs, Reads item (spell x) x) :
    listing item close ([','].intercalate (xs.map spell) ++ close :: rest) = some (xs, rest) := by
  cases xs
  case nil =>
    have hb : isBlank close = false := by rcases hc with rfl | rfl <;> rfl
    simp [listing, blanks_cons hb, skip?]
  case cons x xs =>
    obtain ⟨c, cs, hs, hb, hn⟩ := hf x List.mem_cons_self
    obtain ⟨tail, ht⟩ : ∃ tail, [','].intercalate ((x :: xs).map spell) = c :: tail := by
      cases xs <;> simp [hs]
    have hl := length_le_intercalate ((x :: xs).map spell)
    have hm : xs.length ≤ (tail ++ close :: rest).length := by
      simp only [ht, List.length_map, List.length_cons, List.length_append] at hl ⊢
      omega
    rw [← items_intercalate hc hm hr, ht]
    exact listing_cons hb hn

end

end Reader

variable {v : Value} {vs : List Value} {members : List (String × Value)} {n : Nat}

theorem toList_quote (s : String) :
    (quote s).toList = '"' :: s.toList.flatMap escape ++ ['"'] := by
  rw [quote, String.toList_ofList]

-- How a member is written.
def memberText (member : String × Value) : List Char :=
  (quote member.1).toList ++ ':' :: (text member.2).toList

theorem memberText_eq (m : String × Value) :
    memberText m = '"' :: (m.1.toList.flatMap escape ++ '"' :: ':' :: (text m.2).toList) := by
  simp [memberText, toList_quote]

theorem toList_elementsText (v : Value) (vs : List Value) :
    (text v).toList ++ (elementsText vs).toList =
      [','].intercalate ((v :: vs).map (text · |>.toList)) := by
  induction vs generalizing v
  case nil => simp [elementsText]
  case cons w vs ih =>
    rw [Reader.intercalate_map_cons_cons, ← ih]
    simp [elementsText]

theorem toList_membersText (member : String × Value) (members : List (String × Value)) :
    memberText member ++ (membersText members).toList =
      [','].intercalate ((member :: members).map memberText) := by
  induction members generalizing member
  case nil => simp [membersText]
  case cons m ms ih =>
    rw [Reader.intercalate_map_cons_cons, ← ih]
    simp [membersText, memberText]

theorem toList_text_array :
    (text (.array vs)).toList = '[' :: [','].intercalate (vs.map (text · |>.toList)) ++ [']'] := by
  cases vs
  case nil       => rw [text]; rfl
  case cons v vs => rw [← toList_elementsText]; simp [text]

theorem toList_text_object : (text (.object members)).toList =
    '\x7b' :: [','].intercalate (members.map memberText) ++ ['\x7d'] := by
  cases members
  case nil       => rw [text]; rfl
  case cons m ms => rw [← toList_membersText]; simp [text, memberText]

-- A member whose key comes after all others is put last.
theorem insertMember_of_forall_lt {key : String} (h : ∀ m ∈ members, m.1 < key) :
    insertMember key v members = members ++ [(key, v)] := by
  induction members
  case nil => rfl
  case cons m ms ih =>
    have ⟨hm, hms⟩ := List.forall_mem_cons.mp h
    have hn : ¬ key < m.1 := String.lt_asymm hm
    have he : key ≠ m.1 := fun he => String.lt_irrefl _ (he ▸ hm)
    rw [insertMember, if_neg hn, if_neg he, ih hms, List.cons_append]

theorem ofMembers_of_pairwise (h : members.Pairwise (·.1 < ·.1)) :
    ofMembers members = object members := by
  induction members using List.reverseRecOn
  case nil => rfl
  case append_singleton ms m ih =>
    have ⟨hms, _, hm⟩ := List.pairwise_append.mp h
    have hi := ih hms
    rw [ofMembers, object.injEq] at hi ⊢
    rw [List.foldl_append, hi]
    exact insertMember_of_forall_lt fun m' hm' => hm m' hm' m List.mem_cons_self

theorem forall_mem_insertMember {p : String × Value → Prop} {key : String} (hv : p (key, v))
    (h : ∀ m ∈ members, p m) : ∀ m ∈ insertMember key v members, p m := by
  induction members
  case nil => simpa [insertMember] using hv
  case cons m ms ih =>
    have ⟨hm, hms⟩ := List.forall_mem_cons.mp h
    rw [insertMember]
    split_ifs
    · exact List.forall_mem_cons.mpr ⟨hv, h⟩
    · exact List.forall_mem_cons.mpr ⟨hv, hms⟩
    · exact List.forall_mem_cons.mpr ⟨hm, ih hms⟩

theorem nesting_ofMembers_le (h : ∀ m ∈ members, m.2.nesting ≤ n) :
    (ofMembers members).nesting ≤ n + 1 := by
  rw [ofMembers, nesting_object_le_iff]
  induction members using List.reverseRecOn
  case nil => exact nofun
  case append_singleton ms m ih =>
    have ⟨hms, hm⟩ := List.forall_mem_append.mp h
    rw [List.foldl_append]
    exact forall_mem_insertMember (hm m List.mem_cons_self) (ih hms)

namespace Reader

variable {c : Char} {cs rest : List Char}

theorem Reads.member {reader : Reader Value} {m : String × Value}
    (h : reader.Reads (text m.2).toList m.2) : (member reader).Reads (memberText m) m := by
  intro rest hr
  have hq : ∀ cs, blanks ('"' :: cs) = some ((), '"' :: cs) := fun _ => rfl
  have hc : ∀ cs, blanks (':' :: cs) = some ((), ':' :: cs) := fun _ => rfl
  simp [Reader.member, memberText_eq, hq, hc, expect_cons, string_append, h _ hr]

theorem reads_scalar (h : Exact v) (hn : v.nesting = 0) : (value n).Reads (text v).toList v := by
  intro rest hr
  cases h
  case null =>
    have ht : (text .null).toList = 'n' :: ['u', 'l', 'l'] := rfl
    rw [ht, List.cons_append, value_of_scalar rfl (by decide) (by decide)]
    exact word_append
  case bool b =>
    cases b
    case false => exact (value_of_scalar rfl (by decide) (by decide)).trans word_append
    case true  => exact (value_of_scalar rfl (by decide) (by decide)).trans word_append
  case integer k h hk => exact reads_integer h hk rest hr
  case string s =>
    rw [text, toList_quote, List.cons_append, List.cons_append,
      value_of_scalar rfl (by decide) (by decide)]
    simp [scalar, string_append]
  case array  => rw [nesting] at hn; omega
  case object => rw [nesting] at hn; omega

theorem first_of_text (h : Exact v) :
    ∃ c cs, (text v).toList = c :: cs ∧ isBlank c = false ∧ c ≠ ']' := by
  cases h
  case null       => exact ⟨_, _, rfl, rfl, by decide⟩
  case bool b     => cases b <;> exact ⟨_, _, rfl, rfl, by decide⟩
  case string s   => exact ⟨_, _, toList_quote s, rfl, by decide⟩
  case array      => exact ⟨_, _, toList_text_array, rfl, by decide⟩
  case object     => exact ⟨_, _, toList_text_object, rfl, by decide⟩
  case integer k _ _ =>
    by_cases hz : 0 ≤ k
    case pos =>
      have ⟨c, cs, hl, hd⟩ := exists_toDigits k.toNat
      have ⟨hb, _, ha, _⟩ := first_of_isDigit hd
      exact ⟨c, cs, (toList_toString_of_nonneg hz).trans hl, hb, ha⟩
    case neg => exact ⟨_, _, toList_toString_of_neg (Int.not_le.mp hz), rfl, by decide⟩

theorem value_array : value (n + 1) ('[' :: cs) =
    (listing (value n) ']' cs).map fun (vs, rest) => (.array vs, rest) := by
  have hb : blanks ('[' :: cs) = some ((), '[' :: cs) := rfl
  simp [value, hb, next_cons]

theorem value_object : value (n + 1) ('\x7b' :: cs) =
    (listing (member (value n)) '\x7d' cs).map fun (ms, rest) => (ofMembers ms, rest) := by
  have hb : blanks ('\x7b' :: cs) = some ((), '\x7b' :: cs) := rfl
  simp [value, hb, next_cons]

theorem reads_array (hv : ∀ v ∈ vs, (value n).Reads (text v).toList v) (he : ∀ v ∈ vs, Exact v) :
    (value (n + 1)).Reads (text (.array vs)).toList (array vs) := by
  intro rest hr
  have hl : listing (value n) ']' ([','].intercalate (vs.map (text · |>.toList)) ++ ']' :: rest) =
      some (vs, rest) :=
    listing_intercalate (.inl rfl) (fun v h => first_of_text (he v h)) hv
  rw [toList_text_array, List.cons_append, List.cons_append, value_array, List.append_assoc,
    List.singleton_append, hl]
  rfl

theorem reads_object (hm : members.Pairwise (·.1 < ·.1))
    (hv : ∀ m ∈ members, (value n).Reads (text m.2).toList m.2) :
    (value (n + 1)).Reads (text (.object members)).toList (object members) := by
  intro rest hr
  have hf : ∀ m ∈ members, ∃ c cs, memberText m = c :: cs ∧ isBlank c = false ∧ c ≠ '\x7d' :=
    fun m _ => ⟨_, _, memberText_eq m, rfl, by decide⟩
  have hl : listing (member (value n)) '\x7d'
      ([','].intercalate (members.map memberText) ++ '\x7d' :: rest) = some (members, rest) :=
    listing_intercalate (.inr rfl) hf fun m h => (hv m h).member
  rw [toList_text_object, List.cons_append, List.cons_append, value_object, List.append_assoc,
    List.singleton_append, hl, ← ofMembers_of_pairwise hm]
  rfl

-- By induction on the nesting that is allowed; an item of a list is allowed one less.
theorem reads_text (h : Exact v) (hn : v.nesting ≤ n) : (value n).Reads (text v).toList v := by
  induction n generalizing v
  case zero => exact reads_scalar h (Nat.le_zero.mp hn)
  case succ n ih =>
    cases h
    case array vs he =>
      have hn := nesting_array_le_iff.mp hn
      exact reads_array (fun v h => ih (he v h) (hn v h)) he
    case object members hm he =>
      have hn := nesting_object_le_iff.mp hn
      exact reads_object hm fun m h => ih (he m h) (hn m h)
    all_goals exact reads_scalar (by constructor <;> assumption) rfl

-- Whatever is read has the property.
def Returns (x : Reader α) (p : α → Prop) : Prop :=
  ∀ cs a rest, x cs = some (a, rest) → p a

namespace Returns

variable {p : α → Prop} {q : β → Prop}

theorem pure {a : α} (h : p a) : Returns (Pure.pure a) p := by
  intro cs b rest hb
  cases hb
  exact h

theorem failure : Returns failure p :=
  fun _ _ _ => nofun

theorem bind {x : Reader α} {f : α → Reader β} (hx : Returns x p)
    (hf : ∀ a, p a → Returns (f a) q) : Returns (x >>= f) q := by
  intro cs b rest h
  rw [bind_apply] at h
  cases hs : x cs <;> rw [hs] at h
  case none   => contradiction
  case some a => exact hf a.1 (hx cs a.1 a.2 hs) a.2 b rest h

-- What was read before does not matter.
theorem after {x : Reader α} {f : α → Reader β} (hf : ∀ a, Returns (f a) q) :
    Returns (x >>= f) q :=
  bind (p := fun _ => True) (fun _ _ _ _ => trivial) fun a _ => hf a

theorem map {x : Reader α} {f : α → β} (hx : Returns x p) (hf : ∀ a, p a → q (f a)) :
    Returns (f <$> x) q := by
  rw [← bind_pure_comp]
  exact hx.bind fun a ha => .pure (hf a ha)

theorem of_map {x : Reader α} {f : α → β} (hf : ∀ a, q (f a)) : Returns (f <$> x) q :=
  map (p := fun _ => True) (fun _ _ _ _ => trivial) fun a _ => hf a

theorem items {item : Reader α} {close : Char} (h : Returns item p) (m : Nat) :
    Returns (items item close m) (∀ a ∈ ·, p a) := by
  induction m
  case zero => exact .failure
  case succ m ih =>
    rw [Reader.items]
    refine h.bind fun a ha => .after fun _ => .after fun c => ?_
    split_ifs
    · exact ih.map fun as has => List.forall_mem_cons.mpr ⟨ha, has⟩
    · exact .pure (by simpa using ha)
    · exact .failure

theorem listing {item : Reader α} {close : Char} (h : Returns item p) :
    Returns (listing item close) (∀ a ∈ ·, p a) := by
  rw [Reader.listing]
  refine .after fun _ => .after fun closed => ?_
  split_ifs
  · exact .pure nofun
  · exact .after fun cs => h.items _

end Returns

theorem scalar_returns (c : Char) : Returns (scalar c) (·.nesting = 0) := by
  rw [scalar.eq_def]
  split
  case h_4 => exact .of_map fun _ => rfl
  case h_5 => exact .after fun _ => .after fun _ => .after fun _ => .of_map fun _ => rfl
  case h_6 => exact .after fun _ => .after fun _ => .of_map fun _ => rfl
  all_goals exact .after fun _ => .pure rfl

theorem value_returns (n : Nat) : Returns (value n) (·.nesting ≤ n) := by
  have hs : ∀ c n, Returns (scalar c) (·.nesting ≤ n) := fun c n cs v rest h =>
    Nat.le_trans (Nat.le_of_eq (scalar_returns c cs v rest h)) n.zero_le
  induction n
  case zero => exact .after fun _ => .after fun c => hs c 0
  case succ n ih =>
    rw [value]
    refine .after fun _ => .after fun c => ?_
    split
    case h_1 => exact ih.listing.map fun vs h => nesting_array_le_iff.mpr h
    case h_2 =>
      have hm : Returns (member (value n)) (·.2.nesting ≤ n) :=
        .after fun _ => .after fun _ => .after fun _ => .after fun _ => .after fun _ =>
          ih.map fun v h => h
      exact hm.listing.map fun ms h => nesting_ofMembers_le h
    case h_3 => exact hs _ _

theorem isDigit_of_digitOf? {d : Nat} (h : digitOf? c = some d) : c.isDigit := by
  have hc : '0' ≤ c ∧ c ≤ '9' := Decidable.byContradiction fun hc => by simp [digitOf?, hc] at h
  rw [Char.isDigit, Bool.and_eq_true, decide_eq_true_iff, decide_eq_true_iff]
  exact hc

theorem scalar_opensWith (c : Char) : Returns (scalar c) (·.opensWith c) := by
  rw [scalar.eq_def]
  split
  case h_4 => exact .of_map fun _ => rfl
  case h_5 => exact .after fun _ => .after fun _ => .after fun _ => .of_map fun _ => rfl
  case h_6 =>
    have hd : Returns (liftM (digitOf? c) : Reader Nat) fun _ => c.isDigit := by
      intro cs d rest h
      rw [lift_apply, Option.map_eq_some_iff] at h
      obtain ⟨_, hd, _⟩ := h
      exact isDigit_of_digitOf? hd
    exact hd.bind fun _ hc => .after fun _ => .of_map fun _ => by simp [Value.opensWith, hc]
  all_goals exact .after fun _ => .pure rfl

-- The character is the first one that is not blank.
theorem value_opensWith {rest : List Char} (h : value n cs = some (v, rest)) :
    ∃ c ∈ (cs.dropWhile isBlank).head?, v.opensWith c := by
  have hb : blanks cs = some ((), cs.dropWhile isBlank) := rfl
  cases hc : cs.dropWhile isBlank <;> rw [hc] at hb
  case nil =>
    have hn : next [] = none := rfl
    cases n <;> simp [value, hb, hn] at h
  case cons c tail =>
    refine ⟨c, rfl, ?_⟩
    cases n <;> simp only [value, bind_apply, hb, next_cons] at h
    case zero => exact scalar_opensWith c tail v rest h
    case succ =>
      split at h
      case h_1 => exact Returns.of_map (q := (·.opensWith '[')) (fun _ => rfl) tail v rest h
      case h_2 => exact Returns.of_map (q := (·.opensWith '\x7b')) (fun _ => rfl) tail v rest h
      case h_3 => exact scalar_opensWith _ tail v rest h

end Reader

variable {s : String}

theorem read?_text (h : Exact v) (hn : v.nesting ≤ maxNesting) : read? (text v) = some v := by
  have hv := Reader.reads_text h hn [] nofun
  have hb : Reader.blanks [] = some ((), []) := rfl
  rw [List.append_nil] at hv
  simp [read?, Reader.document, StateT.run, hv, hb]

theorem read_eq_ok_iff : compact.read s = .ok v ↔ read? s = some v := by
  simp only [compact]
  cases read? s <;> simp

-- A document is a value with blanks behind it.
theorem exists_value_of_read? (h : read? s = some v) :
    ∃ rest, Reader.value maxNesting s.toList = some (v, rest) := by
  obtain ⟨⟨v, rest⟩, hd, rfl⟩ := Option.map_eq_some_iff.mp h
  rw [Reader.document, StateT.run, Reader.bind_apply] at hd
  split at hd
  case h_2 => contradiction
  case h_1 w after hv =>
    have hw : v = w := by
      refine Reader.Returns.after (q := (· = w)) (fun _ => ?_) after v rest hd
      exact .after fun _ => .after fun _ => .pure rfl
    exact ⟨after, hw ▸ hv⟩

end Compact

theorem compact_lawful : compact.Lawful where
  reads_back h hn := by simp [compact, Compact.read?_text h hn]
  nesting_le h := by
    obtain ⟨_, hv⟩ := Compact.exists_value_of_read? (Compact.read_eq_ok_iff.mp h)
    exact Compact.Reader.value_returns maxNesting _ _ _ hv
  opensWith h := by
    obtain ⟨_, hv⟩ := Compact.exists_value_of_read? (Compact.read_eq_ok_iff.mp h)
    exact Compact.Reader.value_opensWith hv

end RpalMachine.Json
