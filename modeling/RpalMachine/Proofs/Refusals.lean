import RpalMachine.Proofs.Language
import RpalMachine.Proofs.Prediction
import RpalMachine.Proofs.Completion

namespace RpalMachine

-- The same lexeme, with another number in place of one out of range.
def Lexeme.clamped : Lexeme → Lexeme
  | .integer ds => if (integer? (Level.literal ds)).isSome then .integer ds else .integer "0"
  | l           => l

-- The lexemes are an expression of the grammar. A literal is an <INT> whatever its number is,
-- though there is no tree for one that is out of range.
def Sentence (ls : List Lexeme) : Prop :=
  ∃ t, Derives .expression (ls.map Lexeme.clamped) t

namespace Lexeme

theorem clamped_of_inRange {l : Lexeme} (h : l.InRange) : l.clamped = l := by
  cases l
  case integer ds => rw [clamped, if_pos (h ds rfl)]
  all_goals rfl

theorem map_clamped {ls : List Lexeme} (h : ∀ l ∈ ls, l.InRange) : ls.map clamped = ls :=
  (List.map_congr_left fun l hl => clamped_of_inRange (h l hl)).trans (List.map_id ls)

end Lexeme

open Reader

theorem sentence_of_derives {ls : List Lexeme} {t : Tree} (h : ∀ l ∈ ls, l.InRange)
    (ht : Derives .expression ls t) : Sentence ls :=
  ⟨t, by rwa [Lexeme.map_clamped h]⟩

namespace Phrase

variable {depth : Nat} {tokens before after rest : List Token} {t : Token} {o : Stop Tree}
  {wanted : Wanted}

-- What is answered within limits is answered for good.
theorem read_of_le {m n m' n' : Nat} {phrase : Phrase} (hm : m ≤ m') (hn : n ≤ n')
    (h : read m n phrase tokens = o.answer rest) (ho : o ≠ .tooDeep) :
    read m' n' phrase tokens = o.answer rest := by
  match read_agrees hm hn phrase tokens with
  | .inl he          => exact he.symm.trans h
  | .inr ⟨_, he, _⟩ =>
    have ⟨he, _⟩ := Stop.answer_inj (p := .tooDeep) (h.symm.trans he)
    exact absurd he ho

-- With levels enough an expression is read.
theorem exists_read {u : Tree} (h : Derives .expression (tokens.map Token.lexeme) u) (least : Nat) :
    ∃ n ≥ least, read n n .expression tokens = .ok (u, []) := by
  have ⟨n, hn⟩ : ∃ n, max (max u.height least) (Category.depth .expression tokens.length) < n :=
    ⟨_, Nat.lt_succ_self _⟩
  exact ⟨n, by omega, read_of_readAll (readAll_complete h (by omega) (by omega))⟩

-- Where reading stopped before the end nothing leads further.
theorem not_sentence_of_stop (hr : ∀ u ∈ before ++ t :: after, u.lexeme.InRange)
    (h : read depth depth .expression (before ++ t :: after) = o.answer (t :: after))
    (ho : o ≠ .tooDeep) (ms : List Lexeme) :
    ¬ Sentence (before.map Token.lexeme ++ t.lexeme :: ms) := by
  rintro ⟨u, hu⟩
  rw [List.forall_mem_append, List.forall_mem_cons] at hr
  have ⟨more, hm⟩ : ∃ more : List Token, more.map Token.lexeme = ms.map Lexeme.clamped :=
    ⟨(ms.map Lexeme.clamped).map (Token.mk · 0), by simp [Function.comp_def]⟩
  have hl : (before.map Token.lexeme ++ t.lexeme :: ms).map Lexeme.clamped =
      (before ++ t :: more).map Token.lexeme := by
    rw [List.map_append, List.map_cons, Lexeme.map_clamped (List.forall_mem_map.mpr hr.1),
      Lexeme.clamped_of_inRange hr.2.1, List.map_append, List.map_cons, hm]
  rw [hl] at hu
  have ⟨n, hn, hx⟩ := exists_read hu depth
  have hy : read depth depth .expression (before ++ t :: more) = o.answer (t :: more) :=
    (read_predictive depth depth .expression).lexical h rfl rfl
  have ⟨_, hs⟩ := Stop.answer_inj (o := .done u) (hx.symm.trans (read_of_le hn hn hy ho))
  contradiction

-- What was taken when a lexeme is refused is not an expression.
theorem not_sentence_of_unexpected (hr : ∀ u ∈ before, u.lexeme.InRange)
    (h : read depth depth .expression (before ++ rest) = .error (.unexpected wanted rest)) :
    ¬ Sentence (before.map Token.lexeme) := by
  rintro ⟨u, hu⟩
  rw [Lexeme.map_clamped (List.forall_mem_map.mpr hr)] at hu
  have ⟨n, hn, hx⟩ := exists_read hu depth
  have hy : read n n .expression (before ++ rest) = .error (.unexpected wanted rest) :=
    read_of_le (o := .unexpected wanted) hn hn h nofun
  cases rest
  case nil =>
    rw [List.append_nil] at hy
    cases hx.symm.trans hy
  case cons t rest =>
    match (read_predictive n n .expression).steady hx t rest with
    | .inl hs => cases hs.symm.trans hy
    | .inr hs =>
      have hle := (hs (.unexpected wanted) (t :: rest) hy).length_le
      exact absurd hle (Nat.not_succ_le_self _)

-- It is the beginning of one.
theorem exists_sentence_of_unexpected (hr : ∀ u ∈ tokens, u.lexeme.InRange)
    (h : read depth depth .expression tokens = .error (.unexpected wanted rest)) :
    ∃ before, tokens = before ++ rest ∧
      ∃ ms, (∀ l ∈ ms, l.Spelled) ∧ Sentence (before.map Token.lexeme ++ ms) := by
  obtain ⟨before, rfl, ms, u, hms, hu⟩ := (read_viable depth depth .expression).refused h
  rw [List.forall_mem_append] at hr
  refine ⟨before, rfl, ms, fun l hl => (hms l hl).spelled, sentence_of_derives ?_ hu⟩
  exact List.forall_mem_append.mpr ⟨List.forall_mem_map.mpr hr.1, fun l hl => (hms l hl).inRange⟩

end Phrase

-- What an answer says about the tokens of a text.
inductive Verdict (source : String) (tokens : List Token) : Except ParseFault Tree → Prop
  | accepted (t : Tree) : Sentence (tokens.map Token.lexeme) → Verdict source tokens (.ok t)
  | incomplete {fault : ParseFault} {ms : List Lexeme} :
    fault.cause.kind = .incomplete → ¬ Sentence (tokens.map Token.lexeme) →
      (∀ l ∈ ms, l.Spelled) → Sentence (tokens.map Token.lexeme ++ ms) →
        Verdict source tokens (.error fault)
  | trailing {before after : List Token} {t : Token} :
    tokens = before ++ t :: after → Sentence (before.map Token.lexeme) →
      (∀ ms, ¬ Sentence (before.map Token.lexeme ++ t.lexeme :: ms)) →
        Verdict source tokens
          (.error (.locate (.trailing t.offset) source t.offset t.lexeme.text))
  | refused {before after : List Token} {t : Token} {ms : List Lexeme} (wanted : Wanted) :
    tokens = before ++ t :: after → ¬ Sentence (before.map Token.lexeme) →
      (∀ l ∈ ms, l.Spelled) → Sentence (before.map Token.lexeme ++ ms) →
        (∀ ms, ¬ Sentence (before.map Token.lexeme ++ t.lexeme :: ms)) →
          Verdict source tokens
            (.error (.locate (.unexpected wanted) source t.offset t.lexeme.text))

namespace Verdict

variable {source : String} {tokens before after : List Token} {t : Token}
  {answer : Except ParseFault Tree} {fault : ParseFault}

theorem not_sentence_append (h : tokens = before ++ t :: after)
    (hn : ∀ ms, ¬ Sentence (before.map Token.lexeme ++ t.lexeme :: ms)) (ms : List Lexeme) :
    ¬ Sentence (tokens.map Token.lexeme ++ ms) := by
  subst h
  simpa using hn (after.map Token.lexeme ++ ms)

theorem incomplete_iff (v : Verdict source tokens answer) :
    (∃ fault, answer = .error fault ∧ fault.cause.kind = .incomplete) ↔
      ¬ Sentence (tokens.map Token.lexeme) ∧
        ∃ ms, (∀ l ∈ ms, l.Spelled) ∧ Sentence (tokens.map Token.lexeme ++ ms) := by
  match v with
  | .accepted t ht                => exact ⟨nofun, fun ⟨hn, _⟩ => absurd ht hn⟩
  | .incomplete hk hn hms ht      => exact ⟨fun _ => ⟨hn, _, hms, ht⟩, fun _ => ⟨_, rfl, hk⟩⟩
  | .trailing ht _ hn | .refused _ ht _ _ _ hn =>
    refine ⟨?_, fun ⟨_, ms, _, hm⟩ => absurd hm (not_sentence_append ht hn ms)⟩
    rintro ⟨_, ⟨⟩, ⟨⟩⟩

theorem of_trailingContent (v : Verdict source tokens (.error fault))
    (hk : fault.cause.kind = .trailingContent) :
    ∃ before t after, tokens = before ++ t :: after ∧
      fault = .locate (.trailing t.offset) source t.offset t.lexeme.text ∧
      Sentence (before.map Token.lexeme) ∧
      ∀ ms, ¬ Sentence (before.map Token.lexeme ++ t.lexeme :: ms) := by
  match v with
  | .incomplete hk' _ _ _ => cases hk'.symm.trans hk
  | .trailing ht hb hn    => exact ⟨_, _, _, ht, rfl, hb, hn⟩
  | .refused ..           => cases hk

theorem of_invalidSyntax (v : Verdict source tokens (.error fault))
    (hk : fault.cause.kind = .invalidSyntax) :
    ∃ wanted before t after, tokens = before ++ t :: after ∧
      fault = .locate (.unexpected wanted) source t.offset t.lexeme.text ∧
      ¬ Sentence (before.map Token.lexeme) ∧
      (∃ ms, (∀ l ∈ ms, l.Spelled) ∧ Sentence (before.map Token.lexeme ++ ms)) ∧
      ∀ ms, ¬ Sentence (before.map Token.lexeme ++ t.lexeme :: ms) := by
  match v with
  | .incomplete hk' _ _ _       => cases hk'.symm.trans hk
  | .trailing ..                => cases hk
  | .refused w ht hb hms hc hn  => exact ⟨w, _, _, _, ht, rfl, hb, ⟨_, hms, hc⟩, hn⟩

end Verdict

namespace Tree

variable {depth : Nat} {source : String} {tokens rest : List Token} {t : Token}

theorem ofSource_of_error {fault : ParseFault} (hs : tokenize source = .error fault) :
    ofSource depth source = .error fault := by
  simp only [ofSource, hs]
  rfl

theorem ofSource_of_nil (hs : tokenize source = .ok []) :
    ofSource depth source = .error { cause := .emptyProgram } := by
  simp only [ofSource, hs]
  rfl

theorem ofSource_of_cons (hs : tokenize source = .ok (t :: tokens)) :
    ofSource depth source =
      (Phrase.readAll depth (t :: tokens)).mapError (.ofRefusal source depth) := by
  simp only [ofSource, hs]
  rfl

-- What becomes of the place where reading stopped.
theorem ofSource_of_stop {o : Stop Tree} (hs : tokenize source = .ok (t :: tokens))
    (h : Phrase.read depth depth .expression (t :: tokens) = o.answer rest) :
    ofSource depth source = match o, rest with
      | .done u, []         => .ok u
      | .done _, t :: _     => .error (.ofRefusal source depth (.trailing t))
      | .unexpected w, rest => .error (.ofRefusal source depth (.unexpected w rest))
      | .tooDeep, rest      => .error (.ofRefusal source depth (.tooDeep rest)) := by
  rw [ofSource_of_cons hs]
  simp only [Phrase.readAll, StateT.run, h]
  cases o <;> cases rest <;> rfl

theorem verdict (hs : tokenize source = .ok tokens) (hr : ∀ t ∈ tokens, t.lexeme.InRange)
    (hd : ∀ fault, ofSource depth source = .error fault → fault.cause.kind ≠ .tooDeeplyNested) :
    Verdict source tokens (ofSource depth source) := by
  cases tokens
  case nil =>
    rw [ofSource_of_nil hs]
    have hx := Lexeme.legible_identifier.spelled
    refine .incomplete rfl ?_ (List.forall_mem_singleton.mpr hx) ⟨_, .expression_of_name "x"⟩
    exact fun ⟨_, hu⟩ => hu.ne_nil rfl
  case cons t tokens =>
    have ⟨o, rest, h⟩ := Phrase.read_stops depth depth .expression (t :: tokens) hr
    have he := ofSource_of_stop hs h
    rw [he] at hd ⊢
    match o, rest with
    | .tooDeep, rest => exact absurd rfl (hd _ rfl)
    | .unexpected w, [] =>
      have ⟨before, hb, ms, hms, hsent⟩ := Phrase.exists_sentence_of_unexpected hr h
      rw [List.append_nil] at hb
      subst hb
      rw [← List.append_nil (t :: tokens)] at h
      exact .incomplete rfl (Phrase.not_sentence_of_unexpected hr h) hms hsent
    | .unexpected w, u :: after =>
      have ⟨before, hb, ms, hms, hsent⟩ := Phrase.exists_sentence_of_unexpected hr h
      rw [hb] at hr h
      have hr' := (List.forall_mem_append.mp hr).1
      exact .refused w hb (Phrase.not_sentence_of_unexpected hr' h) hms hsent
        (Phrase.not_sentence_of_stop hr h nofun)
    | .done v, [] =>
      have ⟨before, hb, hv⟩ := Phrase.read_reads depth depth .expression _ v [] h
      rw [List.append_nil] at hb
      subst hb
      exact .accepted v (sentence_of_derives (List.forall_mem_map.mpr hr) hv)
    | .done v, u :: after =>
      have ⟨before, hb, hv⟩ := Phrase.read_reads depth depth .expression _ v _ h
      rw [hb] at hr h
      have hr' := (List.forall_mem_append.mp hr).1
      exact .trailing hb (sentence_of_derives (List.forall_mem_map.mpr hr') hv)
        (Phrase.not_sentence_of_stop hr h nofun)

-- How the faults of texts are classified and located: which of them begin as sentences do, and what
-- the first lexeme is that no sentence has at its place.
theorem ofSource_locates (hs : tokenize source = .ok tokens)
    (hr : ∀ t ∈ tokens, t.lexeme.InRange)
    (hd : ∀ fault, ofSource depth source = .error fault → fault.cause.kind ≠ .tooDeeplyNested) :
    ((∃ fault, ofSource depth source = .error fault ∧ fault.cause.kind = .incomplete) ↔
      ¬ Sentence (tokens.map Token.lexeme) ∧
        ∃ ms, (∀ l ∈ ms, l.Spelled) ∧ Sentence (tokens.map Token.lexeme ++ ms)) ∧
    (∀ fault, ofSource depth source = .error fault → fault.cause.kind = .trailingContent →
      ∃ before t after, tokens = before ++ t :: after ∧
        fault = .locate (.trailing t.offset) source t.offset t.lexeme.text ∧
        Sentence (before.map Token.lexeme) ∧
        ∀ ms, ¬ Sentence (before.map Token.lexeme ++ t.lexeme :: ms)) ∧
    ∀ fault, ofSource depth source = .error fault → fault.cause.kind = .invalidSyntax →
      ∃ wanted before t after, tokens = before ++ t :: after ∧
        fault = .locate (.unexpected wanted) source t.offset t.lexeme.text ∧
        ¬ Sentence (before.map Token.lexeme) ∧
        (∃ ms, (∀ l ∈ ms, l.Spelled) ∧ Sentence (before.map Token.lexeme ++ ms)) ∧
        ∀ ms, ¬ Sentence (before.map Token.lexeme ++ t.lexeme :: ms) := by
  have v := verdict hs hr hd
  refine ⟨v.incomplete_iff, fun fault he => ?_, fun fault he => ?_⟩
  case refine_1 => exact (he ▸ v).of_trailingContent
  case refine_2 => exact (he ▸ v).of_invalidSyntax

theorem exists_fault_of_kind {answer : Except ParseFault Tree} {kind : ParseFault.Kind}
    (h : (match answer with | .ok _ => none | .error e => some e.cause.kind) = some kind) :
    ∃ fault, answer = .error fault ∧ fault.cause.kind = kind := by
  cases answer
  case ok          => contradiction
  case error fault => exact ⟨fault, rfl, Option.some.inj h⟩

theorem unfinished_locates :
    (∃ fault, ofSource 8 "let x =" = .error fault ∧ fault.cause.kind = .incomplete) ∧
      ¬ Sentence [.keyword "let", .identifier "x", .operator "="] ∧
      ∃ ms, (∀ l ∈ ms, l.Spelled) ∧
        Sentence ([.keyword "let", .identifier "x", .operator "="] ++ ms) := by
  have hs : tokenize "let x =" =
      .ok [⟨.keyword "let", 0⟩, ⟨.identifier "x", 4⟩, ⟨.operator "=", 6⟩] := rfl
  obtain ⟨fault, he, hk⟩ :
      ∃ fault, ofSource 8 "let x =" = .error fault ∧ fault.cause.kind = .incomplete :=
    exists_fault_of_kind (by decide +kernel)
  have h := ofSource_locates hs (by simp [Lexeme.InRange]) fun fault' he' => by
    cases he.symm.trans he'
    simp [hk]
  exact ⟨⟨fault, he, hk⟩, h.1.mp ⟨fault, he, hk⟩⟩

end Tree

end RpalMachine
