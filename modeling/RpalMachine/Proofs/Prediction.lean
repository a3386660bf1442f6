import RpalMachine.Proofs.Composition

namespace RpalMachine

namespace Reader

-- How reading ends at a place in the text, which a literal out of range is no end of.
inductive Stop (α : Type)
  | done (a : α)
  | unexpected (wanted : Wanted)
  | tooDeep

-- What a reader answers that stops before the given tokens.
def Stop.answer : Stop α → List Token → Except Refusal (α × List Token)
  | done a, s       => .ok (a, s)
  | unexpected w, s => .error (.unexpected w s)
  | tooDeep, s      => .error (.tooDeep s)

-- The next lexeme is the same, if there is one.
def SameNext (s s' : List Token) : Prop :=
  s'.head?.map Token.lexeme = s.head?.map Token.lexeme

structure Predictive (x : Reader α) : Prop where
  suffix {s s' : List Token} {o : Stop α} : x s = o.answer s' → s' <:+ s
  -- What was taken and what comes next decide.
  lexical {taken taken' s s' : List Token} {o : Stop α} : x (taken ++ s) = o.answer s →
    taken'.map Token.lexeme = taken.map Token.lexeme → SameNext s s' →
      x (taken' ++ s') = o.answer s'
  -- If everything was taken, a further token is left alone, or what it begins is gone on with.
  steady {s : List Token} {a : α} : x s = .ok (a, []) → ∀ t rest,
    x (s ++ t :: rest) = .ok (a, t :: rest) ∨
      ∀ (o : Stop α) s', x (s ++ t :: rest) = o.answer s' → s' <:+ rest

theorem Stop.answer_inj {o p : Stop α} {s s' : List Token} (h : o.answer s = p.answer s') :
    o = p ∧ s = s' := by
  cases o <;> cases p <;> cases h <;> exact ⟨rfl, rfl⟩

-- One reader stops after the other, or the first one refuses, as it does for other tokens then.
theorem answer_of_bind {x : Reader α} {f : α → Reader β} {o : Stop β} {s s' : List Token}
    (h : (x >>= f) s = o.answer s') :
    (∃ a s₁, x s = .ok (a, s₁) ∧ f a s₁ = o.answer s') ∨
      ∃ o' : Stop α, x s = o'.answer s' ∧ ∀ {x' : Reader α} {f' : α → Reader β} {r r'},
        x' r = o'.answer r' → (x' >>= f') r = o.answer r' := by
  rw [bind_apply] at h
  match hx : x s with
  | .ok (a, s₁) => exact .inl ⟨a, s₁, rfl, by rwa [hx] at h⟩
  | .error e =>
    rw [hx] at h
    refine .inr ?_
    cases o <;> cases h
    case unexpected w => exact ⟨.unexpected w, rfl, fun h => by rw [bind_apply, h]; rfl⟩
    case tooDeep      => exact ⟨.tooDeep, rfl, fun h => by rw [bind_apply, h]; rfl⟩

theorem SameNext.append {taken taken' s s' : List Token}
    (h : taken'.map Token.lexeme = taken.map Token.lexeme) (hs : SameNext s s') :
    SameNext (taken ++ s) (taken' ++ s') := by
  cases taken
  case nil =>
    cases List.map_eq_nil_iff.mp h
    exact hs
  case cons =>
    obtain ⟨_, _, rfl, ht, _⟩ := List.map_eq_cons_iff.mp h
    exact congrArg some ht

-- The reader takes a single token at most. What it answers depends on the next lexeme: it may stay
-- where it is, take the token, or refuse it as out of range.
structure Decides (x : Reader α) (o : Stop α) (decision : Lexeme → Option (Option α)) : Prop where
  nil  : x [] = o.answer []
  cons (t : Token) (s : List Token) : match decision t.lexeme with
    | none          => x (t :: s) = o.answer (t :: s)
    | some (some a) => x (t :: s) = .ok (a, s)
    | some none     => ∀ (o : Stop α) s', x (t :: s) ≠ o.answer s'

namespace Decides

variable {x : Reader α} {o : Stop α} {decision : Lexeme → Option (Option α)} {t : Token}
  {s s' : List Token} (h : Decides x o decision)
include h

theorem stays (hs : ∀ t ∈ s.head?, decision t.lexeme = none) : x s = o.answer s := by
  cases s
  case nil => exact h.nil
  case cons t s =>
    have ht := h.cons t s
    rwa [hs t rfl] at ht

theorem takes {a : α} (ht : decision t.lexeme = some (some a)) : x (t :: s) = .ok (a, s) := by
  have hx := h.cons t s
  rwa [ht] at hx

theorem cases {p : Stop α} (hx : x s = p.answer s') :
    (p = o ∧ s' = s ∧ ∀ t ∈ s.head?, decision t.lexeme = none) ∨
      ∃ t a, s = t :: s' ∧ decision t.lexeme = some (some a) ∧ p = .done a := by
  match s with
  | [] =>
    have ⟨ho, hs⟩ := Stop.answer_inj (hx.symm.trans h.nil)
    exact .inl ⟨ho, hs, nofun⟩
  | t :: s =>
    have ht := h.cons t s
    split at ht
    case h_1 hd =>
      have ⟨ho, hs⟩ := Stop.answer_inj (hx.symm.trans ht)
      refine .inl ⟨ho, hs, ?_⟩
      rintro _ ⟨⟩
      exact hd
    case h_2 a hd =>
      have ⟨ho, hs⟩ := Stop.answer_inj (p := .done a) (hx.symm.trans ht)
      exact .inr ⟨t, a, hs ▸ rfl, hd, ho⟩
    case h_3 => exact absurd hx (ht _ _)

theorem predictive : Predictive x where
  suffix := by
    intro s s' o' hx
    match h.cases hx with
    | .inl ⟨_, hs, _⟩       => exact hs ▸ List.suffix_refl _
    | .inr ⟨t, _, hs, _, _⟩ => exact hs ▸ List.suffix_cons t s'
  lexical := by
    intro taken taken' s s' o' hx ht hn
    match h.cases hx with
    | .inl ⟨ho, hs, hd⟩ =>
      have hs : taken = [] := List.self_eq_append_left.mp hs
      subst hs ho
      cases List.map_eq_nil_iff.mp ht
      refine h.stays fun t' ht' => ?_
      have ⟨t, hts, htl⟩ : ∃ t, s.head? = some t ∧ t.lexeme = t'.lexeme := by
        have ht' : s'.head? = some t' := ht'
        rw [SameNext, ht'] at hn
        exact Option.map_eq_some_iff.mp hn.symm
      exact htl ▸ hd t hts
    | .inr ⟨t, a, hs, hd, ho⟩ =>
      have hs : taken = [t] := List.append_cancel_right (hs : taken ++ s = [t] ++ s)
      subst hs ho
      obtain ⟨t', rfl, ht'⟩ := List.map_eq_singleton_iff.mp ht
      exact h.takes (ht' ▸ hd)
  steady := by
    intro s a hx t rest
    match h.cases (p := .done a) hx with
    | .inr ⟨t', a', hs, hd, ho⟩ =>
      cases ho
      subst hs
      exact .inl (h.takes hd)
    | .inl ⟨ho, hs, _⟩ =>
      subst ho hs
      match hd : decision t.lexeme with
      | none => exact .inl (h.stays (by rintro _ ⟨⟩; exact hd))
      | some (some b) =>
        refine .inr fun o s' ho => ?_
        have ⟨_, hs⟩ := Stop.answer_inj (p := .done b) (ho.symm.trans (h.takes hd))
        exact hs ▸ List.suffix_refl _
      | some none =>
        have hx := h.cons t rest
        rw [hd] at hx
        exact .inr fun o s' ho => absurd ho (hx o s')

end Decides

theorem takeIf_decides (meaning? : Lexeme → Option α) :
    Decides (takeIf meaning?) (.done none) fun l => (meaning? l).map fun a => some (some a) := by
  refine ⟨rfl, fun t s => ?_⟩
  cases hm : meaning? t.lexeme <;> simp [takeIf, hm, Stop.answer]

def operandDecision : Lexeme → Option (Option (Option Level.Opening))
  | .integer ds =>
    some ((integer? (Level.literal ds)).map fun n => some (.whole (.leaf (.integer n))))
  | l => (Level.operandOpening? l).map fun o => some (some o)

theorem operandHead_decides : Decides Level.operandHead (.done none) operandDecision := by
  refine ⟨rfl, fun ⟨l, o⟩ s => ?_⟩
  cases l
  case integer ds =>
    cases hn : integer? (Level.literal ds)
    case some n => simp [operandDecision, Level.operandHead, Level.number, hn]
    case none   =>
      simp only [operandDecision, Level.operandHead, Level.number, hn, bind_apply, get_apply,
        set_apply, Option.map_none]
      exact fun o s' => by cases o <;> exact nofun
  case keyword w =>
    cases hw : Level.word? w <;>
      simp [operandDecision, Level.operandHead, Level.operandOpening?, hw, Stop.answer]
  case punctuation p =>
    by_cases hp : p = "(" <;>
      simp [operandDecision, Level.operandHead, Level.operandOpening?, hp, Stop.answer]
  all_goals rfl

namespace Predictive

-- A reader that takes nothing.
theorem of_answer {x : Reader α} {o : Stop α} (h : ∀ s, x s = o.answer s) : Predictive x :=
  have hd : Decides x o fun _ => none := ⟨h [], fun t s => h (t :: s)⟩
  hd.predictive

theorem pure (a : α) : Predictive (Pure.pure a) :=
  of_answer (o := .done a) fun _ => rfl

theorem refuse (wanted : Wanted) : Predictive (α := α) (Reader.refuse wanted) :=
  of_answer (o := .unexpected wanted) fun _ => rfl

theorem tooDeep : Predictive (α := α) Reader.tooDeep :=
  of_answer (o := .tooDeep) fun _ => rfl

theorem takeIf (meaning? : Lexeme → Option α) : Predictive (Reader.takeIf meaning?) :=
  (takeIf_decides meaning?).predictive

theorem operandHead : Predictive Level.operandHead :=
  operandHead_decides.predictive

theorem bind {x : Reader α} {f : α → Reader β} (hx : Predictive x) (hf : ∀ a, Predictive (f a)) :
    Predictive (x >>= f) where
  suffix := by
    intro s s' o h
    match answer_of_bind h with
    | .inl ⟨a, s₁, hs, hr⟩ => exact ((hf a).suffix hr).trans (hx.suffix (o := .done a) hs)
    | .inr ⟨o', hs, _⟩     => exact hx.suffix hs
  lexical := by
    intro taken taken' s s' o h ht hn
    match answer_of_bind h with
    | .inr ⟨o', hs, ho⟩ => exact ho (hx.lexical hs ht hn)
    | .inl ⟨a, s₁, hs, hr⟩ =>
      obtain ⟨t₂, rfl⟩ := (hf a).suffix hr
      obtain ⟨t₁, h₁⟩ := hx.suffix (o := .done a) hs
      rw [← List.append_assoc, List.append_cancel_right_eq] at h₁
      subst h₁
      rw [List.map_append] at ht
      obtain ⟨t₁', t₂', rfl, h₁, h₂⟩ := List.map_eq_append_iff.mp ht
      rw [List.append_assoc] at hs
      rw [List.append_assoc]
      have hs' := hx.lexical (o := .done a) hs h₁ (hn.append h₂)
      exact bind_of_ok hs' ((hf a).lexical hr h₂ hn)
  steady := by
    intro s b h t rest
    have ⟨a, s₁, hs, hr⟩ := bind_eq_ok h
    cases s₁
    case cons t₁ s₁ =>
      -- The first reader did not come to the end, and stops where it did.
      obtain ⟨t₀, rfl⟩ := hx.suffix (o := .done a) hs
      have hs' : x (t₀ ++ (t₁ :: s₁ ++ t :: rest)) = .ok (a, t₁ :: s₁ ++ t :: rest) :=
        hx.lexical (o := .done a) hs rfl rfl
      rw [List.append_assoc, bind_of_ok hs' rfl]
      exact (hf a).steady hr t rest
    case nil =>
      match hx.steady hs t rest with
      | .inl hs' =>
        rw [bind_of_ok hs' rfl]
        exact (hf a).steady hr t rest
      | .inr hs' =>
        refine .inr fun o s' ho => ?_
        match answer_of_bind ho with
        | .inl ⟨a', s₁, hs₁, hr₁⟩ => exact ((hf a').suffix hr₁).trans (hs' (.done a') s₁ hs₁)
        | .inr ⟨o', hs₁, _⟩       => exact hs' o' s' hs₁

-- What holds of the tokens of each length holds of all.
theorem limit {x : Reader α}
    (h : ∀ n, ∃ y, Predictive y ∧ ∀ s : List Token, s.length < n → x s = y s) : Predictive x where
  suffix := by
    intro s s' o hx
    have ⟨y, hy, he⟩ := h (s.length + 1)
    exact hy.suffix ((he s (by omega)).symm.trans hx)
  lexical := by
    intro taken taken' s s' o hx ht hn
    have ⟨y, hy, he⟩ := h ((taken ++ s).length + (taken' ++ s').length + 1)
    rw [he _ (by omega)] at hx ⊢
    exact hy.lexical hx ht hn
  steady := by
    intro s a hx t rest
    have ⟨y, hy, he⟩ := h ((s ++ t :: rest).length + s.length + 1)
    rw [he _ (by omega)] at hx ⊢
    exact hy.steady hx t rest

theorem compositional : Compositional fun _ x => Predictive x where
  bind        := bind
  pure        := pure
  refuse      := refuse
  takeIf      := takeIf
  operandHead := operandHead
  limit h     := limit fun n =>
    have ⟨_, y, hy, he⟩ := h n
    ⟨y, hy, fun s hs => (he s hs).2⟩

end Predictive

-- The second reader gives the same answer, unless the first one was refused for being too deep: the
-- second one goes on from there.
def Agrees (x x' : Reader α) : Prop :=
  ∀ s, x s = x' s ∨ ∃ rest, x s = .error (.tooDeep rest) ∧
    ∀ (o : Stop α) s', x' s = o.answer s' → s' <:+ rest

namespace Agrees

theorem refl (x : Reader α) : Agrees x x :=
  fun _ => .inl rfl

theorem of_tooDeep {x : Reader α} (hx : Predictive x) : Agrees Reader.tooDeep x :=
  fun s => .inr ⟨s, rfl, fun _ _ => hx.suffix⟩

theorem bind {x x' : Reader α} {f f' : α → Reader β} (hx : Agrees x x')
    (hf : ∀ a, Agrees (f a) (f' a)) (hf' : ∀ a, Predictive (f' a)) :
    Agrees (x >>= f) (x' >>= f') := by
  intro s
  match hx s with
  | .inl hs =>
    rw [bind_apply, bind_apply, ← hs]
    match x s with
    | .ok (a, s₁) => exact hf a s₁
    | .error _    => exact .inl rfl
  | .inr ⟨rest, hs, hr⟩ =>
    refine .inr ⟨rest, by rw [bind_apply, hs], fun o s' ho => ?_⟩
    match answer_of_bind ho with
    | .inl ⟨a, s₁, hs₁, hr₁⟩ => exact ((hf' a).suffix hr₁).trans (hr (.done a) s₁ hs₁)
    | .inr ⟨o', hs₁, _⟩      => exact hr o' s' hs₁

theorem limit {x x' : Reader α} (h : ∀ n, ∃ y y', Agrees y y' ∧
    ∀ s : List Token, s.length < n → x s = y s ∧ x' s = y' s) : Agrees x x' := by
  intro s
  have ⟨y, y', hy, he⟩ := h (s.length + 1)
  have ⟨hs, hs'⟩ := he s (Nat.lt_succ_self _)
  rw [hs, hs']
  exact hy s

theorem compositional : Compositional fun x x' => Predictive x' ∧ Agrees x x' where
  bind hx hf    := ⟨hx.1.bind fun a => (hf a).1, hx.2.bind (fun a => (hf a).2) fun a => (hf a).1⟩
  pure a        := ⟨.pure a, .refl _⟩
  refuse w      := ⟨.refuse w, .refl _⟩
  takeIf m      := ⟨.takeIf m, .refl _⟩
  operandHead   := ⟨.operandHead, .refl _⟩
  limit h       := by
    refine ⟨.limit fun n => ?_, .limit fun n => ?_⟩
    all_goals have ⟨y, y', hy, he⟩ := h n
    case refine_1 => exact ⟨y', hy.1, fun s hs => (he s hs).2⟩
    case refine_2 => exact ⟨y, y', hy.2, he⟩

end Agrees

-- Without a literal out of range reading always stops at a place.
def Stops (x : Reader α) : Prop :=
  ∀ s : List Token, (∀ t ∈ s, t.lexeme.InRange) →
    ∃ (o : Stop α) (s' : List Token), x s = o.answer s'

namespace Stops

theorem of_decides {x : Reader α} {o : Stop α} {decision : Lexeme → Option (Option α)}
    (h : Decides x o decision) (hd : ∀ l : Lexeme, l.InRange → decision l ≠ some none) :
    Stops x := by
  intro s hs
  match s with
  | [] => exact ⟨o, [], h.nil⟩
  | t :: s =>
    match ht : decision t.lexeme with
    | none          => exact ⟨o, t :: s, h.stays (by rintro _ ⟨⟩; exact ht)⟩
    | some (some a) => exact ⟨.done a, s, h.takes ht⟩
    | some none     => exact absurd ht (hd t.lexeme (hs t (.head _)))

theorem bind {x : Reader α} {f : α → Reader β} (hp : Predictive x) (hx : Stops x)
    (hf : ∀ a, Stops (f a)) : Stops (x >>= f) := by
  intro s hs
  have ⟨o, s₁, ho⟩ := hx s hs
  rw [bind_apply, ho]
  cases o
  case done a =>
    have hsub := (hp.suffix ho).subset
    exact hf a s₁ fun t ht => hs t (hsub ht)
  case unexpected w => exact ⟨.unexpected w, s₁, rfl⟩
  case tooDeep      => exact ⟨.tooDeep, s₁, rfl⟩

theorem operandHead : Stops Level.operandHead := by
  refine of_decides operandHead_decides fun l hl => ?_
  cases l
  case integer ds =>
    have ⟨n, hn⟩ := Option.isSome_iff_exists.mp (hl ds rfl)
    simp [operandDecision, hn]
  all_goals simp [operandDecision]

theorem limit {x : Reader α}
    (h : ∀ n, ∃ y, Stops y ∧ ∀ s : List Token, s.length < n → x s = y s) : Stops x := by
  intro s hs
  have ⟨y, hy, he⟩ := h (s.length + 1)
  rw [he s (Nat.lt_succ_self _)]
  exact hy s hs

theorem compositional : Compositional fun _ x => Predictive x ∧ Stops x where
  bind hx hf  := ⟨hx.1.bind fun a => (hf a).1, .bind hx.1 hx.2 fun a => (hf a).2⟩
  pure a      := ⟨.pure a, fun s _ => ⟨.done a, s, rfl⟩⟩
  refuse w    := ⟨.refuse w, fun s _ => ⟨.unexpected w, s, rfl⟩⟩
  takeIf m    := ⟨.takeIf m, of_decides (takeIf_decides m) fun _ _ => by simp⟩
  operandHead := ⟨.operandHead, operandHead⟩
  limit h     := by
    refine ⟨.limit fun n => ?_, .limit fun n => ?_⟩
    all_goals have ⟨_, y, hy, he⟩ := h n
    case refine_1 => exact ⟨y, hy.1, fun s hs => (he s hs).2⟩
    case refine_2 => exact ⟨y, hy.2, fun s hs => (he s hs).2⟩

end Stops

end Reader

open Reader

theorem Level.build_predictive (level : Level) (f : Form) (ts : List Tree) :
    Predictive (level.build f ts) := by
  simp only [build]
  split
  case isTrue  => exact .pure _
  case isFalse => exact .tooDeep

theorem Level.build_stops (level : Level) (f : Form) (ts : List Tree) :
    Stops (level.build f ts) := by
  simp only [build]
  split
  case isTrue  => exact fun s _ => ⟨.done _, s, rfl⟩
  case isFalse => exact fun s _ => ⟨.tooDeep, s, rfl⟩

theorem Level.build_agrees {level level' : Level} (h : level.maxHeight ≤ level'.maxHeight)
    (f : Form) (ts : List Tree) : Agrees (level.build f ts) (level'.build f ts) := by
  by_cases hh : (Tree.form f ts).height ≤ level.maxHeight
  case pos =>
    have hh' := Nat.le_trans hh h
    simp only [build, hh, hh', if_true]
    exact .refl _
  case neg =>
    have hb : level.build f ts = Reader.tooDeep := by simp only [build, hh, if_false]
    exact hb ▸ .of_tooDeep (level'.build_predictive f ts)

namespace Phrase

variable {m m' n n' : Nat}

theorem read_predictive (m n : Nat) (phrase : Phrase) : Predictive (read m n phrase) := by
  induction n generalizing phrase
  case zero      => exact .tooDeep
  case succ n hi =>
    have r : Level.Related (fun _ x => Predictive x) (.ofDepth m n) (.ofDepth m n) :=
      ⟨Level.build_predictive _, hi, Level.ofDepth_sound m n, Level.ofDepth_sound m n⟩
    exact Predictive.compositional.phrase r phrase

theorem read_stops (m n : Nat) (phrase : Phrase) : Stops (read m n phrase) := by
  induction n generalizing phrase
  case zero      => exact fun s _ => ⟨.tooDeep, s, rfl⟩
  case succ n hi =>
    have r : Level.Related (fun _ x => Predictive x ∧ Stops x) (.ofDepth m n) (.ofDepth m n) := by
      refine ⟨fun f ts => ⟨Level.build_predictive _ f ts, Level.build_stops _ f ts⟩,
        fun phrase => ⟨read_predictive m n phrase, hi phrase⟩, ?_, ?_⟩
      all_goals exact Level.ofDepth_sound m n
    exact (Stops.compositional.phrase r phrase).2

theorem read_agrees (hm : m ≤ m') (hn : n ≤ n') (phrase : Phrase) :
    Agrees (read m n phrase) (read m' n' phrase) := by
  induction n generalizing n' phrase
  case zero      => exact .of_tooDeep (read_predictive m' n' phrase)
  case succ n hi =>
    cases n'
    case zero    => contradiction
    case succ n' =>
      have r : Level.Related (fun x x' => Predictive x' ∧ Agrees x x') (.ofDepth m n)
          (.ofDepth m' n') := by
        refine ⟨fun f ts => ⟨Level.build_predictive _ f ts, Level.build_agrees hm f ts⟩,
          fun phrase => ?_, Level.ofDepth_sound m n, Level.ofDepth_sound m' n'⟩
        exact ⟨read_predictive m' n' phrase, hi (Nat.le_of_succ_le_succ hn) phrase⟩
      exact (Agrees.compositional.phrase r phrase).2

end Phrase

end RpalMachine
