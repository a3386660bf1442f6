import RpalMachine.Source.Reader
import RpalMachine.Proofs.Grammar

namespace RpalMachine

namespace Reader

@[simp]
theorem pure_apply (a : α) (s : List Token) : (pure a : Reader α) s = .ok (a, s) :=
  rfl

@[simp]
theorem get_apply (s : List Token) : (get : Reader (List Token)) s = .ok (s, s) :=
  rfl

@[simp]
theorem set_apply (s s' : List Token) : (set s' : Reader PUnit) s = .ok (⟨⟩, s') :=
  rfl

@[simp]
theorem throw_apply (e : Refusal) (s : List Token) : (throw e : Reader α) s = .error e :=
  rfl

@[simp]
theorem bind_apply (x : Reader α) (f : α → Reader β) (s : List Token) :
    (x >>= f) s = match x s with
      | .ok (a, s') => f a s'
      | .error e    => .error e := by
  simp only [bind, StateT.bind, Except.bind]
  cases x s <;> rfl

theorem bind_of_ok {x : Reader α} {f : α → Reader β} {a : α} {s s' : List Token}
    {r : Except Refusal (β × List Token)} (h : x s = .ok (a, s')) (hf : f a s' = r) :
    (x >>= f) s = r := by
  rw [bind_apply, h, ← hf]

theorem bind_eq_ok {x : Reader α} {f : α → Reader β} {b : β} {s s' : List Token}
    (h : (x >>= f) s = .ok (b, s')) : ∃ a s₁, x s = .ok (a, s₁) ∧ f a s₁ = .ok (b, s') := by
  rw [bind_apply] at h
  match hx : x s with
  | .ok (a, s₁) => exact ⟨a, s₁, rfl, by rwa [hx] at h⟩
  | .error e    => rw [hx] at h; contradiction

@[simp]
theorem map_apply (f : α → β) (x : Reader α) (s : List Token) :
    (f <$> x) s = match x s with
      | .ok (a, s') => .ok (f a, s')
      | .error e    => .error e := by
  simp only [Functor.map, StateT.map, bind, Except.bind, pure, Except.pure]
  cases x s <;> rfl

-- Starting with the given tokens.
def ReadsFrom (s : List Token) (x : Reader α) (p : List Lexeme → α → Prop) : Prop :=
  ∀ a s', x s = .ok (a, s') → ∃ taken, s = taken ++ s' ∧ p (taken.map Token.lexeme) a

def Reads (x : Reader α) (p : List Lexeme → α → Prop) : Prop :=
  ∀ s, ReadsFrom s x p

-- For what is repeated: each time something is taken, and at last the given lexemes are.
def Further (last : List Lexeme) (p : List Lexeme → α → Prop) (ls : List Lexeme) : Option α → Prop
  | some a => ls ≠ [] ∧ p ls a
  | none   => ls = last

variable {p q : List Lexeme → α → Prop} {r : List Lexeme → β → Prop}

theorem ReadsFrom.bind {s : List Token} {x : Reader α} {f : α → Reader β} (hx : ReadsFrom s x p)
    (hf : ∀ taken a s', s = taken ++ s' → p (taken.map Token.lexeme) a →
      ReadsFrom s' (f a) fun ms b => r (taken.map Token.lexeme ++ ms) b) :
    ReadsFrom s (x >>= f) r := by
  intro b s'' h
  rw [bind_apply] at h
  cases hs : x s <;> rw [hs] at h
  case error => contradiction
  case ok a =>
    have ⟨taken, ht, hp⟩ := hx a.1 a.2 hs
    have ⟨more, hm, hr⟩ := hf taken a.1 a.2 ht hp b s'' h
    exact ⟨taken ++ more, by rw [ht, hm, List.append_assoc], by rwa [List.map_append]⟩

namespace Reads

theorem mono {x : Reader α} (hx : Reads x p) (h : ∀ ls a, p ls a → q ls a) : Reads x q :=
  fun s a s' hs =>
    have ⟨taken, hs, hp⟩ := hx s a s' hs
    ⟨taken, hs, h _ _ hp⟩

theorem pure {a : α} (h : p [] a) : Reads (Pure.pure a) p := by
  rintro s _ _ ⟨⟩
  exact ⟨[], rfl, h⟩

theorem throw (e : Refusal) : Reads (MonadExcept.throw e) p :=
  fun _ _ _ => nofun

theorem bind {x : Reader α} {f : α → Reader β} (hx : Reads x p)
    (hf : ∀ ls a, p ls a → Reads (f a) fun ms b => r (ls ++ ms) b) : Reads (x >>= f) r :=
  fun s => (hx s).bind fun _ a s' _ hp => hf _ a hp s'

theorem map {x : Reader α} {f : α → β} (hx : Reads x fun ls a => r ls (f a)) :
    Reads (f <$> x) r := by
  intro s b s' h
  rw [map_apply] at h
  cases hs : x s <;> rw [hs] at h <;> cases h
  exact hx s _ _ hs

theorem get {f : List Token → Reader α} (h : ∀ s, ReadsFrom s (f s) p) :
    Reads (MonadState.get >>= f) p :=
  fun s a s' hs => h s a s' hs

theorem refuse (wanted : Wanted) : Reads (Reader.refuse wanted) p :=
  get fun _ _ _ => nofun

theorem skip (l : Lexeme) : Reads (skip? l) fun ls taken => ls = if taken then [l] else [] := by
  refine get fun s => ?_
  match s with
  | []     => rintro _ _ ⟨⟩; exact ⟨[], rfl, rfl⟩
  | t :: s =>
    by_cases h : t.lexeme = l
    case pos =>
      simp only [h, if_true]
      rintro _ _ ⟨⟩
      exact ⟨[t], rfl, by simp [h]⟩
    case neg =>
      simp only [h, if_false]
      rintro _ _ ⟨⟩
      exact ⟨[], rfl, rfl⟩

-- Either the lexeme comes next, or something else is read.
theorem ifSkip {l : Lexeme} {x y : Reader α} (hx : Reads x fun ls a => p (l :: ls) a)
    (hy : Reads y p) : Reads (do if ← skip? l then x else y) p := by
  refine (skip l).bind fun ls taken h => ?_
  subst h
  cases taken
  case true  => exact hx
  case false => exact hy

theorem expect (l : Lexeme) : Reads (Reader.expect l) fun ls _ => ls = [l] := by
  refine (skip l).bind fun ls taken h => ?_
  subst h
  cases taken
  case true  => exact .pure rfl
  case false => exact refuse _

theorem identifier :
    Reads Reader.identifier fun ls t => ∃ x, ls = [.identifier x] ∧ t = .name x := by
  refine get fun s => ?_
  split
  case h_1 x o s => rintro _ _ ⟨⟩; exact ⟨[⟨.identifier x, o⟩], rfl, x, rfl, rfl⟩
  case h_2       => exact refuse _ _

theorem takeIf (meaning? : Lexeme → Option α) :
    Reads (Reader.takeIf meaning?) fun ls a? => match a? with
      | some a => ∃ l, ls = [l] ∧ meaning? l = some a
      | none   => ls = [] := by
  refine get fun s => ?_
  match s with
  | []     => rintro _ _ ⟨⟩; exact ⟨[], rfl, rfl⟩
  | t :: s =>
    cases h : meaning? t.lexeme
    case none   => simp only [h]; rintro _ _ ⟨⟩; exact ⟨[], rfl, rfl⟩
    case some a => simp only [h]; rintro _ _ ⟨⟩; exact ⟨[t], rfl, t.lexeme, rfl, h⟩

-- What each step adds to, starting with what was taken before.
theorem iterate {step : α → Reader (Option α)} {ls : List Lexeme} {a : α} (h : p ls a)
    (hs : ∀ ls a, p ls a → Reads (step a) (Further [] fun ms => p (ls ++ ms))) :
    Reads (Reader.iterate step a) fun ms b => p (ls ++ ms) b := by
  refine get fun s => ?_
  generalize s.length + 1 = n
  suffices hgo : ∀ n ls a, p ls a →
      Reads (Reader.iterate.go step n a) fun ms b => p (ls ++ ms) b from hgo n ls a h s
  intro n
  induction n
  case zero => exact fun ls a h => .pure (by simpa)
  case succ n hi =>
    intro ls a h
    refine (hs ls a h).bind fun ms b? hb => ?_
    cases b?
    case none   => cases hb; exact .pure (by simpa using h)
    case some b => simpa using hi _ b hb.2

end Reads

-- Whenever the reader finds something it takes a token at least.
def Consuming (x : Reader (Option α)) : Prop :=
  ∀ s a s', x s = .ok (some a, s') → s'.length < s.length

theorem Reads.consuming {x : Reader (Option α)} {last : List Lexeme}
    {p : List Lexeme → α → Prop} (hx : Reads x (Further last p)) : Consuming x := by
  intro s a s' hs
  have ⟨taken, ht, hp⟩ := hx s _ s' hs
  have hl := List.length_pos_iff.mpr hp.1
  rw [List.length_map] at hl
  rw [ht, List.length_append]
  omega

-- The number of steps is never reached.
theorem iterate_go_eq {step : α → Reader (Option α)} (hc : ∀ a, Consuming (step a)) {n k : Nat}
    (a : α) (s : List Token) (hn : s.length < n) (hk : s.length < k) :
    iterate.go step n a s = iterate.go step k a s := by
  induction n generalizing k a s
  case zero => contradiction
  case succ n hi =>
    cases k
    case zero   => contradiction
    case succ k =>
      simp only [iterate.go, bind_apply]
      match hs : step a s with
      | .ok (some b, s') =>
        have := hc a s b s' hs
        exact hi b s' (by omega) (by omega)
      | .ok (none, _) => rfl
      | .error _      => rfl

theorem iterate_eq {step : α → Reader (Option α)} (hc : ∀ a, Consuming (step a)) (a : α)
    (s : List Token) :
    iterate step a s = match step a s with
      | .ok (some b, s') => iterate step b s'
      | .ok (none, s')   => .ok (a, s')
      | .error e         => .error e := by
  change iterate.go step (s.length + 1) a s = _
  simp only [iterate.go, bind_apply]
  match hs : step a s with
  | .ok (some b, s') => exact iterate_go_eq hc b s' (hc a s b s' hs) (Nat.lt_succ_self _)
  | .ok (none, _)    => rfl
  | .error _         => rfl

-- The number of items is never reached.
theorem many_go_eq {item? : Reader (Option α)} (hc : Consuming item?) {n k : Nat}
    (s : List Token) (hn : s.length < n) (hk : s.length < k) :
    many.go item? n s = many.go item? k s := by
  induction n generalizing k s
  case zero => contradiction
  case succ n hi =>
    cases k
    case zero   => contradiction
    case succ k =>
      simp only [many.go, bind_apply]
      match hs : item? s with
      | .ok (some a, s') =>
        have := hc s a s' hs
        have hg : many.go item? n s' = many.go item? k s' := hi s' (by omega) (by omega)
        simp only [bind_apply, hg]
      | .ok (none, _) => rfl
      | .error _      => rfl

theorem many_eq {item? : Reader (Option α)} (hc : Consuming item?) (s : List Token) :
    many item? s = match item? s with
      | .ok (some a, s') => ((a :: ·) <$> many item?) s'
      | .ok (none, s')   => .ok ([], s')
      | .error e         => .error e := by
  change many.go item? (s.length + 1) s = _
  simp only [many.go, bind_apply]
  match hs : item? s with
  | .ok (some a, s') =>
    simp only [bind_apply, map_apply, many_go_eq hc s' (hc s a s' hs) (Nat.lt_succ_self _)]
    rfl
  | .ok (none, _) => rfl
  | .error _      => rfl

namespace Reads

variable {p : List Lexeme → Tree → Prop} {item : Reader Tree}

-- One item after the other, and then what tells that there are no more.
theorem many {item? : Reader (Option Tree)} {last : List Lexeme}
    (hi : Reads item? (Further last p)) :
    Reads (Reader.many item?) fun ls ts => ∃ pieces : Pieces,
      (∀ x ∈ pieces, p x.1 x.2) ∧ ts = pieces.trees ∧ ls = pieces.lexemes ++ last := by
  intro s
  induction hn : s.length using Nat.strongRecOn generalizing s
  case ind n ih =>
    intro ts s'' h
    rw [many_eq hi.consuming] at h
    match hs : item? s with
    | .error _ => rw [hs] at h; contradiction
    | .ok (none, s') =>
      have ⟨taken, ht, hlast⟩ := hi s _ s' hs
      rw [hs] at h
      cases h
      exact ⟨taken, ht, [], by simp, rfl, hlast⟩
    | .ok (some t, s') =>
      have ⟨taken, ht, _, hp⟩ := hi s _ s' hs
      have hl := hi.consuming s t s' hs
      simp only [hs, map_apply] at h
      cases hm : Reader.many item? s' <;> rw [hm] at h <;> cases h
      have ⟨more, hm, pieces, hps, hts, hls⟩ := ih s'.length (hn ▸ hl) s' rfl _ _ hm
      refine ⟨taken ++ more, by rw [ht, hm, List.append_assoc],
        (taken.map Token.lexeme, t) :: pieces, List.forall_mem_cons.mpr ⟨hp, hps⟩, ?_, ?_⟩
      case refine_1 => simp [hts, Pieces.trees]
      case refine_2 => simp [hls, Pieces.lexemes]

theorem itemAfter (hi : Reads item p) (mark : Lexeme) :
    Reads (do if ← skip? mark then some <$> item else return none)
      (Further [] fun ls t => ls = mark :: ls.tail ∧ p ls.tail t) :=
  .ifSkip (.map (hi.mono fun _ _ h => ⟨by simp, rfl, h⟩)) (.pure rfl)

theorem itemBefore (hi : Reads item p) (hp : ∀ ls t, p ls t → ls ≠ []) (mark : Lexeme) :
    Reads (do if ← skip? mark then return none else some <$> item) (Further [mark] p) :=
  .ifSkip (.pure rfl) (.map (hi.mono fun ls t h => ⟨hp ls t h, h⟩))

-- The lexemes of the items are those after the marks.
theorem exists_markedBy {pieces : Pieces} {mark : Lexeme}
    (h : ∀ x ∈ pieces, x.1 = mark :: x.1.tail ∧ p x.1.tail x.2) : ∃ items : Pieces,
      (∀ x ∈ items, p x.1 x.2) ∧ pieces.trees = items.trees ∧
        pieces.lexemes = items.markedBy mark := by
  refine ⟨pieces.map fun x => (x.1.tail, x.2), ?_, by simp [Pieces.trees], ?_⟩
  case refine_1 =>
    intro y hy
    have ⟨x, hx, he⟩ := List.mem_map.mp hy
    exact he ▸ (h x hx).2
  case refine_2 =>
    rw [Pieces.markedBy, List.flatMap_map]
    exact congrArg List.flatten (List.map_congr_left fun x hx => (h x hx).1)

theorem manyAfter (hi : Reads item p) (mark : Lexeme) :
    Reads (Reader.manyAfter mark item) fun ls ts => ∃ pieces : Pieces,
      (∀ x ∈ pieces, p x.1 x.2) ∧ ts = pieces.trees ∧ ls = pieces.markedBy mark := by
  refine (many (itemAfter hi mark)).mono fun ls ts ⟨pieces, hp, hts, hls⟩ => ?_
  have ⟨items, hi, ht, hl⟩ := exists_markedBy hp
  exact ⟨items, hi, hts.trans ht, by rw [hls, List.append_nil, hl]⟩

theorem manyUntil (hi : Reads item p) (hp : ∀ ls t, p ls t → ls ≠ []) (mark : Lexeme) :
    Reads (Reader.manyUntil mark item) fun ls ts => ∃ pieces : Pieces,
      (∀ x ∈ pieces, p x.1 x.2) ∧ ts = pieces.trees ∧ ls = pieces.lexemes ++ [mark] :=
  many (itemBefore hi hp mark)

end Reads

end Reader

end RpalMachine
