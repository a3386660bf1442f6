import RpalMachine.Proofs.Phrases
import RpalMachine.Proofs.Spelling

namespace RpalMachine

-- Programs can have the lexeme.
structure Lexeme.Legible (l : Lexeme) : Prop where
  spelled : l.Spelled
  inRange : l.InRange

namespace Reader

-- There is a way to go on after the given lexemes.
def Completes (p : List Lexeme → α → Prop) (ls : List Lexeme) : Prop :=
  ∃ ms a, (∀ l ∈ ms, l.Legible) ∧ p (ls ++ ms) a

-- What is read, and that whatever was taken when a lexeme is refused is the beginning of it.
structure Viable (x : Reader α) (p : List Lexeme → α → Prop) : Prop where
  reads    : Reads x p
  possible : Completes p []
  refused {s : List Token} {wanted : Wanted} {rest : List Token} :
    x s = .error (.unexpected wanted rest) →
      ∃ taken, s = taken ++ rest ∧ Completes p (taken.map Token.lexeme)

variable {p q : List Lexeme → α → Prop} {r : List Lexeme → β → Prop} {ls : List Lexeme}

namespace Completes

theorem of_nil {a : α} (h : p ls a) : Completes p ls :=
  ⟨[], a, nofun, by rwa [List.append_nil]⟩

theorem of_singleton {l : Lexeme} {a : α} (hl : l.Legible) (h : p [l] a) : Completes p [] :=
  ⟨[l], a, List.forall_mem_singleton.mpr hl, h⟩

-- The way to go on leads further.
theorem trans (h : Completes p ls)
    (hp : ∀ ls a, p ls a → Completes (fun ms b => r (ls ++ ms) b) []) : Completes r ls := by
  obtain ⟨ms, a, hms, ha⟩ := h
  obtain ⟨ns, b, hns, hb⟩ := hp _ a ha
  exact ⟨ms ++ ns, b, List.forall_mem_append.mpr ⟨hms, hns⟩, by simpa using hb⟩

theorem mono (h : Completes p ls) (hp : ∀ ls a, p ls a → q ls a) : Completes q ls :=
  h.trans fun ls _ ha => .of_nil (by simpa using hp ls _ ha)

end Completes

namespace Viable

-- A reader that never refuses a lexeme.
theorem of_never {x : Reader α} (hr : Reads x p) (hp : Completes p [])
    (hx : ∀ s wanted rest, x s ≠ .error (.unexpected wanted rest)) : Viable x p :=
  ⟨hr, hp, fun h => absurd h (hx _ _ _)⟩

theorem pure {a : α} (h : p [] a) : Viable (Pure.pure a) p :=
  of_never (.pure h) (.of_nil h) fun _ _ _ => nofun

theorem refuse {wanted : Wanted} (h : Completes p []) : Viable (Reader.refuse wanted) p := by
  refine ⟨.refuse wanted, h, fun {s w rest} hx => ?_⟩
  cases (hx : (Except.error (Refusal.unexpected wanted s) : Except Refusal (α × List Token)) = _)
  exact ⟨[], rfl, h⟩

theorem mono {x : Reader α} (hx : Viable x p) (h : ∀ ls a, p ls a → q ls a) : Viable x q where
  reads    := hx.reads.mono h
  possible := hx.possible.mono h
  refused hs :=
    have ⟨taken, ht, hc⟩ := hx.refused hs
    ⟨taken, ht, hc.mono h⟩

theorem bind {x : Reader α} {f : α → Reader β} (hx : Viable x p)
    (hf : ∀ ls a, p ls a → Viable (f a) fun ms b => r (ls ++ ms) b) : Viable (x >>= f) r where
  reads    := hx.reads.bind fun ls a ha => (hf ls a ha).reads
  possible := hx.possible.trans fun ls a ha => (hf ls a ha).possible
  refused {s wanted rest} h := by
    rw [bind_apply] at h
    match hs : x s with
    | .error e =>
      rw [hs] at h
      cases h
      have ⟨taken, ht, hc⟩ := hx.refused hs
      exact ⟨taken, ht, hc.trans fun ls a ha => (hf ls a ha).possible⟩
    | .ok (a, s₁) =>
      rw [hs] at h
      have ⟨t₁, h₁, ha⟩ := hx.reads s a s₁ hs
      have ⟨t₂, h₂, ms, b, hms, hb⟩ := (hf _ a ha).refused h
      refine ⟨t₁ ++ t₂, by rw [h₁, h₂, List.append_assoc], ms, b, hms, ?_⟩
      simpa using hb

theorem map {x : Reader α} {f : α → β} (hx : Viable x fun ls a => r ls (f a)) :
    Viable (f <$> x) r := by
  rw [map_eq_pure_bind]
  exact hx.bind fun ls a h => pure (by simpa using h)

theorem skip (l : Lexeme) : Viable (skip? l) fun ls taken => ls = if taken then [l] else [] := by
  refine of_never (.skip l) (.of_nil (a := false) rfl) fun s _ _ => ?_
  match s with
  | []     => exact nofun
  | t :: s => by_cases h : t.lexeme = l <;> simp [skip?, h]

theorem ifSkip {l : Lexeme} {x y : Reader α} (hx : Viable x fun ls a => p (l :: ls) a)
    (hy : Viable y p) : Viable (do if ← skip? l then x else y) p := by
  refine (skip l).bind fun ls taken h => ?_
  subst h
  cases taken
  case true  => exact hx
  case false => exact hy

theorem expect {l : Lexeme} (hl : l.Legible) : Viable (Reader.expect l) fun ls _ => ls = [l] := by
  refine (skip l).bind fun ls taken h => ?_
  subst h
  cases taken
  case true  => exact pure rfl
  case false => exact refuse (.of_singleton (a := ⟨⟩) hl rfl)

theorem takeIf (meaning? : Lexeme → Option α) :
    Viable (Reader.takeIf meaning?) fun ls a? => match a? with
      | some a => ∃ l, ls = [l] ∧ meaning? l = some a
      | none   => ls = [] := by
  refine of_never (.takeIf meaning?) (.of_nil (a := none) rfl) fun s _ _ => ?_
  match s with
  | []     => exact nofun
  | t :: s => cases h : meaning? t.lexeme <;> simp [Reader.takeIf, h]

-- What is repeated can stop after any step.
theorem iterate {step : α → Reader (Option α)} {ls : List Lexeme} {a : α} (h : p ls a)
    (hs : ∀ ls a, p ls a → Viable (step a) (Further [] fun ms => p (ls ++ ms))) :
    Viable (Reader.iterate step a) fun ms b => p (ls ++ ms) b := by
  have hgo : ∀ n ls a, p ls a →
      Viable (Reader.iterate.go step n a) fun ms b => p (ls ++ ms) b := by
    intro n
    induction n
    case zero => exact fun ls a h => pure (by simpa)
    case succ n hi =>
      intro ls a h
      refine (hs ls a h).bind fun ms b? hb => ?_
      cases b?
      case none   => cases hb; exact pure (by simpa using h)
      case some b => simpa using hi _ b hb.2
  refine ⟨.iterate h fun ls a ha => (hs ls a ha).reads, (hgo 0 ls a h).possible, ?_⟩
  exact fun {s _ _} hx => (hgo (s.length + 1) ls a h).refused hx

section
variable {p : List Lexeme → Tree → Prop} {item : Reader Tree}

-- An item that has begun can be completed, and then what tells that there are no more.
theorem many {item? : Reader (Option Tree)} {last : List Lexeme}
    (hi : Viable item? (Further last p)) (hl : ∀ l ∈ last, l.Legible) :
    Viable (Reader.many item?) fun ls ts => ∃ pieces : Pieces,
      (∀ x ∈ pieces, p x.1 x.2) ∧ ts = pieces.trees ∧ ls = pieces.lexemes ++ last := by
  refine ⟨.many hi.reads, ⟨last, [], hl, [], nofun, rfl, rfl⟩, fun {s w rest} h => ?_⟩
  induction hn : s.length using Nat.strongRecOn generalizing s
  case ind n ih =>
    rw [many_eq hi.reads.consuming] at h
    rcases hs : item? s with e | ⟨_ | t, s'⟩
    case ok.none => rw [hs] at h; contradiction
    case error =>
      rw [hs] at h
      cases h
      obtain ⟨taken, ht, ms, t?, hms, hp⟩ := hi.refused hs
      refine ⟨taken, ht, ?_⟩
      cases t?
      case none   => exact ⟨ms, [], hms, [], nofun, rfl, hp⟩
      case some t =>
        refine ⟨ms ++ last, [t], List.forall_mem_append.mpr ⟨hms, hl⟩,
          [(taken.map Token.lexeme ++ ms, t)], by simpa using hp.2, rfl, ?_⟩
        simp [Pieces.lexemes]
    case ok.some =>
      obtain ⟨t₁, h₁, _, hp⟩ := hi.reads s _ s' hs
      have hlt := hi.reads.consuming s t s' hs
      simp only [hs, map_apply] at h
      cases hm : Reader.many item? s' <;> rw [hm] at h
      case ok    => contradiction
      case error =>
        cases h
        obtain ⟨t₂, h₂, ms, ts, hms, pieces, hps, hts, hls⟩ := ih s'.length (hn ▸ hlt) hm rfl
        refine ⟨t₁ ++ t₂, by rw [h₁, h₂, List.append_assoc], ms, t :: ts, hms,
          (t₁.map Token.lexeme, t) :: pieces, List.forall_mem_cons.mpr ⟨hp, hps⟩, ?_, ?_⟩
        case refine_1 => simp [hts, Pieces.trees]
        case refine_2 => simpa [Pieces.lexemes] using hls

variable (hi : Viable item p)
include hi

theorem manyAfter (mark : Lexeme) :
    Viable (Reader.manyAfter mark item) fun ls ts => ∃ pieces : Pieces,
      (∀ x ∈ pieces, p x.1 x.2) ∧ ts = pieces.trees ∧ ls = pieces.markedBy mark := by
  have hitem : Viable (do if ← skip? mark then some <$> item else return none)
      (Further [] fun ls t => ls = mark :: ls.tail ∧ p ls.tail t) :=
    .ifSkip (.map (hi.mono fun _ _ h => ⟨by simp, rfl, h⟩)) (.pure rfl)
  refine (hitem.many (List.forall_mem_nil _)).mono fun ls ts ⟨pieces, hp, hts, hls⟩ => ?_
  have ⟨items, hi, ht, hl⟩ := Reads.exists_markedBy hp
  exact ⟨items, hi, hts.trans ht, by rw [hls, List.append_nil, hl]⟩

theorem manyUntil (hp : ∀ ls t, p ls t → ls ≠ []) {mark : Lexeme} (hm : mark.Legible) :
    Viable (Reader.manyUntil mark item) fun ls ts => ∃ pieces : Pieces,
      (∀ x ∈ pieces, p x.1 x.2) ∧ ts = pieces.trees ∧ ls = pieces.lexemes ++ [mark] := by
  refine many (.ifSkip (.pure rfl) ?_) (List.forall_mem_singleton.mpr hm)
  exact .map (hi.mono fun ls t h => ⟨hp ls t h, h⟩)

end

end Viable

end Reader

end RpalMachine
