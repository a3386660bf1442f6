import RpalMachine.Proofs.Spelling

namespace RpalMachine

namespace Scan

-- The line is over: a line feed comes, perhaps after a carriage return, or the text ends.
inductive LineEnd : List Char → Prop
  | text : LineEnd []
  | feed (rest : List Char) : LineEnd ('\n' :: rest)
  | returned (rest : List Char) : LineEnd ('\r' :: '\n' :: rest)

-- Blanks and comments in front of the rest of a text.
inductive Layout (rest : List Char) : List Char → Prop
  | nil : Layout rest []
  | blank {c : Char} {gap : List Char} : isBlank c → Layout rest gap → Layout rest (c :: gap)
  | comment {body gap : List Char} :
    (∀ c ∈ body, isLineEnd c = false) → LineEnd (gap ++ rest) → Layout rest gap →
      Layout rest ('/' :: '/' :: (body ++ gap))

-- The text at a byte offset is cut into the tokens, each after a gap. The last gap ends the text.
inductive Cut : Nat → List Char → List Token → Prop
  | last {offset : Nat} {gap : List Char} : Layout [] gap → Cut offset gap []
  | token {offset : Nat} {gap rest : List Char} {l : Lexeme} {ts : List Token} :
    Layout (l.spelling ++ rest) gap → l.Spelled → l.Precedes rest →
      opensComment (l.spelling ++ rest) = false →
        Cut (offset + size gap + size l.spelling) rest ts →
          Cut offset (gap ++ (l.spelling ++ rest)) (⟨l, offset + size gap⟩ :: ts)

variable {offset : Nat} {c : Char} {cs text gap rest body : List Char} {l : Lexeme}

@[simp]
theorem size_nil : size [] = 0 :=
  rfl

@[simp]
theorem size_cons (c : Char) (cs : List Char) : size (c :: cs) = c.utf8Size + size cs :=
  rfl

@[simp]
theorem size_append (cs ds : List Char) : size (cs ++ ds) = size cs + size ds := by
  induction cs
  case nil => simp
  case cons hi => simp [hi, Nat.add_assoc]

theorem size_pos (h : 0 < cs.length) : 0 < size cs := by
  cases cs
  case nil       => contradiction
  case cons c cs => exact Nat.add_pos_left c.utf8Size_pos _

theorem isBlank_of_isLineEnd (h : isLineEnd c) : isBlank c := by
  simp only [isLineEnd, Bool.or_eq_true, beq_iff_eq] at h
  rcases h with rfl | rfl <;> rfl

theorem LineEnd.isLineEnd (h : LineEnd cs) : ∀ c ∈ cs.head?, isLineEnd c := by
  cases h <;> rintro _ ⟨⟩ <;> rfl

theorem LineEnd.line {more : List Char} (h : LineEnd cs) : LineEnd (cs ++ '\n' :: more) := by
  cases h
  case text     => exact .feed more
  case feed     => exact .feed _
  case returned => exact .returned _

theorem lineEnds_cons_of_not (h : isLineEnd c = false) : lineEnds (c :: cs) = lineEnds cs := by
  simp only [isLineEnd, Bool.or_eq_false_iff, beq_eq_false_iff_ne] at h
  simp [lineEnds, h]

theorem lineEnds_of_lineEnd (h : LineEnd cs) : lineEnds cs := by
  cases h <;> rfl

theorem lineEnd_of_lineEnds (hc : isLineEnd c) (h : lineEnds (c :: cs)) : LineEnd (c :: cs) := by
  simp only [isLineEnd, Bool.or_eq_true, beq_iff_eq] at hc
  rcases hc with rfl | rfl
  case inl =>
    cases cs
    case nil       => contradiction
    case cons d cs =>
      have hd : d = '\n' := by simpa [lineEnds] using h
      exact hd ▸ .returned cs
  case inr => exact .feed cs

theorem lineEnds_append (hb : ∀ c ∈ body, isLineEnd c = false) (h : LineEnd rest) :
    lineEnds (body ++ rest) := by
  induction body
  case nil => exact lineEnds_of_lineEnd h
  case cons hi =>
    rw [List.forall_mem_cons] at hb
    rw [List.cons_append, lineEnds_cons_of_not hb.1]
    exact hi hb.2

-- A comment is over with its line.
theorem skipLayout_comment (hb : ∀ c ∈ body, isLineEnd c = false)
    (hr : ∀ c ∈ rest.head?, isLineEnd c) :
    skipLayout true offset (body ++ rest) = skipLayout false (offset + size body) rest := by
  induction body generalizing offset
  case nil =>
    cases rest
    case nil  => rfl
    case cons c rest =>
      have hc := hr c rfl
      simp [skipLayout, hc, isBlank_of_isLineEnd hc]
  case cons c body hi =>
    rw [List.forall_mem_cons] at hb
    simp [skipLayout, hb.1, hi hb.2, Nat.add_assoc]

theorem Layout.append {gap' : List Char} (h : Layout (gap' ++ rest) gap) (h' : Layout rest gap') :
    Layout rest (gap ++ gap') := by
  induction h
  case nil              => exact h'
  case blank hc _ hi    => exact .blank hc hi
  case comment hb he _ hi =>
    simp only [List.cons_append, List.append_assoc]
    exact .comment hb (by simpa using he) hi

-- The last line can be followed by others.
theorem Layout.line (h : Layout rest gap) (more : List Char) :
    Layout (rest ++ '\n' :: more) gap := by
  induction h
  case nil              => exact .nil
  case blank hc _ hi    => exact .blank hc hi
  case comment hb he _ hi => exact .comment hb (List.append_assoc .. ▸ he.line) hi

theorem Layout.skipLayout (h : Layout rest gap) :
    skipLayout false offset (gap ++ rest) = skipLayout false (offset + size gap) rest := by
  induction h generalizing offset
  case nil => rfl
  case blank hc _ hi => simp [Scan.skipLayout, hc, hi, Nat.add_assoc]
  case comment body gap hb he _ hi =>
    have ho : opensComment ('/' :: '/' :: (body ++ (gap ++ rest))) := by
      simpa [opensComment] using lineEnds_append hb he
    have hb' : ∀ c ∈ '/' :: body, isLineEnd c = false :=
      List.forall_mem_cons.mpr ⟨by decide, hb⟩
    calc Scan.skipLayout false offset ('/' :: '/' :: (body ++ gap) ++ rest)
      _ = Scan.skipLayout true (offset + '/'.utf8Size) ('/' :: body ++ (gap ++ rest)) := by
        simp [Scan.skipLayout, ho, isBlank]
      _ = Scan.skipLayout false (offset + '/'.utf8Size + size ('/' :: body)) (gap ++ rest) :=
        skipLayout_comment hb' he.isLineEnd
      _ = Scan.skipLayout false (offset + size ('/' :: '/' :: (body ++ gap))) rest := by
        rw [hi]
        simp [Nat.add_assoc]

-- Neither a blank nor a comment comes next.
def Bare (text : List Char) : Prop :=
  (∀ c ∈ text.head?, isBlank c = false) ∧ opensComment text = false

theorem Bare.skipLayout (h : Bare text) : skipLayout false offset text = (offset, text) := by
  cases text
  case nil       => rfl
  case cons c cs => simp [Scan.skipLayout, h.1 c rfl, h.2]

-- What is dropped is layout, in a comment after what is left of the line.
theorem layout_of_skipLayout {start : Nat} :
    (skipLayout false offset text = (start, rest) → ∃ gap, text = gap ++ rest ∧
      start = offset + size gap ∧ Layout rest gap ∧ Bare rest) ∧
    (lineEnds text → skipLayout true offset text = (start, rest) →
      ∃ body gap, text = body ++ (gap ++ rest) ∧ start = offset + size body + size gap ∧
        (∀ c ∈ body, isLineEnd c = false) ∧ LineEnd (gap ++ rest) ∧ Layout rest gap ∧
        Bare rest) := by
  induction text generalizing offset
  case nil =>
    have hn : Bare [] := ⟨nofun, rfl⟩
    constructor
    case left  => rintro ⟨⟩; exact ⟨[], rfl, rfl, .nil, hn⟩
    case right => rintro - ⟨⟩; exact ⟨[], [], rfl, rfl, nofun, .text, .nil, hn⟩
  case cons c cs hi =>
    constructor
    case left =>
      intro h
      simp only [skipLayout, Bool.false_eq_true, if_false] at h
      split at h
      case isTrue hc =>
        obtain ⟨gap, rfl, rfl, hg, hb⟩ := hi.1 h
        exact ⟨c :: gap, rfl, by simp [Nat.add_assoc], .blank hc hg, hb⟩
      case isFalse hc =>
        split at h
        case isFalse ho =>
          cases h
          refine ⟨[], rfl, rfl, .nil, ?_, by simpa using ho⟩
          rintro _ ⟨⟩
          simpa using hc
        case isTrue ho =>
          obtain ⟨cs, he, hl⟩ := eq_of_opensComment ho
          cases he
          have hl : lineEnds ('/' :: cs) := by rwa [lineEnds_cons_of_not (by decide)]
          obtain ⟨body, gap, he, rfl, hb, hend, hg, hr⟩ := hi.2 hl h
          cases body
          case nil =>
            rw [List.nil_append] at he
            rw [← he] at hend
            contradiction
          case cons =>
            cases he
            rw [List.forall_mem_cons] at hb
            exact ⟨_, by simp, by simp [Nat.add_assoc], .comment hb.2 hend hg, hr⟩
    case right =>
      intro hl h
      simp only [skipLayout, if_true] at h
      cases hc : isLineEnd c <;> rw [hc] at h
      case true =>
        obtain ⟨gap, rfl, rfl, hg, hb⟩ := hi.1 h
        exact ⟨[], c :: gap, rfl, by simp [Nat.add_assoc], nofun, lineEnd_of_lineEnds hc hl,
          .blank (isBlank_of_isLineEnd hc) hg, hb⟩
      case false =>
        rw [lineEnds_cons_of_not hc] at hl
        obtain ⟨body, gap, rfl, rfl, hb, he, hg, hr⟩ := hi.2 hl h
        exact ⟨c :: body, gap, rfl, by simp [Nat.add_assoc], List.forall_mem_cons.mpr ⟨hc, hb⟩,
          he, hg, hr⟩

-- A string has its closing quote at the end.
theorem stringBody_eq_some (h : stringBody cs = some (body, rest)) :
    cs = body ++ '\x27' :: rest ∧ stringBody (body ++ ['\x27']) = some (body, []) := by
  induction cs using stringBody.induct generalizing body
  case case1 => contradiction
  case case2 c cs hi =>
    simp only [stringBody, Option.map_eq_some_iff, Prod.mk.injEq] at h
    obtain ⟨⟨b, r⟩, hb, rfl, rfl⟩ := h
    obtain ⟨rfl, hs⟩ := hi hb
    exact ⟨rfl, by simp [stringBody, hs]⟩
  case case3 c cs _ hq =>
    have hc : c ≠ '\\' := fun h => by subst h; contradiction
    rw [stringBody_cons hc, if_pos hq] at h
    cases h
    have hq : c = '\x27' := by simpa [isQuote] using hq
    exact ⟨by rw [hq]; rfl, rfl⟩
  case case4 c cs hne hq hi =>
    have hc : c ≠ '\\' := fun h' => by
      subst h'
      cases cs
      case nil  => contradiction
      case cons => exact hne _ _ rfl rfl
    rw [stringBody_cons hc, if_neg hq, Option.map_eq_some_iff] at h
    obtain ⟨⟨b, r⟩, hb, he⟩ := h
    cases he
    obtain ⟨rfl, hs⟩ := hi hb
    exact ⟨rfl, by rw [List.cons_append, stringBody_cons hc, if_neg hq, hs]; rfl⟩

theorem mem_takeWhile {p : Char → Bool} (h : c ∈ cs.takeWhile p) : p c :=
  List.all_eq_true.mp List.all_takeWhile c h

theorem not_of_dropWhile {p : Char → Bool} : ∀ c ∈ (cs.dropWhile p).head?, p c = false := by
  intro c hc
  have h := List.head?_dropWhile_not p cs
  rw [hc] at h
  simpa using h

-- The lexeme is what was cut off, and goes on no further.
theorem lexeme_sound (h : lexeme c cs = .ok (l, rest)) :
    c :: cs = l.spelling ++ rest ∧ l.Spelled ∧ l.Precedes rest := by
  simp only [lexeme] at h
  split at h
  case isTrue hc =>
    cases h
    refine ⟨?_, .word hc fun d => mem_takeWhile, fun d hd => ?_⟩
    case refine_1 => simp [Lexeme.spelling_ofWord]
    case refine_2 => rw [Lexeme.goesOn_ofWord]; exact not_of_dropWhile d hd
  case isFalse =>
    split at h
    case isTrue hc =>
      cases h
      refine ⟨?_, .integer hc fun d => mem_takeWhile, fun d hd => not_of_dropWhile d hd⟩
      simp [Lexeme.spelling, Lexeme.text]
    case isFalse =>
      split at h
      case isTrue hq =>
        split at h <;> cases h
        case h_1 body hb =>
          have hq : c = '\x27' := by simpa [isQuote] using hq
          obtain ⟨rfl, hs⟩ := stringBody_eq_some hb
          exact ⟨by simp [Lexeme.spelling, hq], .string hs, fun _ _ => rfl⟩
      case isFalse =>
        split at h
        case isTrue hc =>
          cases h
          refine ⟨?_, .operator hc fun d => mem_takeWhile, fun d hd => not_of_dropWhile d hd⟩
          simp [Lexeme.spelling, Lexeme.text]
        case isFalse =>
          split at h <;> cases h
          case isTrue hc =>
            exact ⟨by simp [Lexeme.spelling, Lexeme.text], .punctuation hc, fun _ _ => rfl⟩

theorem Bare.nil : Bare [] :=
  ⟨nofun, rfl⟩

namespace Cut

variable {ts : List Token}

theorem tokens_go (h : Cut offset text ts) :
    ∀ n, text.length ≤ n → tokens.go n offset text = .ok ts := by
  induction h
  case last offset gap hg =>
    intro n _
    have hk : skipLayout false offset (gap ++ []) = (offset + size gap, []) :=
      hg.skipLayout.trans Bare.nil.skipLayout
    rw [List.append_nil] at hk
    cases n
    case zero   => rfl
    case succ n => simp only [tokens.go, hk]
  case token offset gap rest l ts hg hl hr ho _ hi =>
    have ⟨c, cs, he, hb, hx⟩ := lexeme_of_spelled hl hr
    intro n hn
    have hlen := hl.length_pos
    rw [List.length_append, List.length_append] at hn
    cases n
    case zero   => omega
    case succ n =>
      rw [he] at ho hg ⊢
      have hc : Bare (c :: cs) := ⟨by rintro _ ⟨⟩; exact hb, ho⟩
      have hk : skipLayout false offset (gap ++ c :: cs) = (offset + size gap, c :: cs) :=
        hg.skipLayout.trans hc.skipLayout
      simp only [tokens.go, hk, hx, hi n (by omega)]
      rfl

theorem of_tokens_go {n : Nat} (hn : text.length ≤ n) (h : tokens.go n offset text = .ok ts) :
    Cut offset text ts := by
  induction n generalizing offset text ts
  case zero =>
    cases List.length_eq_zero_iff.mp (Nat.le_zero.mp hn)
    cases h
    exact .last .nil
  case succ n hi =>
    rw [tokens.go] at h
    match hk : skipLayout false offset text with
    | (_, []) =>
      rw [hk] at h
      cases h
      obtain ⟨gap, rfl, rfl, hg, _⟩ := layout_of_skipLayout.1 hk
      rw [List.append_nil]
      exact .last hg
    | (start, c :: cs) =>
      rw [hk] at h
      obtain ⟨gap, rfl, rfl, hg, hb⟩ := layout_of_skipLayout.1 hk
      cases hx : lexeme c cs <;> simp only [hx] at h
      case error => contradiction
      case ok a =>
        have ⟨l, rest⟩ := a
        obtain ⟨he, hl, hr⟩ := lexeme_sound hx
        have hlen := hl.length_pos
        cases hts : tokens.go n (offset + size gap + size l.spelling) rest <;>
          rw [hts] at h <;> cases h
        rw [he] at hg hb hn ⊢
        rw [List.length_append, List.length_append] at hn
        exact .token hg hl hr hb.2 (hi (by omega) hts)

end Cut

theorem tokens_eq_ok_iff {ts : List Token} : tokens offset text = .ok ts ↔ Cut offset text ts :=
  ⟨Cut.of_tokens_go (Nat.le_refl _), fun h => h.tokens_go _ (Nat.le_refl _)⟩

theorem Cut.behind {ts : List Token} (hg : Layout text gap) (h : Cut (offset + size gap) text ts) :
    Cut offset (gap ++ text) ts := by
  cases h
  case last hg' => exact .last (.append (by simpa using hg) hg')
  case token gap' rest l ts hg' hl hr ho h =>
    rw [Nat.add_assoc offset, ← size_append] at h ⊢
    rw [← List.append_assoc]
    exact .token (.append hg hg') hl hr ho h

-- The lexemes of the text, wherever it is.
def Lexes (text : List Char) (ls : List Lexeme) : Prop :=
  ∀ offset, ∃ ts, Cut offset text ts ∧ ts.map Token.lexeme = ls

namespace Lexes

variable {ls ms : List Lexeme} {ts : List Token}

theorem last (hg : Layout [] gap) : Lexes gap [] :=
  fun _ => ⟨[], .last hg, rfl⟩

theorem lexeme (hg : Layout (l.spelling ++ rest) gap) (hl : l.Spelled) (hr : l.Precedes rest)
    (ho : opensComment (l.spelling ++ rest) = false) (h : Lexes rest ls) :
    Lexes (gap ++ (l.spelling ++ rest)) (l :: ls) := fun offset =>
  have ⟨ts, hc, hm⟩ := h (offset + size gap + size l.spelling)
  ⟨⟨l, offset + size gap⟩ :: ts, .token hg hl hr ho hc, congrArg (l :: ·) hm⟩

theorem punctuation (hc : isPunctuation c) (h : Lexes text ls) :
    Lexes (c :: text) (.punctuation (String.ofList [c]) :: ls) := by
  have hl := Lexeme.Spelled.punctuation hc
  have hx := lexeme .nil hl (fun _ _ => rfl) (opensComment_of_spelled hl (fun _ _ => rfl) rfl) h
  simpa [Lexeme.spelling, Lexeme.text] using hx

theorem behind (hg : Layout text gap) (h : Lexes text ls) : Lexes (gap ++ text) ls := fun offset =>
  have ⟨ts, hc, hm⟩ := h (offset + size gap)
  ⟨ts, hc.behind hg, hm⟩

theorem of_scans (h : Scans text ls) : Lexes text ls := by
  induction h
  case nil                    => exact .last .nil
  case blank hc _ hi          => exact .behind (.blank hc .nil) hi
  case lexeme l _ _ hl hr ho _ hi => exact .lexeme .nil hl hr ho hi

-- What comes in the next line adds its lexemes.
theorem line (h : Cut offset text ts) (hn : ∀ l ∈ ts.map Token.lexeme, l.slashed = false)
    (hr : Lexes rest ms) : Lexes (text ++ '\n' :: rest) (ts.map Token.lexeme ++ ms) := by
  have hr : Lexes ('\n' :: rest) ms := .behind (.blank rfl .nil) hr
  induction h
  case last hg => exact .behind (by simpa using hg.line rest) hr
  case token l _ hg hl hp _ _ hi =>
    rw [List.map_cons, List.forall_mem_cons] at hn
    have hp : l.Precedes (_ ++ '\n' :: rest) := hp.line
    have ho := opensComment_of_spelled hl hp hn.1
    rw [List.append_assoc, List.append_assoc]
    exact .lexeme (by simpa using hg.line rest) hl hp ho (hi hn.2)

end Lexes

end Scan

theorem tokenize_eq_ok_iff {source : String} {ts : List Token} :
    tokenize source = .ok ts ↔ Scan.Cut 0 source.toList ts := by
  rw [← Scan.tokens_eq_ok_iff, tokenize]
  cases Scan.tokens 0 source.toList <;> simp [Except.mapError]

theorem tokenize_of_lexes {source : String} {ls : List Lexeme} (h : Scan.Lexes source.toList ls) :
    ∃ tokens, tokenize source = .ok tokens ∧ tokens.map Token.lexeme = ls :=
  have ⟨ts, ht, hl⟩ := h 0
  ⟨ts, tokenize_eq_ok_iff.mpr ht, hl⟩

end RpalMachine
