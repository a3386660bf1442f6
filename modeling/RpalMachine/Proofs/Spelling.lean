import Mathlib.Tactic.CasesM
import RpalMachine.Source.Program

namespace RpalMachine

theorem Scan.isPunctuation_iff {c : Char} :
    isPunctuation c ↔ c = '(' ∨ c = ')' ∨ c = ',' ∨ c = ';' := by
  simp [isPunctuation]

theorem Scan.isBlank_iff {c : Char} :
    isBlank c ↔ c = ' ' ∨ c = '\t' ∨ c = '\r' ∨ c = '\n' := by
  simp [isBlank, or_assoc]

namespace Lexeme

open Scan

-- Whether the lexeme would be longer if the character came next.
def goesOn : Lexeme → Char → Bool
  | identifier _, c | keyword _, c => isWordChar c
  | integer _, c                   => c.isDigit
  | operator _, c                  => isOperatorChar c
  | string _, _ | punctuation _, _ => false

-- An operator that starts as a comment does.
def slashed : Lexeme → Bool
  | operator mark => ['/', '/'].isPrefixOf mark.toList
  | _             => false

-- The lexeme is spelled as those of its kind are.
inductive Spelled : Lexeme → Prop
  | word {c : Char} {cs : List Char} :
    c.isAlpha → (∀ d ∈ cs, isWordChar d) → Spelled (.ofWord (String.ofList (c :: cs)))
  | integer {c : Char} {cs : List Char} :
    c.isDigit → (∀ d ∈ cs, d.isDigit) → Spelled (.integer (String.ofList (c :: cs)))
  | string {body : List Char} :
    stringBody (body ++ ['\x27']) = some (body, []) → Spelled (.string (String.ofList body))
  | operator {c : Char} {cs : List Char} :
    isOperatorChar c → (∀ d ∈ cs, isOperatorChar d) →
      Spelled (.operator (String.ofList (c :: cs)))
  | punctuation {c : Char} : isPunctuation c → Spelled (.punctuation (String.ofList [c]))

theorem spelling_ofWord (w : String) : (ofWord w).spelling = w.toList := by
  rw [ofWord]
  split <;> rfl

theorem goesOn_ofWord (w : String) (c : Char) : (ofWord w).goesOn c = isWordChar c := by
  rw [ofWord]
  split <;> rfl

theorem goesOn_of_not (l : Lexeme) {c : Char}
    (h : isWordChar c = false ∧ c.isDigit = false ∧ isOperatorChar c = false) :
    l.goesOn c = false := by
  cases l <;> simp [goesOn, h]

-- A mark goes on with nothing.
theorem goesOn_of_isPunctuation (l : Lexeme) {c : Char} (h : isPunctuation c) :
    l.goesOn c = false :=
  l.goesOn_of_not (by rcases isPunctuation_iff.mp h with rfl | rfl | rfl | rfl <;> decide)

-- Nor does a blank.
theorem goesOn_of_isBlank (l : Lexeme) {c : Char} (h : Scan.isBlank c) : l.goesOn c = false :=
  l.goesOn_of_not (by rcases isBlank_iff.mp h with rfl | rfl | rfl | rfl <;> decide)

theorem Spelled.length_pos {l : Lexeme} (h : l.Spelled) : 0 < l.spelling.length := by
  cases h
  case word => simp [spelling_ofWord]
  all_goals simp [spelling, text]

-- The lexeme can come before the text, and is cut off there.
def Precedes (l : Lexeme) (rest : List Char) : Prop :=
  ∀ c ∈ rest.head?, l.goesOn c = false

theorem Precedes.line {l : Lexeme} {rest more : List Char} (h : l.Precedes rest) :
    l.Precedes (rest ++ '\n' :: more) := by
  cases rest
  case nil =>
    rintro _ ⟨⟩
    exact l.goesOn_of_isBlank rfl
  case cons => exact h

end Lexeme

namespace Scan

variable {c : Char} {cs rest : List Char} {p : Char → Bool} {l : Lexeme} {body : List Char}

section
variable (hp : ∀ d ∈ cs, p d) (hr : ∀ d ∈ rest.head?, p d = false)
include hp hr

theorem takeWhile_append_eq : (cs ++ rest).takeWhile p = cs := by
  rw [List.takeWhile_append_of_pos hp]
  cases rest
  case nil  => simp
  case cons => simp [hr _ rfl]

theorem dropWhile_append_eq : (cs ++ rest).dropWhile p = rest := by
  rw [List.dropWhile_append_of_pos hp]
  cases rest
  case nil  => rfl
  case cons => simp [hr _ rfl]

end

theorem stringBody_cons (hc : c ≠ '\\') (cs : List Char) : stringBody (c :: cs) =
    if isQuote c then some ([], cs)
    else (stringBody cs).map fun (body, rest) => (c :: body, rest) :=
  stringBody.eq_3 c cs fun _ _ h => absurd h hc

-- A string ends where it does, whatever comes after it.
theorem stringBody_append (h : stringBody cs = some (body, [])) (rest : List Char) :
    stringBody (cs ++ rest) = some (body, rest) := by
  induction cs using stringBody.induct generalizing body
  case case1 => contradiction
  case case2 c cs hi =>
    simp only [stringBody, Option.map_eq_some_iff, Prod.mk.injEq] at h
    have ⟨(b, r), hb, he, hr⟩ := h
    subst he hr
    simp [stringBody, hi hb]
  case case3 c cs _ hq =>
    have hc : c ≠ '\\' := fun h => by subst h; contradiction
    rw [stringBody_cons hc, if_pos hq] at h
    rw [List.cons_append, stringBody_cons hc, if_pos hq]
    cases h
    rfl
  case case4 c cs hne hq hi =>
    have hc : c ≠ '\\' := fun h' => by
      subst h'
      cases cs
      case nil  => contradiction
      case cons => exact hne _ _ rfl rfl
    rw [stringBody_cons hc, if_neg hq, Option.map_eq_some_iff] at h
    have ⟨(b, r), hb, he⟩ := h
    cases he
    rw [List.cons_append, stringBody_cons hc, if_neg hq, hi hb]
    rfl

theorem first_of_isBlank (h : isBlank c) : c.isAlpha = false ∧ c.isDigit = false := by
  rcases isBlank_iff.mp h with rfl | rfl | rfl | rfl <;> decide

theorem isBlank_of_isAlpha (h : c.isAlpha) : isBlank c = false :=
  Bool.eq_false_iff.mpr fun hb => by simp [first_of_isBlank hb] at h

theorem first_of_isDigit (h : c.isDigit) : c.isAlpha = false ∧ isBlank c = false := by
  constructor
  case left =>
    change (decide (c.val ≥ '0'.val) && decide (c.val ≤ '9'.val)) = true at h
    change (decide (c.val ≥ 'A'.val ∧ c.val ≤ 'Z'.val) ||
      (decide (c.val ≥ 'a'.val) && decide (c.val ≤ 'z'.val))) = false
    grind
  case right => exact Bool.eq_false_iff.mpr fun hb => by simp [first_of_isBlank hb] at h

theorem first_of_isOperatorChar (h : isOperatorChar c) :
    c.isAlpha = false ∧ c.isDigit = false ∧ isQuote c = false ∧ isBlank c = false := by
  simp only [isOperatorChar, decide_eq_true_eq, List.mem_cons, List.not_mem_nil, or_false] at h
  casesm* _ ∨ _
  all_goals subst h; decide

theorem first_of_isPunctuation (h : isPunctuation c) :
    c.isAlpha = false ∧ c.isDigit = false ∧ isQuote c = false ∧ isOperatorChar c = false ∧
      isBlank c = false := by
  rcases isPunctuation_iff.mp h with rfl | rfl | rfl | rfl <;> decide

-- A lexeme that comes first is cut off.
theorem lexeme_of_spelled (h : l.Spelled) (hr : l.Precedes rest) :
    ∃ c cs, l.spelling ++ rest = c :: cs ∧ isBlank c = false ∧ lexeme c cs = .ok (l, rest) := by
  cases h
  case word c cs hc hcs =>
    rw [Lexeme.spelling_ofWord]
    refine ⟨c, cs ++ rest, by simp, isBlank_of_isAlpha hc, ?_⟩
    have hr : ∀ d ∈ rest.head?, isWordChar d = false := fun d hd => by
      rw [← Lexeme.goesOn_ofWord]
      exact hr d hd
    simp [lexeme, hc, takeWhile_append_eq hcs hr, dropWhile_append_eq hcs hr]
  case integer c cs hc hcs =>
    have ⟨ha, hb⟩ := first_of_isDigit hc
    refine ⟨c, cs ++ rest, by simp [Lexeme.spelling, Lexeme.text], hb, ?_⟩
    simp [lexeme, ha, hc, takeWhile_append_eq hcs hr, dropWhile_append_eq hcs hr]
  case string body hb =>
    refine ⟨'\x27', body ++ ['\x27'] ++ rest, by simp [Lexeme.spelling], rfl, ?_⟩
    have ha : '\x27'.isAlpha = false := rfl
    have hd : '\x27'.isDigit = false := rfl
    have hs : stringBody (body ++ '\x27' :: rest) = some (body, rest) := by
      simpa using stringBody_append hb rest
    simp [lexeme, ha, hd, isQuote, hs]
  case operator c cs hc hcs =>
    have ⟨ha, hd, hq, hb⟩ := first_of_isOperatorChar hc
    refine ⟨c, cs ++ rest, by simp [Lexeme.spelling, Lexeme.text], hb, ?_⟩
    simp [lexeme, ha, hd, hq, hc, takeWhile_append_eq hcs hr, dropWhile_append_eq hcs hr]
  case punctuation c hc =>
    have ⟨ha, hd, hq, ho, hb⟩ := first_of_isPunctuation hc
    refine ⟨c, rest, by simp [Lexeme.spelling, Lexeme.text], hb, ?_⟩
    simp [lexeme, ha, hd, hq, ho, hc]

theorem opensComment_of_ne (h : c ≠ '/') : opensComment (c :: cs) = false := by
  rw [opensComment]
  intro _ he
  exact absurd (List.cons.inj he).1 h

theorem eq_of_opensComment (h : opensComment text) :
    ∃ cs, text = '/' :: '/' :: cs ∧ lineEnds cs := by
  rw [opensComment.eq_def] at h
  split at h
  case h_1 cs => exact ⟨cs, rfl, h⟩
  case h_2    => contradiction

-- An operator looks like a comment only with two slashes of its own, and nothing else does.
theorem opensComment_of_spelled (h : l.Spelled) (hr : l.Precedes rest) (hn : l.slashed = false) :
    opensComment (l.spelling ++ rest) = false := by
  cases h
  case operator c cs _ _ =>
    refine Bool.eq_false_iff.mpr fun ho => ?_
    have ⟨_, he, _⟩ := eq_of_opensComment ho
    simp only [Lexeme.spelling, Lexeme.text, Lexeme.slashed, String.toList_ofList] at he hn
    cases cs <;> cases he
    case nil  => exact absurd (hr '/' rfl) (by decide)
    case cons => contradiction
  case word c cs hc _ =>
    have hc : c ≠ '/' := fun h => by subst h; contradiction
    simpa [Lexeme.spelling_ofWord] using opensComment_of_ne hc
  case integer c cs hc _ =>
    have hc : c ≠ '/' := fun h => by subst h; contradiction
    simpa [Lexeme.spelling, Lexeme.text] using opensComment_of_ne hc
  case string => simpa [Lexeme.spelling] using opensComment_of_ne (by decide)
  case punctuation c hc =>
    have hc : c ≠ '/' := fun h => by subst h; contradiction
    simpa [Lexeme.spelling, Lexeme.text] using opensComment_of_ne hc

-- The text is that of the lexemes, with blanks between them.
inductive Scans : List Char → List Lexeme → Prop
  | nil : Scans [] []
  | blank {c : Char} {cs : List Char} {ls : List Lexeme} :
    isBlank c → Scans cs ls → Scans (c :: cs) ls
  | lexeme {l : Lexeme} {rest : List Char} {ls : List Lexeme} :
    l.Spelled → l.Precedes rest → opensComment (l.spelling ++ rest) = false → Scans rest ls →
      Scans (l.spelling ++ rest) (l :: ls)

namespace Scans

variable {ls : List Lexeme}

theorem punctuation (hc : isPunctuation c) (h : Scans rest ls) :
    Scans (c :: rest) (.punctuation (String.ofList [c]) :: ls) := by
  have hl := Lexeme.Spelled.punctuation hc
  have hs := lexeme hl (fun _ _ => rfl) (opensComment_of_spelled hl (fun _ _ => rfl) rfl) h
  simpa [Lexeme.spelling, Lexeme.text] using hs

-- A mark separates as a blank does.
theorem beforePunctuation (hl : l.Spelled) (hn : l.slashed = false) (h : Scans rest ls)
    (hr : ∀ c ∈ rest.head?, isPunctuation c) : Scans (l.spelling ++ rest) (l :: ls) :=
  have hp : l.Precedes rest := fun c hc => l.goesOn_of_isPunctuation (hr c hc)
  lexeme hl hp (opensComment_of_spelled hl hp hn) h

end Scans

end Scan

namespace Lexeme

theorem spelled_keyword {w : String} (h : w ∈ keywords) : (keyword w).Spelled := by
  have hw : ∀ w ∈ keywords,
      w.toList.head?.any Char.isAlpha ∧ w.toList.tail.all Scan.isWordChar := by
    decide
  have ⟨hc, hcs⟩ := hw w h
  cases hl : w.toList
  case nil => simp [hl] at hc
  case cons c cs =>
    simp only [hl, List.head?_cons, Option.any_some, List.tail_cons, List.all_eq_true] at hc hcs
    have hs := Spelled.word hc hcs
    rwa [← hl, String.ofList_toList, ofWord, if_pos h] at hs

theorem exists_digits (k : Nat) :
    ∃ c cs, (toString k).toList = c :: cs ∧ c.isDigit ∧ ∀ d ∈ cs, d.isDigit := by
  have hd : ∀ c ∈ Nat.toDigits 10 k, c.isDigit := fun c =>
    Nat.isDigit_of_mem_toDigits (by decide) (by decide)
  rw [Nat.toString_eq_ofList_toDigits, String.toList_ofList]
  cases hl : Nat.toDigits 10 k
  case nil => exact absurd hl Nat.toDigits_ne_nil
  case cons c cs =>
    rw [hl] at hd
    have ⟨hc, hcs⟩ := List.forall_mem_cons.mp hd
    exact ⟨c, cs, rfl, hc, hcs⟩

theorem spelled_number (k : Nat) : (integer (toString k)).Spelled := by
  have ⟨c, cs, hl, hc, hcs⟩ := exists_digits k
  have hs := Spelled.integer hc hcs
  rwa [← hl, String.ofList_toList] at hs

end Lexeme

theorem Level.literal_toString (k : Nat) : literal (toString k) = k := by
  rw [literal, Nat.toString_eq_ofList_toDigits, String.toList_ofList, Nat.ofDigitChars_ten_toDigits]

end RpalMachine
