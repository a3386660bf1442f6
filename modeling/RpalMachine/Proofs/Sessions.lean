import RpalMachine.Proofs.Interchange
import RpalMachine.Proofs.Layout
import RpalMachine.Session

namespace RpalMachine

-- The first character that is not blank.
def firstVisible? (cs : List Char) : Option Char :=
  (trimLeft cs).head?

section

variable {c : Char} {cs : List Char}

theorem firstVisible?_of_blank (h : isBlank c) : firstVisible? (c :: cs) = firstVisible? cs := by
  rw [firstVisible?, trimLeft, List.dropWhile_cons_of_pos h]
  rfl

theorem firstVisible?_of_visible (h : isBlank c = false) : firstVisible? (c :: cs) = some c := by
  rw [firstVisible?, trimLeft, List.dropWhile_cons_of_neg (by simp [h])]
  rfl

theorem firstVisible?_append {blanks : List Char} (h : ∀ d ∈ blanks, isBlank d) :
    firstVisible? (blanks ++ cs) = firstVisible? cs := by
  induction blanks
  case nil => rfl
  case cons d ds hi =>
    rw [List.forall_mem_cons] at h
    rw [List.cons_append, firstVisible?_of_blank h.1, hi h.2]

theorem isBlank_of_scan (h : Scan.isBlank c) : isBlank c := by
  rcases Scan.isBlank_iff.mp h with rfl | rfl | rfl | rfl <;> decide

theorem isBlank_of_json (h : Json.isBlank c) : isBlank c := by
  simp only [Json.isBlank, Bool.or_eq_true, beq_iff_eq] at h
  obtain ((rfl | rfl) | rfl) | rfl := h <;> decide

-- Letters and digits are between the blanks.
theorem isBlank_eq_false (h : c.isAlpha ∨ c.isDigit) : isBlank c = false := by
  have hn : (48 ≤ c.toNat ∧ c.toNat ≤ 57) ∨ (65 ≤ c.toNat ∧ c.toNat ≤ 122) := by
    change (decide (c.val ≥ 'A'.val ∧ c.val ≤ 'Z'.val) ||
      (decide (c.val ≥ 'a'.val) && decide (c.val ≤ 'z'.val))) = true ∨
        (decide (c.val ≥ '0'.val) && decide (c.val ≤ '9'.val)) = true at h
    simp only [Bool.or_eq_true, Bool.and_eq_true, decide_eq_true_eq, ge_iff_le,
      UInt32.le_iff_toNat_le] at h
    change ((65 ≤ c.toNat ∧ c.toNat ≤ 90) ∨ (97 ≤ c.toNat ∧ c.toNat ≤ 122)) ∨
      (48 ≤ c.toNat ∧ c.toNat ≤ 57) at h
    omega
  simp only [isBlank, Bool.or_eq_false_iff, Bool.and_eq_false_iff, decide_eq_false_iff_not,
    beq_eq_false_iff_ne]
  omega

end

-- Characters that programs begin with, when blanks are left out, and no document does.
def BeginsProgram (c : Char) : Prop :=
  isBlank c = false ∧ c ≠ '\x7b' ∧ c ≠ '"'

theorem beginsProgram_of_alphanumeric {c : Char} (h : c.isAlpha ∨ c.isDigit) :
    BeginsProgram c := by
  refine ⟨isBlank_eq_false h, ?_, ?_⟩ <;> rintro rfl <;> revert h <;> decide

namespace Lexeme

variable {l : Lexeme} {rest : List Char}

theorem firstVisible?_spelling (h : l.Spelled) (hl : Category.begins .expression l) :
    ∃ c, firstVisible? (l.spelling ++ rest) = some c ∧ BeginsProgram c := by
  have visible {c : Char} (hc : BeginsProgram c) (cs : List Char) :
      ∃ d, firstVisible? (c :: cs) = some d ∧ BeginsProgram d :=
    ⟨c, firstVisible?_of_visible hc.1, hc⟩
  cases h
  case word c cs hc _ =>
    simpa [spelling_ofWord] using visible (beginsProgram_of_alphanumeric (.inl hc)) (cs ++ rest)
  case integer c cs hc _ =>
    simpa [spelling, text] using visible (beginsProgram_of_alphanumeric (.inr hc)) (cs ++ rest)
  case string body _ =>
    simpa [spelling] using visible (c := '\x27') ⟨rfl, by decide, by decide⟩ _
  case operator c cs _ _ =>
    -- No other operators than signs begin a program.
    have hs : String.ofList (c :: cs) = "+" ∨ String.ofList (c :: cs) = "-" := by
      simpa [Category.begins, startsNegation, startsSum, Level.startsOperand] using hl
    rcases hs with hs | hs <;> rw [hs]
    case inl => exact visible (c := '+') ⟨rfl, by decide, by decide⟩ rest
    case inr => exact visible (c := '-') ⟨rfl, by decide, by decide⟩ rest
  case punctuation c hc =>
    have hb : BeginsProgram c := by
      rcases Scan.isPunctuation_iff.mp hc with rfl | rfl | rfl | rfl <;>
        exact ⟨rfl, by decide, by decide⟩
    simpa [spelling, text] using visible hb rest

end Lexeme

theorem Scan.Layout.firstVisible? {rest gap : List Char} (h : Layout rest gap)
    (hr : ∃ c, firstVisible? rest = some c ∧ BeginsProgram c) :
    ∃ c, RpalMachine.firstVisible? (gap ++ rest) = some c ∧ BeginsProgram c := by
  induction h
  case nil => exact hr
  case blank hc _ hi =>
    rw [List.cons_append, firstVisible?_of_blank (isBlank_of_scan hc)]
    exact hi
  case comment => exact ⟨'/', rfl, rfl, by decide, by decide⟩

-- A program begins with a character that is neither a brace nor a double quote.
theorem Tree.firstVisible?_of_ofSource {depth : Nat} {source : String} {t : Tree}
    (h : ofSource depth source = .ok t) :
    ∃ c, firstVisible? source.toList = some c ∧ BeginsProgram c := by
  have ⟨tokens, hs, hd⟩ := ofSource_sound h
  have ⟨l, ls, hl, hb⟩ := hd.begins
  have hc := tokenize_eq_ok_iff.mp hs
  generalize source.toList = text at hc
  cases hc
  case last => contradiction
  case token hg hsp _ _ _ =>
    cases hl
    exact hg.firstVisible? (Lexeme.firstVisible?_spelling hsp hb)

namespace Json

variable {codec : Codec} {text : String} {v : Value} {c : Char}

-- Strings and objects have one character each to begin with.
theorem Codec.Lawful.firstVisible? (lawful : codec.Lawful) (h : codec.read text = .ok v)
    (hv : ∀ d, v.opensWith d → d = c) (hc : RpalMachine.isBlank c = false) :
    RpalMachine.firstVisible? text.toList = some c := by
  have ⟨d, hd, ho⟩ := lawful.opensWith h
  cases hv d ho
  have ht := List.takeWhile_append_dropWhile (p := isBlank) (l := text.toList)
  cases hl : text.toList.dropWhile isBlank <;> rw [hl] at hd ht
  case nil => contradiction
  case cons =>
    cases hd
    rw [← ht, firstVisible?_append fun e he => isBlank_of_json (Scan.mem_takeWhile he),
      firstVisible?_of_visible hc]

end Json

namespace Tree

variable {codec : Json.Codec} {source : String} {depth limit : Nat} {t u : Tree}

theorem isDocument_iff : isDocument source ↔ firstVisible? source.toList = some '\x7b' :=
  decide_eq_true_iff

theorem not_isDocument_of_ofSource (h : ofSource depth source = .ok t) : ¬ isDocument source := by
  have ⟨c, hc, hb⟩ := firstVisible?_of_ofSource h
  rw [isDocument_iff, hc]
  exact fun he => hb.2.1 (Option.some.inj he)

section
variable (lawful : codec.Lawful)
include lawful

theorem isDocument_of_object {members : List (String × Json.Value)}
    (h : codec.read source = .ok (.object members)) : isDocument source :=
  isDocument_iff.mpr (lawful.firstVisible? h (fun _ => eq_of_beq) rfl)

-- Only strings and objects are trees.
theorem firstVisible?_of_ofJsonText (h : ofJsonText codec source = .ok t) :
    firstVisible? source.toList = some '\x7b' ∨ firstVisible? source.toList = some '"' := by
  have ⟨v, hv, ho⟩ := exists_value_of_ofJsonText h
  rw [ofJson.eq_def] at ho
  split at ho
  case h_1 => exact .inr (lawful.firstVisible? hv (fun _ => eq_of_beq) rfl)
  case h_7 => contradiction
  all_goals exact .inl (lawful.firstVisible? hv (fun _ => eq_of_beq) rfl)

theorem not_ofJsonText_of_ofSource (h : ofSource depth source = .ok t) :
    ofJsonText codec source ≠ .ok u := by
  intro hu
  have ⟨c, hc, hb⟩ := firstVisible?_of_ofSource h
  have hd := firstVisible?_of_ofJsonText lawful hu
  rw [hc, Option.some.injEq, Option.some.injEq] at hd
  exact hd.elim hb.2.1 hb.2.2

end

theorem readProgram_of_ofSource (h : ofSource defaultDepth source = .ok t) :
    readProgram codec source = .ok t := by
  rw [readProgram, if_neg (not_isDocument_of_ofSource h), h]
  rfl

theorem readProgram_of_ofJsonText (hd : isDocument source) (h : ofJsonText codec source = .ok t) :
    readProgram codec source = .ok t := by
  rw [readProgram, if_pos hd, h]
  rfl

end Tree

namespace Switches

variable {codec : Json.Codec} {switches : Switches} {source : String} {t : Tree} {limit : Nat}

theorem shown_none (codec : Json.Codec) (t : Tree) : shown codec {} t = ("", .ok ()) :=
  rfl

-- Only what cannot be run cannot be shown without its sugar.
theorem desugar_of_shown {text : String} {e : ShapeFault}
    (h : switches.shown codec t = (text, .error e)) : t.desugar = .error e := by
  rw [shown] at h
  split at h
  case isFalse => cases h
  case isTrue  => split at h <;> cases h; assumption

theorem evaluate_of_desugar {e : ShapeFault} (h : t.desugar = .error e) (sink : Sink) :
    t.evaluate limit sink = some (.error (.shape e), sink) := by
  simp only [Tree.evaluate, Tree.load, h]
  rfl

theorem runProgram_eq (h : readProgram codec source = .ok t) :
    switches.runProgram codec limit source = (t.evaluate limit {}).map fun (result, sink) =>
      ((switches.shown codec t).1 ++ sink.text, result) := by
  simp only [runProgram, h]
  cases hs : switches.shown codec t
  case mk text rest =>
    cases rest
    case ok => rfl
    case error e =>
      have ht : Sink.text {} = "" := rfl
      rw [evaluate_of_desugar (desugar_of_shown hs), Option.map_some, ht, String.append_empty]

-- What is shown comes before what the program puts out, and that is all there is to the switches.
theorem exists_shown (codec : Json.Codec) (switches : Switches) (source : String) :
    ∃ shown, ∀ limit, switches.runProgram codec limit source =
      (runProgram codec {} limit source).map fun (text, result) => (shown ++ text, result) := by
  cases hr : readProgram codec source
  case error e => exact ⟨"", fun _ => by simp [runProgram, hr]⟩
  case ok t =>
    refine ⟨(switches.shown codec t).1, fun limit => ?_⟩
    rw [runProgram_eq hr, runProgram_eq hr, shown_none, Option.map_map]
    simp [Function.comp_def]

end Switches

open RpalMachine.Tree Switches

-- With any codec that keeps the laws, no text is both a program and a document, and one whose first
-- character other than blanks is a brace is no program. So a session runs what the reader of the
-- text makes of it, and whichever trees are shown before, the outcome is that of evaluating it.
theorem runProgram_reads {codec : Json.Codec} (lawful : codec.Lawful) :
    (∀ depth source t u, ofSource depth source = .ok t → ofJsonText codec source ≠ .ok u) ∧
    (∀ (source : String) blanks rest, source.toList = blanks ++ '\x7b' :: rest →
      (∀ c ∈ blanks, isBlank c) → ∀ depth, ∃ fault, ofSource depth source = .error fault) ∧
    (∀ source t, ofSource defaultDepth source = .ok t ∨
        (∃ members, codec.read source = .ok (.object members)) ∧
          ofJsonText codec source = .ok t →
      ∀ switches limit,
        (runProgram codec switches limit source).map (·.2) = (t.evaluate limit {}).map (·.1)) ∧
    (∀ switches source, ∃ shown, ∀ limit, runProgram codec switches limit source =
      (runProgram codec {} limit source).map fun (text, result) => (shown ++ text, result)) := by
  refine ⟨fun _ _ _ _ => not_ofJsonText_of_ofSource lawful,
    fun source blanks rest ht hb depth => ?_, fun source t h switches limit => ?_,
    exists_shown codec⟩
  case refine_1 =>
    have hv : firstVisible? source.toList = some '\x7b' := by
      rw [ht, firstVisible?_append hb, firstVisible?_of_visible rfl]
    cases h : ofSource depth source
    case error fault => exact ⟨fault, rfl⟩
    case ok t        => exact absurd (isDocument_iff.mpr hv) (not_isDocument_of_ofSource h)
  case refine_2 =>
    have hr : readProgram codec source = .ok t := by
      rcases h with h | ⟨⟨_, hv⟩, h⟩
      case inl => exact readProgram_of_ofSource h
      case inr => exact readProgram_of_ofJsonText (isDocument_of_object lawful hv) h
    rw [runProgram_eq hr, Option.map_map]
    rfl

-- The document of a tree that cannot be run.
def childless : String :=
  "\t\x7b\"rec\": []\x7d"

theorem childless_reads :
    Json.compact.Lawful ∧
    (ofSource defaultDepth "1 // \x7b" = .ok (.leaf (.integer 1)) ∧
      ∀ u, ofJsonText Json.compact "1 // \x7b" ≠ .ok u) ∧
    ((∃ members, Json.compact.read childless = .ok (.object members)) ∧
      ofJsonText Json.compact childless = .ok (.form .recursive []) ∧
      ∀ switches limit, (runProgram Json.compact switches limit childless).map (·.2) =
        some (.error (.shape (.childCount (.form .recursive) 0)))) ∧
    ∃ fault, ofSource defaultDepth childless = .error fault := by
  have ⟨hne, hb, hr, _⟩ := runProgram_reads Json.compact_lawful
  have hs : ofSource defaultDepth "1 // \x7b" = .ok (.leaf (.integer 1)) :=
    Except.eq_ok_of_toOption (by decide +kernel)
  have hj : ofJsonText Json.compact childless = .ok (.form .recursive []) :=
    Except.eq_ok_of_toOption (by decide +kernel)
  have ⟨v, hv, ho⟩ := exists_value_of_ofJsonText hj
  have hm : ∃ members, Json.compact.read childless = .ok (.object members) := by
    rcases ofJson_eq_ok ho with ⟨_, hl, _⟩ | ⟨_, _, _, _, hv', _⟩
    case inl => cases hl
    case inr => exact ⟨_, hv.trans (congrArg _ hv')⟩
  refine ⟨Json.compact_lawful, ⟨hs, fun u => hne _ _ _ u hs⟩, ⟨hm, hj, fun switches limit => ?_⟩,
    hb _ ['\t'] "\"rec\": []\x7d".toList rfl (List.forall_mem_singleton.mpr rfl) _⟩
  rw [hr _ _ (.inr ⟨hm, hj⟩) switches limit, evaluate_of_desugar rfl]
  rfl

end RpalMachine
