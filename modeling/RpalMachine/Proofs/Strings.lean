import RpalMachine.Proofs.Output
import RpalMachine.Proofs.Spacing

namespace RpalMachine

-- How a character is written within quotes.
def escape : Char → List Char
  | '\\'   => ['\\', '\\']
  | '\x27' => ['\\', '\x27']
  | '\n'   => ['\\', 'n']
  | '\t'   => ['\\', 't']
  | c      => [c]

def escaped (text : String) : String :=
  String.ofList (text.toList.flatMap escape)

def quoted (body : String) : String :=
  "'" ++ body ++ "'"

-- The text is over after the first character of an escape.
inductive EndsInEscape : List Char → Prop
  | backslash : EndsInEscape ['\\']
  | escape {c : Char} {cs : List Char} : EndsInEscape cs → EndsInEscape ('\\' :: c :: cs)
  | plain {c : Char} {cs : List Char} : c ≠ '\\' → EndsInEscape cs → EndsInEscape (c :: cs)

section

variable {c : Char} {cs : List Char}

theorem expandEscapes_cons (hc : c ≠ '\\') (cs : List Char) :
    expandEscapes (c :: cs) = c :: expandEscapes cs :=
  expandEscapes.eq_3 c cs fun _ _ h => absurd h hc

theorem expandEscapes_escape (c : Char) (cs : List Char) :
    expandEscapes (escape c ++ cs) = c :: expandEscapes cs := by
  unfold escape
  split
  case h_5 hc _ _ _ => exact expandEscapes_cons hc cs
  all_goals rfl

theorem expandEscapes_flatMap_escape (cs : List Char) :
    expandEscapes (cs.flatMap escape) = cs := by
  induction cs
  case nil         => rfl
  case cons c cs hi => rw [List.flatMap_cons, expandEscapes_escape, hi]

-- What comes after a text is expanded by itself, unless it would be taken for part of an escape.
theorem expandEscapes_append (h : ¬ EndsInEscape cs) (ds : List Char) :
    expandEscapes (cs ++ ds) = expandEscapes cs ++ expandEscapes ds := by
  induction cs using expandEscapes.induct
  case case1 => rfl
  case case2 c cs d hd hi =>
    have hi := hi fun he => h (.escape he)
    simp [expandEscapes, hd, hi]
  case case3 c cs hd hi =>
    have hi := hi fun he => h (.escape he)
    simp [expandEscapes, hd, hi]
  case case4 c cs hne hi =>
    have hc : c ≠ '\\' := fun hc => by
      subst hc
      cases cs
      case nil  => exact h .backslash
      case cons => exact hne _ _ rfl rfl
    have hi := hi fun he => h (.plain hc he)
    rw [List.cons_append, expandEscapes_cons hc, expandEscapes_cons hc, hi, List.cons_append]

namespace Scan

theorem stringBody_escape (c : Char) (cs : List Char) : stringBody (escape c ++ cs) =
    (stringBody cs).map fun (body, rest) => (escape c ++ body, rest) := by
  unfold escape
  split
  case h_5 hc hq _ _ =>
    have hq : ¬ isQuote c := by simpa [isQuote] using hq
    exact (stringBody_cons hc cs).trans (if_neg hq)
  all_goals rfl

theorem stringBody_flatMap_escape (cs rest : List Char) :
    stringBody (cs.flatMap escape ++ '\x27' :: rest) = some (cs.flatMap escape, rest) := by
  induction cs
  case nil => rfl
  case cons hi =>
    rw [List.flatMap_cons, List.append_assoc, stringBody_escape, hi]
    rfl

-- The closing quote would belong to the escape.
theorem not_endsInEscape_of_stringBody (h : stringBody (cs ++ ['\x27']) = some (cs, [])) :
    ¬ EndsInEscape cs := by
  intro he
  induction he
  case backslash => contradiction
  case escape hi =>
    simp only [List.cons_append, stringBody, Option.map_eq_some_iff] at h
    obtain ⟨⟨_, _⟩, hs, hb⟩ := h
    cases hb
    exact hi hs
  case plain hc _ hi =>
    rw [List.cons_append, stringBody_cons hc] at h
    split at h
    case isTrue  => cases h
    case isFalse =>
      obtain ⟨⟨_, _⟩, hs, hb⟩ := Option.map_eq_some_iff.mp h
      cases hb
      exact hi hs

end Scan

end

namespace Lexeme

variable {body : String}

theorem spelling_string (body : String) : (string body).spelling = (quoted body).toList := by
  simp [spelling, quoted]

theorem spelled_escaped (text : String) : (string (escaped text)).Spelled :=
  Spelled.string (Scan.stringBody_flatMap_escape _ [])

theorem Spelled.not_endsInEscape (h : (Lexeme.string body).Spelled) :
    ¬ EndsInEscape body.toList := by
  generalize hl : Lexeme.string body = l at h
  cases h
  case word =>
    rw [ofWord] at hl
    split at hl <;> contradiction
  case string hs =>
    cases hl
    simpa using Scan.not_endsInEscape_of_stringBody hs
  all_goals contradiction

-- The lexeme is that of a token of some text.
def Occurs (l : Lexeme) : Prop :=
  ∃ source tokens, tokenize source = .ok tokens ∧ l ∈ tokens.map Token.lexeme

theorem Occurs.spelled {l : Lexeme} (h : l.Occurs) : l.Spelled := by
  obtain ⟨_, _, hs, hl⟩ := h
  have ⟨_, ht, he⟩ := List.mem_map.mp hl
  subst he
  have ⟨_, _, _, _, hl, _⟩ := (tokenize_eq_ok_iff.mp hs).slice ht
  exact hl

end Lexeme

-- What is put out for a string.
def expanded (body : String) : String :=
  String.ofList (expandEscapes body.toList)

theorem expanded_escaped (text : String) : expanded (escaped text) = text := by
  simp [expanded, escaped, expandEscapes_flatMap_escape]

theorem expanded_append {a : String} (h : ¬ EndsInEscape a.toList) (b : String) :
    expanded (a ++ b) = expanded a ++ expanded b := by
  simp [expanded, expandEscapes_append h]

-- Programs that print a string, and two of them put together.
def printing (literal : String) : String :=
  "Print " ++ literal

def printingBoth (left right : String) : String :=
  "Print (Conc " ++ left ++ " " ++ right ++ ")"

namespace Scan.Scans

variable {body x : String} {rest : List Char} {ls : List Lexeme}

-- A string is over with its quote.
theorem string (h : (Lexeme.string body).Spelled) (hs : Scans rest ls) :
    Scans ((quoted body).toList ++ rest) (.string body :: ls) := by
  have hp : (Lexeme.string body).Precedes rest := fun _ _ => rfl
  rw [← Lexeme.spelling_string]
  exact .lexeme h hp (opensComment_of_spelled h hp rfl) hs

theorem identifier (h : (Lexeme.identifier x).Spelled) (hs : Scans rest ls) :
    Scans (x.toList ++ ' ' :: rest) (.identifier x :: ls) := by
  have hp : (Lexeme.identifier x).Precedes (' ' :: rest) := by rintro _ ⟨⟩; rfl
  exact .lexeme h hp (opensComment_of_spelled h hp rfl) (.blank rfl hs)

theorem print (hs : Scans rest ls) :
    Scans ("Print".toList ++ ' ' :: rest) (.identifier "Print" :: ls) :=
  .identifier (@Lexeme.Spelled.word 'P' "rint".toList rfl (List.all_eq_true.mp rfl)) hs

theorem conc (hs : Scans rest ls) :
    Scans ("Conc".toList ++ ' ' :: rest) (.identifier "Conc" :: ls) :=
  .identifier (@Lexeme.Spelled.word 'C' "onc".toList rfl (List.all_eq_true.mp rfl)) hs

end Scan.Scans

theorem Derives.called {ls : List Lexeme} {t : Tree} (x : String) (h : Derives .operand ls t) :
    Derives .application (.identifier x :: ls) (.form .gamma [.name x, t]) :=
  .application (.alone rfl (.alone rfl (.name x))) h

namespace Tree

abbrev print (t : Tree) : Tree :=
  apply (name "Print") t

abbrev conc (t u : Tree) : Tree :=
  apply (apply (name "Conc") t) u

theorem evaluate_print (a : String) (k : Nat) :
    (print (leaf (.string a))).evaluate (k + 9) {} =
      some (.ok .dummy, { written := Sink.bytes (expanded a).toList }) := by
  rw [expanded, String.toList_ofList]
  rfl

theorem evaluate_print_conc (a b : String) (k : Nat) :
    (print (conc (leaf (.string a)) (leaf (.string b)))).evaluate (k + 11) {} =
      some (.ok .dummy, { written := Sink.bytes (expanded (a ++ b)).toList }) := by
  rw [expanded, String.toList_ofList]
  rfl

end Tree

-- The source is a program that puts out the text and nothing else, as far as the output takes it.
def PutsOut (source text : String) : Prop :=
  ∃ t, Tree.ofSource defaultDepth source = .ok t ∧ ∃ least, ∀ limit ≥ least, ∀ sink,
    t.evaluate limit sink = sink.observe (Sink.bytes text.toList) (some (.ok .dummy))

section

variable {source text a b : String} {ls : List Lexeme} {t : Tree}

theorem ofSource_of_scans (hs : Scan.Scans source.toList ls) (hd : Derives .expression ls t)
    (hl : ls.length ≤ 6) (hh : t.height ≤ 6) : Tree.ofSource defaultDepth source = .ok t := by
  have ⟨tokens, ht, hm⟩ := tokenize_of_lexes (.of_scans hs)
  subst hm
  rw [List.length_map] at hl
  refine Tree.ofSource_complete ht hd ?_ ?_ <;> simp [defaultDepth] <;> omega

theorem tokenize_quoted (ha : (Lexeme.string a).Spelled) :
    tokenize (quoted a) = .ok [⟨.string a, 0⟩] := by
  have hp : (Lexeme.string a).Precedes [] := nofun
  have hc : Scan.Cut 0 _ _ := .token .nil ha hp (Scan.opensComment_of_spelled ha hp rfl)
    (.last .nil)
  rw [List.nil_append, List.append_nil, Lexeme.spelling_string] at hc
  exact tokenize_eq_ok_iff.mpr hc

theorem ofSource_quoted (ha : (Lexeme.string a).Spelled) :
    Tree.ofSource defaultDepth (quoted a) = .ok (.leaf (.string a)) := by
  have hs := Scan.Scans.string ha .nil
  rw [List.append_nil] at hs
  have hd := (Derives.string a).covered Category.expression_covers_operand
  exact ofSource_of_scans hs hd (by simp) (by simp [Tree.height, Tree.maxHeight])

theorem PutsOut.of_evaluate (hr : Tree.ofSource defaultDepth source = .ok t) {least : Nat}
    (he : ∀ k, t.evaluate (k + least) {} =
      some (.ok .dummy, { written := Sink.bytes text.toList })) : PutsOut source text := by
  refine ⟨t, hr, least, fun limit hl sink => ?_⟩
  have he := he (limit - least)
  rw [Nat.sub_add_cancel hl] at he
  exact Tree.evaluate_eq_observe he sink

theorem putsOut_printing (ha : (Lexeme.string a).Spelled) :
    PutsOut (printing (quoted a)) (expanded a) := by
  have hs : Scan.Scans (printing (quoted a)).toList [.identifier "Print", .string a] := by
    simpa [printing] using Scan.Scans.print (.string ha .nil)
  have hd := Derives.called "Print" (.string a)
  have hr := ofSource_of_scans hs (hd.covered Category.expression_covers_application) (by simp)
    (by simp [Tree.height, Tree.maxHeight])
  exact .of_evaluate hr (Tree.evaluate_print a)

theorem putsOut_printingBoth (ha : (Lexeme.string a).Spelled) (hb : (Lexeme.string b).Spelled) :
    PutsOut (printingBoth (quoted a) (quoted b)) (expanded (a ++ b)) := by
  have hs : Scan.Scans (printingBoth (quoted a) (quoted b)).toList [.identifier "Print",
      .punctuation "(", .identifier "Conc", .string a, .string b, .punctuation ")"] := by
    have hs := Scan.Scans.blank (c := ' ') rfl (.string hb (.punctuation (c := ')') rfl .nil))
    have hs := Scan.Scans.print (.punctuation (c := '(') rfl (.conc (.string ha hs)))
    simpa [printingBoth] using hs
  have hd := Derives.application (Derives.called "Conc" (.string a)) (.string b)
  have hd := hd.covered Category.expression_covers_application
  have hd := (Derives.called "Print" (.parenthesized hd)).covered
    Category.expression_covers_application
  have hr := ofSource_of_scans hs hd (by simp) (by simp [Tree.height, Tree.maxHeight])
  exact .of_evaluate hr (Tree.evaluate_print_conc a b)

end

open RpalMachine.Tree

-- Any text can be written as a string, which is one token, and what is put out for it is the text
-- as it was. No string is over within an escape, so what is put out for two of them together is
-- what is put out for each.
theorem strings_put_out :
    (∀ s : String, tokenize (quoted (escaped s)) = .ok [⟨.string (escaped s), 0⟩] ∧
      ofSource defaultDepth (quoted (escaped s)) = .ok (.leaf (.string (escaped s))) ∧
      PutsOut (printing (quoted (escaped s))) s) ∧
    (∀ s t : String, PutsOut (printingBoth (quoted (escaped s)) (quoted (escaped t))) (s ++ t)) ∧
    (∀ a, (Lexeme.string a).Occurs → ¬ EndsInEscape a.toList) ∧
    (∀ a b, (Lexeme.string a).Occurs → (Lexeme.string b).Occurs →
      ∃ x y, PutsOut (printing (quoted a)) x ∧ PutsOut (printing (quoted b)) y ∧
        PutsOut (printingBoth (quoted a) (quoted b)) (x ++ y)) := by
  have both {a b : String} (ha : (Lexeme.string a).Spelled) (hb : (Lexeme.string b).Spelled) :
      PutsOut (printingBoth (quoted a) (quoted b)) (expanded a ++ expanded b) :=
    expanded_append ha.not_endsInEscape b ▸ putsOut_printingBoth ha hb
  refine ⟨fun s => ⟨tokenize_quoted (Lexeme.spelled_escaped s),
    ofSource_quoted (Lexeme.spelled_escaped s), ?_⟩, fun s t => ?_,
    fun a ha => ha.spelled.not_endsInEscape, fun a b ha hb => ⟨expanded a, expanded b,
      putsOut_printing ha.spelled, putsOut_printing hb.spelled, both ha.spelled hb.spelled⟩⟩
  case refine_1 => simpa [expanded_escaped] using putsOut_printing (Lexeme.spelled_escaped s)
  case refine_2 =>
    simpa [expanded_escaped] using both (Lexeme.spelled_escaped s) (Lexeme.spelled_escaped t)

theorem backslashes_put_out :
    PutsOut "Print '\\\\\\'\\t\\n'" "\\'\t\n" ∧
    ((Lexeme.string "\\q\\\\").Occurs ∧ (Lexeme.string "n").Occurs ∧
      ∃ x y, PutsOut (printing (quoted "\\q\\\\")) x ∧ PutsOut (printing (quoted "n")) y ∧
        PutsOut "Print (Conc '\\q\\\\' 'n')" (x ++ y)) := by
  have ⟨hp, _, _, hb⟩ := strings_put_out
  have he : printing (quoted (escaped "\\'\t\n")) = "Print '\\\\\\'\\t\\n'" := by
    decide +kernel
  have hc : printingBoth (quoted "\\q\\\\") (quoted "n") = "Print (Conc '\\q\\\\' 'n')" := by
    decide +kernel
  have ha : tokenize (quoted "\\q\\\\") = .ok [⟨.string "\\q\\\\", 0⟩] :=
    Except.eq_ok_of_toOption (by decide +kernel)
  have hn : tokenize (quoted "n") = .ok [⟨.string "n", 0⟩] :=
    Except.eq_ok_of_toOption (by decide +kernel)
  have ho : (Lexeme.string "\\q\\\\").Occurs := ⟨_, _, ha, .head _⟩
  have ho' : (Lexeme.string "n").Occurs := ⟨_, _, hn, .head _⟩
  exact ⟨he ▸ (hp "\\'\t\n").2.2, ho, ho', hc ▸ hb _ _ ho ho'⟩

end RpalMachine
