import RpalMachine.Proofs.Language
import RpalMachine.Proofs.Layout
import RpalMachine.Proofs.Prediction

namespace RpalMachine

namespace Scan

variable {offset : Nat} {c : Char} {text rest : List Char} {ts : List Token} {t : Token}
  {l : Lexeme} {ls : List Lexeme}

-- A token is its piece of the text, and goes on no further.
theorem Cut.slice (h : Cut offset text ts) (ht : t ∈ ts) :
    ∃ before after, text = before ++ (t.lexeme.spelling ++ after) ∧
      t.offset = offset + size before ∧ t.lexeme.Spelled ∧ t.lexeme.Precedes after := by
  induction h
  case last => contradiction
  case token gap rest l ts _ hl hr _ _ hi =>
    cases ht
    case head => exact ⟨gap, rest, rfl, rfl, hl, hr⟩
    case tail ht =>
      have ⟨before, after, he, ho, hs⟩ := hi ht
      refine ⟨gap ++ (l.spelling ++ before), after, by simp [he], ?_, hs⟩
      simp [ho, Nat.add_assoc]

theorem Cut.pairwise (h : Cut offset text ts) : ts.Pairwise (·.offset < ·.offset) := by
  induction h
  case last => exact .nil
  case token gap rest l ts _ hl _ _ hc hi =>
    refine .cons (fun t ht => ?_) hi
    have ⟨before, _, _, ho, _⟩ := hc.slice ht
    have := size_pos hl.length_pos
    dsimp only
    omega

-- The lexemes are written in a row, with blanks between them.
inductive Spaced : List Lexeme → List Char → Prop
  | nil : Spaced [] []
  | blank {c : Char} {ls : List Lexeme} {text : List Char} :
    isBlank c → Spaced ls text → Spaced ls (c :: text)
  | lexeme {l : Lexeme} {ls : List Lexeme} {rest : List Char} :
    (∀ c ∈ rest.head?, isBlank c) → Spaced ls rest → Spaced (l :: ls) (l.spelling ++ rest)

theorem Spaced.scans (h : Spaced ls text) (hl : ∀ l ∈ ls, l.Spelled)
    (hn : ∀ l ∈ ls, l.slashed = false) : Scans text ls := by
  induction h
  case nil           => exact .nil
  case blank hc _ hi => exact .blank hc (hi hl hn)
  case lexeme l _ _ hr _ hi =>
    rw [List.forall_mem_cons] at hl hn
    have hp : l.Precedes _ := fun c hc => l.goesOn_of_isBlank (hr c hc)
    exact .lexeme hl.1 hp (opensComment_of_spelled hl.1 hp hn.1) (hi hl.2 hn.2)

end Scan

-- What is read depends on the lexemes, not on where they are.
theorem Phrase.readAll_of_lexemes {depth : Nat} {tokens tokens' : List Token} {t : Tree}
    (hl : tokens'.map Token.lexeme = tokens.map Token.lexeme) (h : readAll depth tokens = .ok t) :
    readAll depth tokens' = .ok t := by
  have hr := read_of_readAll h
  rw [← List.append_nil tokens] at hr
  have hr' := (read_predictive depth depth .expression).lexical (o := .done t) hr hl rfl
  rw [List.append_nil] at hr'
  exact readAll_of_read hr'

theorem Tree.ofSource_of_lexemes {depth : Nat} {source text : String} {tokens tokens' : List Token}
    {t : Tree} (hs : tokenize source = .ok tokens) (ht : tokenize text = .ok tokens')
    (hl : tokens'.map Token.lexeme = tokens.map Token.lexeme) (h : ofSource depth source = .ok t) :
    ofSource depth text = .ok t := by
  have ⟨_, hs', hr⟩ := readAll_of_ofSource h
  cases hs.symm.trans hs'
  have hr' := Phrase.readAll_of_lexemes hl hr
  exact ofSource_of_readAll ht (Phrase.readAll_sound hr') hr'

namespace Pieces

variable {pieces : Pieces} {mark : Lexeme} {p : Lexeme → Prop}
  (h : ∀ q ∈ pieces, ∀ l ∈ q.1, p l)
include h

theorem forall_mem_lexemes : ∀ l ∈ pieces.lexemes, p l := by
  intro l hl
  have ⟨q, hq, hl⟩ := List.mem_flatMap.mp hl
  exact h q hq l hl

theorem forall_mem_markedBy (hm : p mark) : ∀ l ∈ pieces.markedBy mark, p l := by
  intro l hl
  have ⟨q, hq, hl⟩ := List.mem_flatMap.mp hl
  cases hl
  case head    => exact hm
  case tail hl => exact h q hq l hl

end Pieces

-- No operator of the grammar looks like a comment.
theorem Derives.not_slashed {c : Category} {ls : List Lexeme} {t : Tree} (h : Derives c ls t) :
    ∀ l ∈ ls, l.slashed = false := by
  have chain (c : Category) : ∀ x ∈ c.operators, x.1.slashed = false := by cases c <;> decide
  have comparison : ∀ x ∈ comparisons, x.1.slashed = false := by decide
  have series {c d : Category} {mark : Lexeme} {f : Form} (h : c.series? = some (d, mark, f)) :
      mark.slashed = false := by
    cases c <;> cases h <;> rfl
  induction h
  case alone hi => exact hi
  case chain ho _ _ _ hi hi' =>
    exact List.forall_mem_append.mpr ⟨hi, List.forall_mem_cons.mpr ⟨chain _ _ ho, hi'⟩⟩
  case comparison ho _ _ hi hi' =>
    exact List.forall_mem_append.mpr ⟨hi, List.forall_mem_cons.mpr ⟨comparison _ ho, hi'⟩⟩
  case series hs _ _ _ hi hi' =>
    exact List.forall_mem_append.mpr ⟨hi, Pieces.forall_mem_markedBy hi' (series hs)⟩
  case lambda hi hi' =>
    have hp := Pieces.forall_mem_lexemes hi
    simp only [List.forall_mem_cons, List.forall_mem_append]
    exact ⟨rfl, hp, rfl, hi'⟩
  case function hi hi' =>
    have hp := Pieces.forall_mem_lexemes hi
    simp only [List.forall_mem_cons, List.forall_mem_append]
    exact ⟨rfl, hp, rfl, hi'⟩
  all_goals
    simp only [List.forall_mem_cons, List.forall_mem_append]
    grind [Lexeme.slashed]

variable {source : String} {tokens : List Token}

-- A text is made up of its tokens and of layout between them, and any other blanks between the same
-- lexemes are as good, unless there is an operator that looks like a comment.
theorem tokenize_lossless (h : tokenize source = .ok tokens) :
    Scan.Cut 0 source.toList tokens ∧
    tokens.Pairwise (·.offset < ·.offset) ∧
    (∀ t ∈ tokens, ∃ before after, source.toList = before ++ (t.lexeme.spelling ++ after) ∧
      t.offset = Scan.size before ∧ t.lexeme.Spelled ∧ t.lexeme.Precedes after) ∧
    ((∀ t ∈ tokens, t.lexeme.slashed = false) →
      ∀ text : String, Scan.Spaced (tokens.map Token.lexeme) text.toList →
        ∃ tokens', tokenize text = .ok tokens' ∧
          tokens'.map Token.lexeme = tokens.map Token.lexeme ∧
          ∀ depth t, Tree.ofSource depth text = .ok t ↔ Tree.ofSource depth source = .ok t) := by
  have hc := tokenize_eq_ok_iff.mp h
  refine ⟨hc, hc.pairwise, fun t ht => by simpa using hc.slice ht, fun hn text hs => ?_⟩
  have hl : ∀ l ∈ tokens.map Token.lexeme, l.Spelled := List.forall_mem_map.mpr fun t ht =>
    have ⟨_, _, _, _, hl, _⟩ := hc.slice ht
    hl
  have ⟨tokens', ht, hm⟩ := tokenize_of_lexes (.of_scans (hs.scans hl (List.forall_mem_map.mpr hn)))
  exact ⟨tokens', ht, hm, fun depth t => ⟨Tree.ofSource_of_lexemes ht h hm.symm,
    Tree.ofSource_of_lexemes h ht hm⟩⟩

theorem commented_lossless :
    tokenize "x // y\n+'1'" =
        .ok [⟨.identifier "x", 0⟩, ⟨.operator "+", 7⟩, ⟨.string "1", 8⟩] ∧
      ∀ depth t, Tree.ofSource depth "x\t+ '1'" = .ok t ↔
        Tree.ofSource depth "x // y\n+'1'" = .ok t := by
  have hs : tokenize "x // y\n+'1'" =
      .ok [⟨.identifier "x", 0⟩, ⟨.operator "+", 7⟩, ⟨.string "1", 8⟩] := rfl
  have hx : Scan.Spaced [.identifier "x", .operator "+", .string "1"] "x\t+ '1'".toList := by
    refine .lexeme (l := .identifier "x") ?_ (.blank rfl (.lexeme (l := .operator "+") ?_
      (.blank rfl (.lexeme (l := .string "1") nofun .nil)))) <;> rintro _ ⟨⟩ <;> rfl
  obtain ⟨_, _, _, h⟩ := (tokenize_lossless hs).2.2.2 (by decide) _ hx
  exact ⟨hs, h⟩

end RpalMachine
