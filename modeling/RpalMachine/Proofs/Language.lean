import RpalMachine.Source.Program
import RpalMachine.Proofs.Completeness

namespace RpalMachine

namespace Phrase

variable {depth : Nat} {tokens : List Token} {t : Tree}

theorem read_of_readAll (h : readAll depth tokens = .ok t) :
    read depth depth .expression tokens = .ok (t, []) := by
  simp only [readAll, StateT.run] at h
  cases hr : read depth depth .expression tokens <;> rw [hr] at h
  case error => contradiction
  case ok a =>
    match a with
    | (_, _ :: _) => contradiction
    | (u, [])     => cases h; rfl

theorem readAll_of_read (h : read depth depth .expression tokens = .ok (t, [])) :
    readAll depth tokens = .ok t := by
  simp only [readAll, StateT.run, h]
  rfl

theorem readAll_sound (h : readAll depth tokens = .ok t) :
    Derives .expression (tokens.map Token.lexeme) t := by
  have ⟨taken, ht, hd⟩ := read_reads depth depth .expression tokens t [] (read_of_readAll h)
  rw [List.append_nil] at ht
  exact ht ▸ hd

theorem readAll_of_acceptsAt (h : AcceptsAt depth .expression (tokens.map Token.lexeme) t)
    (hh : t.height ≤ depth + 1) : readAll (depth + 1) tokens = .ok t := by
  have hx : read (depth + 1) (depth + 1) .expression (tokens ++ []) = .ok (t, []) :=
    h.nested .expression [] rfl hh nofun
  rw [List.append_nil] at hx
  exact readAll_of_read hx

theorem readAll_complete (h : Derives .expression (tokens.map Token.lexeme) t)
    (hh : t.height ≤ depth) (hd : Category.depth .expression tokens.length < depth) :
    readAll depth tokens = .ok t := by
  cases depth
  case zero => contradiction
  case succ =>
    have hd := Nat.le_of_lt_succ hd
    exact readAll_of_acceptsAt (h.accepts.atLevels (by simpa using hd)) hh

end Phrase

-- The tokens of any row of lexemes can be read, and reading them has one result.
theorem Derives.unique {ls : List Lexeme} {t u : Tree} (ht : Derives .expression ls t)
    (hu : Derives .expression ls u) : t = u := by
  have ⟨tokens, hls⟩ : ∃ tokens : List Token, tokens.map Token.lexeme = ls :=
    ⟨ls.map (Token.mk · 0), by simp [Function.comp_def]⟩
  subst hls
  have ⟨n, hn⟩ : ∃ n, max (max t.height u.height) (Category.depth .expression tokens.length) < n :=
    ⟨_, Nat.lt_succ_self _⟩
  have hx : Phrase.readAll n tokens = .ok t := Phrase.readAll_complete ht (by omega) (by omega)
  have hy : Phrase.readAll n tokens = .ok u := Phrase.readAll_complete hu (by omega) (by omega)
  exact Except.ok.inj (hx.symm.trans hy)

namespace Tree

variable {depth : Nat} {source : String} {tokens : List Token} {t : Tree}

theorem readAll_of_ofSource (h : ofSource depth source = .ok t) :
    ∃ tokens, tokenize source = .ok tokens ∧ Phrase.readAll depth tokens = .ok t := by
  rw [ofSource] at h
  cases hs : tokenize source <;> rw [hs] at h
  case error => contradiction
  case ok tokens =>
    refine ⟨tokens, rfl, ?_⟩
    cases tokens
    case nil => contradiction
    case cons o tokens =>
      change (Phrase.readAll depth (o :: tokens)).mapError _ = _ at h
      cases hr : Phrase.readAll depth (o :: tokens) <;> rw [hr] at h <;> cases h
      rfl

theorem ofSource_sound (h : ofSource depth source = .ok t) :
    ∃ tokens, tokenize source = .ok tokens ∧
      Derives .expression (tokens.map Token.lexeme) t :=
  have ⟨tokens, hs, hr⟩ := readAll_of_ofSource h
  ⟨tokens, hs, Phrase.readAll_sound hr⟩

theorem ofSource_of_readAll (hs : tokenize source = .ok tokens)
    (h : Derives .expression (tokens.map Token.lexeme) t)
    (hr : Phrase.readAll depth tokens = .ok t) : ofSource depth source = .ok t := by
  obtain ⟨o, tokens, rfl, _⟩ := h.head rfl
  simp only [ofSource, hs]
  change (Phrase.readAll depth (o :: tokens)).mapError _ = _
  rw [hr]
  rfl

theorem ofSource_complete (hs : tokenize source = .ok tokens)
    (h : Derives .expression (tokens.map Token.lexeme) t) (hh : t.height ≤ depth)
    (hd : Category.depth .expression tokens.length < depth) : ofSource depth source = .ok t :=
  ofSource_of_readAll hs h (Phrase.readAll_complete h hh hd)

theorem ofSource_reads_grammar :
    (∀ depth source t, ofSource depth source = .ok t →
      ∃ tokens, tokenize source = .ok tokens ∧
        Derives .expression (tokens.map Token.lexeme) t) ∧
    (∀ source tokens t, tokenize source = .ok tokens →
      Derives .expression (tokens.map Token.lexeme) t →
        ∃ least, ∀ depth ≥ least, ofSource depth source = .ok t) ∧
    (∀ ls t u, Derives .expression ls t → Derives .expression ls u → t = u) := by
  refine ⟨fun _ _ _ => ofSource_sound, fun source tokens t hs h => ?_, fun _ _ _ => Derives.unique⟩
  refine ⟨max t.height (Category.depth .expression tokens.length + 1), fun depth hd => ?_⟩
  exact ofSource_complete hs h (by omega) (by omega)

theorem negation_reads_grammar :
    ∃ least, ∀ depth ≥ least, ofSource depth "not x or 'y'" =
      .ok (.form (.binary .or) [.form (.unary .not) [.name "x"], .leaf (.string "y")]) := by
  have hx : Derives .comparison [.identifier "x"] (.name "x") :=
    .alone rfl (.alone rfl (.alone rfl (.alone rfl (.alone rfl (.alone rfl (.alone rfl
      (.name "x")))))))
  have hy : Derives .conjunction [.string "y"] (.leaf (.string "y")) :=
    .alone rfl (.alone rfl (.alone rfl (.alone rfl (.alone rfl (.alone rfl (.alone rfl
      (.alone rfl (.string "y"))))))))
  have hor := Derives.chain (c := .disjunction) (.head _) rfl
    (.alone rfl (.alone rfl (.negation hx))) hy
  exact ofSource_reads_grammar.2.1 _ _ _ rfl
    (.alone rfl (.alone rfl (.alone rfl (.alone rfl (.alone rfl hor)))))

end Tree

end RpalMachine
