import RpalMachine.Proofs.Refusals
import RpalMachine.Proofs.Rewrites
import RpalMachine.Proofs.Spacing

namespace RpalMachine

open Reader

namespace Phrase

variable {depth depth' : Nat} {tokens : List Token} {t : Tree}

theorem readAll_of_le (h : depth ≤ depth') (tokens : List Token) :
    readAll depth tokens = readAll depth' tokens ∨
      ∃ rest, readAll depth tokens = .error (.tooDeep rest) := by
  simp only [readAll, StateT.run]
  rcases read_agrees h h .expression tokens with he | ⟨rest, he, _⟩
  case inl => exact .inl (he ▸ rfl)
  case inr => exact .inr ⟨rest, he ▸ rfl⟩

-- An expression that is read at the end of a text is read in front of a parenthesis.
theorem read_closed {o : Token} (ho : o.lexeme = .punctuation ")")
    (h : read depth depth .expression tokens = .ok (t, [])) (rest : List Token) :
    read depth depth .expression (tokens ++ o :: rest) = .ok (t, o :: rest) := by
  match (read_predictive depth depth .expression).steady h o rest with
  | .inl hs => exact hs
  | .inr hs =>
    -- With levels enough reading stops at the parenthesis, so that it cannot have got past it.
    have hd := (readAll_sound (readAll_of_read h)).accepts
    have ⟨n, hn⟩ : ∃ n, max (max t.height depth) (Category.depth .expression tokens.length) < n :=
      ⟨_, Nat.lt_succ_self _⟩
    have hlen : Category.depth .expression tokens.length < n := by omega
    have hx : read n n .expression (tokens ++ o :: rest) = .ok (t, o :: rest) :=
      hd.nested .expression (o :: rest) rfl (by omega) hlen (.cons ho (by decide))
    have hle : depth ≤ n := by omega
    match read_agrees hle hle .expression (tokens ++ o :: rest) with
    | .inl he => exact he.trans hx
    | .inr ⟨r, he, hr⟩ =>
      have hle := ((hr (.done t) _ hx).trans (hs .tooDeep r he)).length_le
      exact absurd hle (Nat.not_succ_le_self _)

theorem operand_found (h : readAll depth tokens = .ok t) :
    FoundIn (.ofDepth (depth + 3) depth) .operand
      (.punctuation "(" :: (tokens.map Token.lexeme ++ [.punctuation ")"])) t := by
  intro s rest hs _
  simp only [List.map_eq_cons_iff, List.map_eq_append_iff, List.map_eq_nil_iff] at hs
  obtain ⟨o, _, rfl, ho, tokens', _, rfl, hl, o', _, rfl, ho', rfl⟩ := hs
  have hr := read_closed ho' (read_of_readAll (readAll_of_lexemes hl h)) rest
  have hr : (Level.ofDepth (depth + 3) depth).nested .expression (tokens' ++ o' :: rest) =
      .ok (t, o' :: rest) :=
    read_of_le (o := .done t) (Nat.le_add_right depth 3) (Nat.le_refl _) hr nofun
  refine Level.operand_of_parenthesis ho ?_ ho'
  simpa using hr

theorem readAll_parenthesized {tokens' : List Token} (h : readAll depth tokens = .ok t)
    (hl : tokens'.map Token.lexeme =
      .punctuation "(" :: (tokens.map Token.lexeme ++ [.punctuation ")"])) :
    readAll (depth + 3) tokens' = .ok t := by
  have hd := Derives.parenthesized (readAll_sound h)
  have hf := (operand_found h).covered Category.expression_covers_operand hd
  have hr := hf.nested .expression [] hl nofun
  rw [List.append_nil] at hr
  exact readAll_of_read hr

end Phrase

-- Only a refusal for being too deep tells the limit.
theorem ParseFault.ofRefusal_eq (depth depth' : Nat) (source : String) (refusal : Refusal) :
    ofRefusal source depth refusal = ofRefusal source depth' refusal ∨
      (ofRefusal source depth refusal).cause.kind = .tooDeeplyNested :=
  match refusal with
  | .unexpected _ []       => .inl rfl
  | .unexpected _ (_ :: _) => .inl rfl
  | .outOfRange _          => .inl rfl
  | .trailing _            => .inl rfl
  | .tooDeep _             => .inr rfl

namespace Tree

variable {depth depth' : Nat} {source : String} {t : Tree}

theorem ofSource_of_le (h : depth ≤ depth') (source : String) :
    ofSource depth source = ofSource depth' source ∨
      ∃ fault, ofSource depth source = .error fault ∧ fault.cause.kind = .tooDeeplyNested := by
  match hs : tokenize source with
  | .error _ => exact .inl ((ofSource_of_error hs).trans (ofSource_of_error hs).symm)
  | .ok []   => exact .inl ((ofSource_of_nil hs).trans (ofSource_of_nil hs).symm)
  | .ok (t :: tokens) =>
    have hx : ofSource depth source = _ := ofSource_of_cons hs
    have hy : ofSource depth' source = _ := ofSource_of_cons hs
    match Phrase.readAll_of_le h (t :: tokens) with
    | .inr ⟨rest, he⟩ => exact .inr ⟨_, by rw [hx, he]; rfl, rfl⟩
    | .inl he =>
      rw [← he] at hy
      rw [hx, hy]
      match Phrase.readAll depth (t :: tokens) with
      | .ok _          => exact .inl (by simp only [Except.mapError])
      | .error refusal =>
        match ParseFault.ofRefusal_eq depth depth' source refusal with
        | .inl hf => exact .inl (by simp only [Except.mapError, hf])
        | .inr hk => exact .inr ⟨_, rfl, hk⟩

theorem ofSource_parenthesized (h : ofSource depth source = .ok t) :
    ofSource (depth + 3) ("(" ++ source ++ "\n)") = .ok t := by
  have ⟨tokens, hs, hr⟩ := readAll_of_ofSource h
  have hd := Phrase.readAll_sound hr
  have hc : Scan.Lexes [')'] [.punctuation ")"] := .of_scans (.punctuation (c := ')') rfl .nil)
  have hc := (Scan.Lexes.line (tokenize_eq_ok_iff.mp hs) hd.not_slashed hc).punctuation
    (c := '(') rfl
  have he : ("(" ++ source ++ "\n)").toList = '(' :: (source.toList ++ ['\n', ')']) := by simp
  have ⟨tokens', ht, hl⟩ := tokenize_of_lexes (he ▸ hc)
  have hr := Phrase.readAll_parenthesized hr hl
  exact ofSource_of_readAll ht (Phrase.readAll_sound hr) hr

-- A limit on nesting only ever refuses, and parentheses around a program use up three levels.
theorem ofSource_depth_only_refuses (source : String) :
    (∀ depth depth', depth ≤ depth' → ofSource depth source = ofSource depth' source ∨
      ∃ fault, ofSource depth source = .error fault ∧ fault.cause.kind = .tooDeeplyNested) ∧
    ∀ depth t, ofSource depth source = .ok t →
      ofSource (depth + 3) ("(" ++ source ++ "\n)") = .ok t :=
  ⟨fun _ _ h => ofSource_of_le h source, fun _ _ => ofSource_parenthesized⟩

theorem commented_depth_only_refuses :
    (ofSource 2 "x // y" = ofSource 3 "x // y" ∨
      ∃ fault, ofSource 2 "x // y" = .error fault ∧ fault.cause.kind = .tooDeeplyNested) ∧
    ofSource 3 "x // y" = .ok (.name "x") ∧
    ofSource 6 ("(" ++ "x // y" ++ "\n)") = .ok (.name "x") := by
  have hx : ofSource 3 "x // y" = .ok (.name "x") := Except.eq_ok_of_toOption (by decide +kernel)
  have h := ofSource_depth_only_refuses "x // y"
  exact ⟨h.1 2 3 (by decide), hx, h.2 3 _ hx⟩

end Tree

end RpalMachine
