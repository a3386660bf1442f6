import RpalMachine.Proofs.Acceptance

namespace RpalMachine

namespace FoundIn

open Reader Level

variable {c d : Category} {ls : List Lexeme} {t : Tree} {m n : Nat}

-- Where another phrase could come first or something could follow, neither does.
theorem alone (hc : c.alone? = some d) (hd : Derives d ls t) (h : FoundIn (.ofDepth m n) d ls t) :
    FoundIn (.ofDepth m (n + (c.rank - d.rank))) c ls t := by
  intro s rest hs hr
  have ne {l} (hl : d.begins l = false) := hd.skip?_eq (l := l) rest hs hl
  have sound := ofDepth_sound m n
  cases c <;> cases hc
  case expression =>
    have hx := h.all sound rest hs hr
    exact bind_of_ok (ne (l := .keyword "let") rfl) (bind_of_ok (ne (l := .keyword "fn") rfl) hx)
  case negation  => exact marked_of_skip? (ne rfl) (h.all sound rest hs hr)
  case recursion => exact marked_of_skip? (ne rfl) (h.all sound rest hs hr)
  case parameter =>
    exact bind_of_ok (ne (l := .punctuation "(") rfl) (h.all sound rest hs hr)
  case clause =>
    have hx := h.all sound rest hs (hr.mono (by decide))
    exact joined_of_skip? hx (hr.skip?_eq (by decide))
  case conditional =>
    have hx := h.all sound rest hs (hr.mono (by decide))
    exact bind_of_ok hx (by simp [hr.skip?_eq (l := .operator "->") (by decide)]; rfl)
  case power =>
    have hx := h.all sound rest hs (hr.mono (by decide))
    exact joined_of_skip? hx (hr.skip?_eq (by decide))
  case definition =>
    have hx := h.all sound rest hs (hr.mono (by decide))
    exact joined_of_skip? hx (hr.skip?_eq (by decide))
  case comparison =>
    have hx := h.all sound rest hs (hr.mono (by decide))
    have ht : takeIf comparison? rest = .ok (none, rest) := hr.takeIf_eq fun l op hl =>
      Nat.le_of_eq (Category.looseness_of_comparisons (comparison?_eq_some_iff.mp hl))
    exact bind_of_ok hx (by simp [ht]; rfl)
  case tuple | simultaneous | names => exact alone_of_series? sound rfl h hs hr
  case augmentation => exact bind_of_ok (nested .conditional h rest hs hr) rfl
  case product      => exact bind_of_ok (nested .power h rest hs hr) rfl
  case disjunction  => exact bind_of_ok (h.all sound rest hs hr) rfl
  case conjunction  => exact bind_of_ok (h.all sound rest hs hr) rfl
  case infixCall    => exact bind_of_ok (h.all sound rest hs hr) rfl
  case application  => exact bind_of_ok (h.all sound rest hs hr) rfl
  case sum =>
    have hx := h.all sound rest hs hr
    refine bind_of_ok ?_ rfl
    simpa [Category.reader, signed, ne (l := .operator "-") rfl, ne (l := .operator "+") rfl]
      using hx
  case operand =>
    obtain ⟨x, rfl, rfl⟩ := hd.eq_of_name
    obtain ⟨o, rfl, ho⟩ := List.map_eq_singleton_iff.mp hs
    exact operand_of_identifier ho

-- The levels that are gone down through must be there.
theorem covered (hc : c.Covers d) (hd : Derives d ls t) (h : FoundIn (.ofDepth m n) d ls t) :
    FoundIn (.ofDepth m (n + (c.rank - d.rank))) c ls t := by
  induction hc using Relation.ReflTransGen.head_induction_on
  case refl => simpa using h
  case head c e hce hed hi =>
    have hr := Category.rank_le_of_alone? hce
    have hr' := Category.rank_le_of_covers hed
    have he : n + (c.rank - d.rank) = n + (e.rank - d.rank) + (c.rank - e.rank) := by omega
    exact he ▸ hi.alone hce (hd.covered hed)

end FoundIn

namespace AcceptsAt

open Reader Level

variable {c d : Category} {ls : List Lexeme} {t : Tree} {n : Nat}

theorem alone (hc : c.alone? = some d) (hd : Derives d ls t) (h : AcceptsAt n d ls t) :
    AcceptsAt (n + (c.rank - d.rank)) c ls t :=
  fun _ _ _ hs hh hr => (h.foundIn hh).alone hc hd hs hr

theorem minus (ht : AcceptsAt n .product ls t) :
    AcceptsAt n .sum (.operator "-" :: ls) (.form (.unary .neg) [t]) := by
  intro m s rest hs hh hr
  obtain ⟨o, s, rfl, ho, hs⟩ := List.map_eq_cons_iff.mp hs
  have hx := ht.all rest hs (Tree.height_le_of_form hh (by simp)) hr
  refine bind_of_ok ?_ rfl
  simp only [Category.reader] at hx
  simp [signed, skip?_of_eq ho, hx, build_ofDepth hh]

theorem leaf {l : Lexeme} (h : ∀ {level : Level} {o : Token} {s : List Token}, o.lexeme = l →
    level.operand (o :: s) = .ok (t, s)) : AcceptsAt n .operand [l] t := by
  intro m s rest hs hh hr
  have ⟨o, hs, ho⟩ := List.map_eq_singleton_iff.mp hs
  exact hs ▸ h ho

theorem parenthesized (ht : AcceptsAt n .expression ls t) :
    AcceptsAt (n + 1) .operand (.punctuation "(" :: (ls ++ [.punctuation ")"])) t := by
  intro m s rest hs hh hr
  simp only [List.map_eq_cons_iff, List.map_eq_append_iff, List.map_eq_nil_iff] at hs
  obtain ⟨o, _, rfl, ho, s, _, rfl, hs, o', _, rfl, ho', rfl⟩ := hs
  have hx := nested .expression ht (o' :: rest) hs hh (.cons ho' (by decide))
  refine operand_of_parenthesis ho ?_ ho'
  simpa using hx

end AcceptsAt

namespace Accepts

open Reader Level

variable {c d : Category} {ls ms ns : List Lexeme} {t u v : Tree} {m n : Nat} {s : List Token}
  {op : BinaryOperator}

theorem alone (hc : c.alone? = some d) (hd : Derives d ls t) (h : Accepts d ls t) :
    Accepts c ls t := by
  intro m n s rest hs hh hn hr
  have hk := Category.rank_le_of_alone? hc
  have hlen := congrArg List.length hs
  rw [List.length_map] at hlen
  simp only [Category.depth] at hn
  have ⟨k, hk⟩ : ∃ k, n = k + (c.rank - d.rank) := ⟨n - (c.rank - d.rank), by omega⟩
  subst hk
  have h := h.atLevels (n := k) (by simp only [Category.depth]; omega)
  exact h.alone hc hd hs hh hr

theorem chain {mark : Lexeme} (hop : (mark, op) ∈ c.operators) (hc : c.alone? = some d)
    (ht : Accepts c ls t) (hu : Accepts d ms u) :
    Accepts c (ls ++ mark :: ms) (.form (.binary op) [t, u]) := by
  intro m n s rest hs hh hn hr
  simp only [List.map_eq_cons_iff, List.map_eq_append_iff] at hs
  obtain ⟨s, _, rfl, hs, o, s', rfl, ho, hs'⟩ := hs
  have ⟨hd, hm, _⟩ := Category.looseness_of_operators hop hc
  have hop' : c.operator? o.lexeme = some op := ho ▸ Category.operator?_eq_some_iff.mpr hop
  have hht := Tree.height_le_of_form hh (t := t) (by simp)
  have hhu := Tree.height_le_of_form hh (t := u) (by simp)
  have sound := ofDepth_sound m n
  simp at hn
  rw [List.append_assoc]
  refine (ht hs hht (by simp; omega) (.cons ho hm)).trans ?_
  cases c <;> cases hc
  case augmentation =>
    have hx := nested (n := n) .conditional hu rest hs' hhu (by simp at hn ⊢; omega) hr
    exact leftChain_of_some (sound .conditional) hop' hx hh
  case product =>
    have hx := nested (n := n) .power hu rest hs' hhu (by simp at hn ⊢; omega) hr
    exact leftChain_of_some (sound .power) hop' hx hh
  case sum =>
    have hx := hu.all (n := n) rest hs' hhu (by simp at hn ⊢; omega) hr
    exact leftChain_of_some (product_reads sound) hop' hx hh
  case conjunction =>
    have hx := hu.all (n := n) rest hs' hhu (by simp at hn ⊢; omega) hr
    exact leftChain_of_some (negation_reads sound) hop' hx hh
  case disjunction =>
    have hx := hu.all (n := n) rest hs' hhu (by simp at hn ⊢; omega) hr
    exact leftChain_of_some (conjunction_reads sound) hop' hx hh
  all_goals contradiction

theorem letIn (hd : Accepts .definition ls t) (ht : Accepts .expression ms u) :
    Accepts .expression (.keyword "let" :: (ls ++ .keyword "in" :: ms)) (.form .letIn [t, u]) := by
  intro m n s rest hs hh hn hr
  simp only [List.map_eq_cons_iff, List.map_eq_append_iff] at hs
  obtain ⟨o, _, rfl, ho, s, _, rfl, hs, o', s', rfl, ho', hs'⟩ := hs
  simp at hn
  have hx := nested (n := n) .definition hd (o' :: (s' ++ rest)) hs
    (Tree.height_le_of_form hh (by simp)) (by simp; omega) (.cons ho' (by decide))
  have hy := nested (n := n) .expression ht rest hs'
    (Tree.height_le_of_form hh (by simp)) (by simp; omega) hr
  simp [Category.reader, expression, skip?_of_eq ho, hx, expect_of_eq ho', hy, build_ofDepth hh,
    Category.loop]

theorem lambda {pieces : Pieces} (hne : pieces ≠ [])
    (hd : ∀ p ∈ pieces, Derives .parameter p.1 p.2)
    (hp : ∀ p ∈ pieces, Accepts .parameter p.1 p.2) (ht : Accepts .expression ls t) :
    Accepts .expression (.keyword "fn" :: (pieces.lexemes ++ .operator "." :: ls))
      (.form .lambda (pieces.trees ++ [t])) := by
  intro m n s rest hs hh hn hr
  cases pieces
  case nil => contradiction
  case cons p pieces =>
    simp only [Pieces.lexemes, List.flatMap_cons, List.map_eq_cons_iff,
      List.map_eq_append_iff] at hs
    obtain ⟨o, _, rfl, ho, _, _, rfl, ⟨s, s', rfl, hs, hs'⟩, o', s'', rfl, ho', hs''⟩ := hs
    have hht {t} (h : t ∈ p.2 :: Pieces.trees pieces) : t.height ≤ m :=
      Tree.height_le_of_form hh (List.mem_append_left _ h)
    simp at hn
    have hx := all (hp p (by simp)) (n := n) (s' ++ o' :: (s'' ++ rest)) hs (hht (by simp))
      (by simp; omega) .zero
    have hy := parametersUntil (n := n) (s'' ++ rest) (fun p h => hd p (.tail _ h))
      (fun p h => hp p (.tail _ h)) hs' (fun t h => hht (.tail _ h)) (by simp; omega) ho' rfl
    have hz := nested (n := n) .expression ht rest hs''
      (Tree.height_le_of_form hh (by simp)) (by simp; omega) hr
    have hne : o.lexeme ≠ .keyword "let" := by simp [ho]
    have hb := build_ofDepth (n := n) (s := rest) hh
    simp only [Category.reader] at hx
    simp [Pieces.trees] at hy hb
    simp [Category.reader, expression, skip?_cons_of_ne hne, skip?_of_eq ho, hx, hy, hz, hb,
      Category.loop, Pieces.trees]

theorem whereIn (ht : Accepts .tuple ls t) (hd : Accepts .recursion ms u) :
    Accepts .clause (ls ++ .keyword "where" :: ms) (.form .whereIn [t, u]) := by
  intro m n s rest hs hh hn hr
  simp only [List.map_eq_cons_iff, List.map_eq_append_iff] at hs
  obtain ⟨s, _, rfl, hs, o, s', rfl, ho, hs'⟩ := hs
  simp at hn
  have hx := ht.all (n := n) (o :: (s' ++ rest)) hs
    (Tree.height_le_of_form hh (by simp)) (by simp; omega) (.cons ho (by decide))
  have hy := hd.all (n := n) rest hs'
    (Tree.height_le_of_form hh (by simp)) (by simp; omega) hr
  rw [List.append_assoc]
  exact joined_of_eq hx ho hy hh

theorem conditional (ht : Accepts .disjunction ls t) (hu : Accepts .conditional ms u)
    (hv : Accepts .conditional ns v) :
    Accepts .conditional (ls ++ .operator "->" :: (ms ++ .operator "|" :: ns))
      (.form .conditional [t, u, v]) := by
  intro m n s rest hs hh hn hr
  simp only [List.map_eq_cons_iff, List.map_eq_append_iff] at hs
  obtain ⟨s, _, rfl, hs, o, _, rfl, ho, s', _, rfl, hs', o', s'', rfl, ho', hs''⟩ := hs
  simp at hn
  have hx := ht.all (n := n) (o :: (s' ++ o' :: (s'' ++ rest))) hs
    (Tree.height_le_of_form hh (by simp)) (by simp; omega) (.cons ho (by decide))
  have hy := nested (n := n) .conditional hu (o' :: (s'' ++ rest)) hs'
    (Tree.height_le_of_form hh (by simp)) (by simp; omega) (.cons ho' (by decide))
  have hz := nested (n := n) .conditional hv rest hs''
    (Tree.height_le_of_form hh (by simp)) (by simp; omega) hr
  simp only [Category.reader] at hx
  simp [Category.reader, Level.conditional, hx, skip?_of_eq ho, hy, expect_of_eq ho', hz,
    build_ofDepth hh, Category.loop]

theorem negation (ht : Accepts .comparison ls t) :
    Accepts .negation (.keyword "not" :: ls) (.form (.unary .not) [t]) := by
  intro m n s rest hs hh hn hr
  obtain ⟨o, s, rfl, ho, hs⟩ := List.map_eq_cons_iff.mp hs
  simp at hn
  have hx := ht.all (n := n) rest hs (Tree.height_le_of_form hh (by simp)) (by simp; omega) hr
  exact marked_of_eq ho hx hh

theorem comparison {mark : Lexeme} (hop : (mark, op) ∈ comparisons) (ht : Accepts .sum ls t)
    (hu : Accepts .sum ms u) :
    Accepts .comparison (ls ++ mark :: ms) (.form (.binary op) [t, u]) := by
  intro m n s rest hs hh hn hr
  simp only [List.map_eq_cons_iff, List.map_eq_append_iff] at hs
  obtain ⟨s, _, rfl, hs, o, s', rfl, ho, hs'⟩ := hs
  simp at hn
  have hm := Category.looseness_of_comparisons hop
  have hx := ht.all (n := n) (o :: (s' ++ rest)) hs
    (Tree.height_le_of_form hh (by simp)) (by simp; omega) (.cons ho (by rw [hm]; decide))
  have hy := hu.all (n := n) rest hs'
    (Tree.height_le_of_form hh (by simp)) (by simp; omega) (hr.mono (by decide))
  have hop' : comparison? o.lexeme = some op := ho ▸ comparison?_eq_some_iff.mpr hop
  simp only [Category.reader] at hx hy
  simp [Category.reader, Level.comparison, hx, takeIf_of_some hop', hy, build_ofDepth hh,
    Category.loop]

theorem plus (ht : Accepts .product ls t) : Accepts .sum (.operator "+" :: ls) t := by
  intro m n s rest hs hh hn hr
  obtain ⟨o, s, rfl, ho, hs⟩ := List.map_eq_cons_iff.mp hs
  simp at hn
  have hx := ht.all (n := n) rest hs hh (by simp; omega) hr
  have hne : o.lexeme ≠ .operator "-" := by simp [ho]
  refine bind_of_ok ?_ rfl
  simp only [Category.reader] at hx
  simp [signed, skip?_cons_of_ne hne, skip?_of_eq ho, hx]

theorem minus (ht : Accepts .product ls t) :
    Accepts .sum (.operator "-" :: ls) (.form (.unary .neg) [t]) := by
  intro m n s rest hs hh hn hr
  have hlen := congrArg List.length hs
  simp at hn hlen
  exact (ht.atLevels (by simp; omega)).minus hs hh hr

theorem power (ht : Accepts .infixCall ls t) (hu : Accepts .power ms u) :
    Accepts .power (ls ++ .operator "**" :: ms) (.form (.binary .pow) [t, u]) := by
  intro m n s rest hs hh hn hr
  simp only [List.map_eq_cons_iff, List.map_eq_append_iff] at hs
  obtain ⟨s, _, rfl, hs, o, s', rfl, ho, hs'⟩ := hs
  simp at hn
  have hx := ht.all (n := n) (o :: (s' ++ rest)) hs
    (Tree.height_le_of_form hh (by simp)) (by simp; omega) (.cons ho (by decide))
  have hy := nested (n := n) .power hu rest hs'
    (Tree.height_le_of_form hh (by simp)) (by simp; omega) hr
  rw [List.append_assoc]
  exact joined_of_eq hx ho hy hh

theorem infixCall {x : String} (ht : Accepts .infixCall ls t) (hu : Accepts .application ms u) :
    Accepts .infixCall (ls ++ .operator "@" :: .identifier x :: ms)
      (.form .infixCall [t, .name x, u]) := by
  intro m n s rest hs hh hn hr
  simp only [List.map_eq_cons_iff, List.map_eq_append_iff] at hs
  obtain ⟨s, _, rfl, hs, o, _, rfl, ho, o', s', rfl, ho', hs'⟩ := hs
  simp at hn
  have hx := hu.all (n := n) rest hs' (Tree.height_le_of_form hh (by simp)) (by simp; omega) hr
  rw [List.append_assoc]
  refine (ht hs (Tree.height_le_of_form hh (by simp)) (by simp; omega)
    (.cons ho (by decide))).trans ?_
  exact callsAfter_of_eq (ofDepth_sound m n) ho ho' hx hh

theorem application (ht : Accepts .application ls t) (hd : Derives .operand ms u)
    (hu : Accepts .operand ms u) : Accepts .application (ls ++ ms) (.form .gamma [t, u]) := by
  intro m n s rest hs hh hn hr
  obtain ⟨s, s', rfl, hs, hs'⟩ := List.map_eq_append_iff.mp hs
  simp at hn
  have hx := hu.all (n := n) rest hs' (Tree.height_le_of_form hh (by simp)) (by simp; omega) .zero
  rw [List.append_assoc]
  refine (ht hs (Tree.height_le_of_form hh (by simp)) (by simp; omega) .zero).trans ?_
  obtain ⟨o, s', rfl, ho⟩ := hd.head hs'
  exact argumentsAfter_of_starts (ofDepth_sound m n) ho hx hh

theorem leaf {l : Lexeme} (h : ∀ {level : Level} {o : Token} {s : List Token}, o.lexeme = l →
    level.operand (o :: s) = .ok (t, s)) : Accepts .operand [l] t :=
  fun _ _ _ _ hs hh _ hr => AcceptsAt.leaf h hs hh hr

theorem parenthesized (ht : Accepts .expression ls t) :
    Accepts .operand (.punctuation "(" :: (ls ++ [.punctuation ")"])) t := by
  intro m n s rest hs hh hn hr
  have hlen := congrArg List.length hs
  simp at hn hlen
  have ⟨k, hk⟩ : ∃ k, n = k + 1 := ⟨n - 1, by omega⟩
  subst hk
  exact (ht.atLevels (by simp; omega)).parenthesized hs hh hr

theorem within (hd : Accepts .simultaneous ls t) (hu : Accepts .definition ms u) :
    Accepts .definition (ls ++ .keyword "within" :: ms) (.form .within [t, u]) := by
  intro m n s rest hs hh hn hr
  simp only [List.map_eq_cons_iff, List.map_eq_append_iff] at hs
  obtain ⟨s, _, rfl, hs, o, s', rfl, ho, hs'⟩ := hs
  simp at hn
  have hx := hd.all (n := n) (o :: (s' ++ rest)) hs
    (Tree.height_le_of_form hh (by simp)) (by simp; omega) (.cons ho (by decide))
  have hy := nested (n := n) .definition hu rest hs'
    (Tree.height_le_of_form hh (by simp)) (by simp; omega) hr
  rw [List.append_assoc]
  exact joined_of_eq hx ho hy hh

theorem recursive (hd : Accepts .binding ls t) :
    Accepts .recursion (.keyword "rec" :: ls) (.form .recursive [t]) := by
  intro m n s rest hs hh hn hr
  obtain ⟨o, s, rfl, ho, hs⟩ := List.map_eq_cons_iff.mp hs
  simp at hn
  have hx := hd.all (n := n) rest hs (Tree.height_le_of_form hh (by simp)) (by simp; omega) hr
  exact marked_of_eq ho hx hh

theorem equal (hd : Derives .names ls t) (ht : Accepts .names ls t)
    (hu : Accepts .expression ms u) :
    Accepts .binding (ls ++ .operator "=" :: ms) (.form .equal [t, u]) := by
  intro m n s rest hs hh hn hr
  simp only [List.map_eq_cons_iff, List.map_eq_append_iff] at hs
  obtain ⟨s, _, rfl, hs, o, s', rfl, ho, hs'⟩ := hs
  simp at hn
  have hskip := hd.skip?_eq (l := .punctuation "(") (o :: (s' ++ rest)) hs rfl
  obtain ⟨o', s, x, rfl, ho', hx⟩ := namesAfter_of_names (n := n) hd ht (o :: (s' ++ rest)) hs
    (Tree.height_le_of_form hh (by simp)) (by simp; omega) (.cons ho (by decide))
  have hy := nested (n := n) .expression hu rest hs'
    (Tree.height_le_of_form hh (by simp)) (by simp; omega) hr
  have hstart : binding.startsParameter (s.head?.getD o).lexeme = false := by
    cases s
    case nil       => simp [ho, binding.startsParameter]
    case cons o'' _ =>
      subst hs
      simp [hd.head_of_names o''.lexeme rfl, binding.startsParameter]
  rw [List.cons_append] at hskip
  simp [Category.reader, binding, hskip, identifier_of_eq ho', hstart, hx, expect_of_eq ho, hy,
    build_ofDepth hh, Category.loop]

theorem function {pieces : Pieces} {x : String} (hne : pieces ≠ [])
    (hd : ∀ p ∈ pieces, Derives .parameter p.1 p.2)
    (hp : ∀ p ∈ pieces, Accepts .parameter p.1 p.2) (ht : Accepts .expression ls t) :
    Accepts .binding (.identifier x :: (pieces.lexemes ++ .operator "=" :: ls))
      (.form .function (.name x :: pieces.trees ++ [t])) := by
  intro m n s rest hs hh hn hr
  simp only [List.map_eq_cons_iff, List.map_eq_append_iff] at hs
  obtain ⟨o, _, rfl, ho, s, _, rfl, hs, o', s', rfl, ho', hs'⟩ := hs
  simp at hn
  have hskip : o.lexeme ≠ .punctuation "(" := by simp [ho]
  have hx := parametersUntil (n := n) (s' ++ rest) hd hp hs
    (fun t h => Tree.height_le_of_form hh (by simp [h])) (by simp; omega) ho' rfl
  have hy := nested (n := n) .expression ht rest hs'
    (Tree.height_le_of_form hh (by simp)) (by simp; omega) hr
  obtain ⟨o'', s, rfl, hstart⟩ := head_of_pieces hne hd hs
  simp only [Category.begins] at hstart
  rw [List.cons_append] at hx hh
  simp [Category.reader, binding, skip?_cons_of_ne hskip, identifier_of_eq ho, hstart, hx, hy,
    build_ofDepth hh, Category.loop]

theorem parenthesizedDefinition (hd : Accepts .definition ls t) :
    Accepts .binding (.punctuation "(" :: (ls ++ [.punctuation ")"])) t := by
  intro m n s rest hs hh hn hr
  simp only [List.map_eq_cons_iff, List.map_eq_append_iff, List.map_eq_nil_iff] at hs
  obtain ⟨o, _, rfl, ho, s, _, rfl, hs, o', _, rfl, ho', rfl⟩ := hs
  simp at hn
  have hx := nested (n := n) .definition hd (o' :: rest) hs hh (by simp; omega)
    (.cons ho' (by decide))
  simp [Category.reader, binding, skip?_of_eq ho, hx, expect_of_eq ho', Category.loop]

theorem noParameters : Accepts .parameter [.punctuation "(", .punctuation ")"] (.leaf .unit) := by
  intro m n s rest hs hh hn hr
  simp only [List.map_eq_cons_iff, List.map_eq_nil_iff] at hs
  obtain ⟨o, _, rfl, ho, o', _, rfl, ho', rfl⟩ := hs
  simp [Category.reader, parameter, skip?_of_eq ho, skip?_of_eq ho', Category.loop]

theorem parenthesizedNames (hd : Derives .names ls t) (ht : Accepts .names ls t) :
    Accepts .parameter (.punctuation "(" :: (ls ++ [.punctuation ")"])) t := by
  intro m n s rest hs hh hn hr
  simp only [List.map_eq_cons_iff, List.map_eq_append_iff, List.map_eq_nil_iff] at hs
  obtain ⟨o, _, rfl, ho, s, _, rfl, hs, o', _, rfl, ho', rfl⟩ := hs
  simp at hn
  have hskip := hd.skip?_eq (l := .punctuation ")") (o' :: rest) hs rfl
  obtain ⟨o'', s, x, rfl, ho'', hx⟩ := namesAfter_of_names (n := n) hd ht (o' :: rest) hs hh
    (by simp; omega) (.cons ho' (by decide))
  rw [List.cons_append] at hskip
  simp [Category.reader, parameter, skip?_of_eq ho, hskip, identifier_of_eq ho'', hx,
    expect_of_eq ho', Category.loop]

theorem name (x : String) : Accepts .name [.identifier x] (.name x) := by
  intro m n s rest hs hh hn hr
  have ⟨o, hs, ho⟩ := List.map_eq_singleton_iff.mp hs
  exact hs ▸ identifier_of_eq ho

end Accepts

theorem Derives.accepts {c : Category} {ls : List Lexeme} {t : Tree} (h : Derives c ls t) :
    Accepts c ls t := by
  induction h
  case alone hc hd hi            => exact .alone hc hd hi
  case chain hop hc _ _ hi hi'   => exact .chain hop hc hi hi'
  case series hc hne _ _ hi hi'  => exact .series hc hne hi hi'
  case letIn hi hi'              => exact .letIn hi hi'
  case lambda hne hd _ hi hi'    => exact .lambda hne hd hi hi'
  case whereIn hi hi'            => exact .whereIn hi hi'
  case conditional hi hi' hi''   => exact .conditional hi hi' hi''
  case negation hi               => exact .negation hi
  case comparison hop _ _ hi hi' => exact .comparison hop hi hi'
  case plus hi                   => exact .plus hi
  case minus hi                  => exact .minus hi
  case power hi hi'              => exact .power hi hi'
  case infixCall hi hi'          => exact .infixCall hi hi'
  case application _ hd hi hi'   => exact .application hi hd hi'
  case integer hn                => exact .leaf fun ho => Level.operand_of_integer ho hn
  case string                    => exact .leaf Level.operand_of_string
  case truth b =>
    cases b <;> exact .leaf fun ho => Level.operand_of_word ho rfl
  case nil                        => exact .leaf fun ho => Level.operand_of_word ho rfl
  case dummy                      => exact .leaf fun ho => Level.operand_of_word ho rfl
  case parenthesized hi           => exact .parenthesized hi
  case within hi hi'              => exact .within hi hi'
  case recursive hi               => exact .recursive hi
  case equal hd _ hi hi'          => exact .equal hd hi hi'
  case function hne hd _ hi hi'   => exact .function hne hd hi hi'
  case parenthesizedDefinition hi => exact .parenthesizedDefinition hi
  case noParameters               => exact .noParameters
  case parenthesizedNames hd hi   => exact .parenthesizedNames hd hi
  case name x                     => exact .name x

end RpalMachine
