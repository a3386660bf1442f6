import RpalMachine.Proofs.Scopes

namespace RpalMachine

-- With so many values on the stack, the code runs and leaves a single one.
inductive Ready : Nat → List Symbol → Prop
  | done : Ready 1 []
  | name {n : Nat} {code : List Symbol} (x : String) :
    Ready (n + 1) code → Ready n (.identifier x :: code)
  | constant {n : Nat} {code : List Symbol} (c : Constant) :
    Ready (n + 1) code → Ready n (c.symbol :: code)
  | lambda {n : Nat} {code : List Symbol} (id : Nat) (params : List String) (label : Nat)
    (body : Core) :
    Ready (n + 1) code → Ready n (.lambda ⟨id, params, ⟨label, body.code⟩, none⟩ :: code)
  | gamma {n : Nat} {code : List Symbol} :
    Ready (n + 1) code → Ready (n + 2) (.gamma :: code)
  | tau {n : Nat} {code : List Symbol} (count : Nat) :
    Ready (n + 1) code → Ready (n + count) (.tau count :: code)
  | unary {n : Nat} {code : List Symbol} (op : UnaryOperator) :
    Ready (n + 1) code → Ready (n + 1) (.unary op :: code)
  | binary {n : Nat} {code : List Symbol} (op : BinaryOperator) :
    Ready (n + 1) code → Ready (n + 2) (.binary op :: code)
  | test {n : Nat} {code : List Symbol} (condition : Core) :
    Ready (n + 1) code → Ready n (.test condition.code :: code)
  | beta {n : Nat} {code : List Symbol} (noLabel yesLabel : Nat) (no yes : Core) :
    Ready (n + 1) code →
      Ready (n + 1) (.beta :: .delta ⟨noLabel, no.code⟩ :: .delta ⟨yesLabel, yes.code⟩ :: code)
  | delta {n : Nat} {code : List Symbol} (label : Nat) (body : Core) :
    Ready (n + 1) code → Ready n (.delta ⟨label, body.code⟩ :: code)

namespace Core

mutual

theorem ready {n : Nat} {rest : List Symbol} :
    (c : Core) → Ready (n + 1) rest → Ready n (c.code ++ rest)
  | name x, h                     => .name x h
  | constant c, h                 => .constant c h
  | lambda id params label body, h => .lambda id params label body h
  | apply fn arg, h => by
    simp only [code, List.append_assoc, List.singleton_append]
    exact ready arg (ready fn (.gamma h))
  | tuple elements, h => by
    simp only [code, List.append_assoc, List.singleton_append]
    exact ready_forest elements (.tau _ h)
  | unary op operand, h => by
    simp only [code, List.append_assoc, List.singleton_append]
    exact ready operand (.unary op h)
  | binary op left right, h => by
    simp only [code, List.append_assoc, List.singleton_append]
    exact ready right (ready left (.binary op h))
  | conditional condition yesLabel yes noLabel no, h =>
    .test condition (.beta noLabel yesLabel no yes h)

theorem ready_forest {n : Nat} {rest : List Symbol} :
    (cs : List Core) → Ready (n + cs.length) rest → Ready n (forestCode cs ++ rest)
  | [], h => h
  | c :: cs, h => by
    simp only [forestCode, List.append_assoc]
    exact ready_forest cs (ready c (Nat.add_assoc .. ▸ h))

end

end Core

-- Control and stack belong together, except that so many values are still due from above. Their
-- markers are the given ones.
inductive Balanced (scopes : List (Scope Value)) :
    (due : Nat) → (markers : List Nat) → (control stack : List Symbol) → Prop
  | bottom {due : Nat} (vs : List Value) :
    vs.length + due = 1 → (∀ v ∈ vs, v.Known scopes) → Balanced scopes due [] [] (Value.symbols vs)
  | call {due : Nat} {markers : List Nat} {control stack code : List Symbol} (vs : List Value)
    (i : Nat) :
    Ready (vs.length + due) code → (∀ v ∈ vs, v.Known scopes) →
      Balanced scopes 1 markers control stack →
        Balanced scopes due (i :: markers) (code ++ .marker i :: control)
          (Value.symbols vs ++ .marker i :: stack)

namespace Balanced

variable {scopes scopes' : List (Scope Value)} {due : Nat} {markers : List Nat}
variable {control stack : List Symbol}

theorem mono (b : Balanced scopes due markers control stack) (h : scopes <+: scopes') :
    Balanced scopes' due markers control stack := by
  induction b
  case bottom vs hl hk      => exact .bottom vs hl fun v hv => (hk v hv).mono h
  case call vs i hr hk _ hi => exact .call vs i hr (fun v hv => (hk v hv).mono h) hi

-- A value that was due has come.
theorem push {v : Value} (hv : v.Known scopes) :
    {control stack : List Symbol} → Balanced scopes 1 markers control stack →
      Balanced scopes 0 markers control (v.symbol :: stack)
  | _, _, .bottom vs hl hk   => .bottom (v :: vs) hl (List.forall_mem_cons.mpr ⟨hv, hk⟩)
  | _, _, .call vs i hr hk b => .call (v :: vs) i hr (List.forall_mem_cons.mpr ⟨hv, hk⟩) b

-- Without code there is a value and nothing else.
theorem of_nil {control stack : List Symbol} (b : Balanced scopes 0 markers control stack)
    (h : control = []) : markers = [] ∧ ∃ v : Value, stack = [v.symbol] :=
  match b, h with
  | .bottom [v] _ _, _ => ⟨rfl, v, rfl⟩
  | .call .., h        => absurd h (by simp)

end Balanced

end RpalMachine
