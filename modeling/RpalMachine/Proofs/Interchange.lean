import RpalMachine.Tree.Interchange
import RpalMachine.Proofs.Compact.Document
import RpalMachine.Proofs.Programs

namespace RpalMachine

open Json (maxNesting)

-- How many arrays and objects of the document of a leaf are inside of each other.
def Leaf.documentNesting : Leaf → Nat
  | identifier _ | integer _ | string _ => 1
  | _                                   => 0

namespace Tree

mutual

-- How many arrays and objects of the document of a tree are inside of each other.
def documentNesting : Tree → Nat
  | node (.leaf l) _        => l.documentNesting
  | node (.form _) children => 2 + maxDocumentNesting children

def maxDocumentNesting : List Tree → Nat
  | []      => 0
  | t :: ts => max t.documentNesting (maxDocumentNesting ts)

end

-- No leaf has children.
inductive Proper : Tree → Prop
  | leaf (l : Leaf) : Proper (.leaf l)
  | form {f : Form} {ts : List Tree} : (∀ t ∈ ts, Proper t) → Proper (form f ts)

-- The tree can be handed on as a document.
structure Interchangeable (t : Tree) : Prop where
  proper : t.Proper
  nesting_le : t.documentNesting ≤ maxNesting

variable {codec : Json.Codec} {t : Tree} {ts : List Tree} {n : Nat}

theorem maxDocumentNesting_le_iff :
    maxDocumentNesting ts ≤ n ↔ ∀ t ∈ ts, t.documentNesting ≤ n := by
  induction ts
  case nil          => simp [maxDocumentNesting]
  case cons t ts hi => rw [maxDocumentNesting, Nat.max_le, hi, List.forall_mem_cons]

-- What is written

mutual

theorem nesting_toJson : (t : Tree) → t.toJson.nesting = t.documentNesting
  | node (.leaf l) _ => by
    cases l
    all_goals rfl
  | node (.form f) ts => by
    rw [toJson, Json.Value.nesting_singleton, Json.Value.nesting,
      elementsNesting_forestToJson ts, documentNesting, ← Nat.add_assoc]

theorem elementsNesting_forestToJson :
    (ts : List Tree) → Json.Value.elementsNesting (forestToJson ts) = maxDocumentNesting ts
  | []      => rfl
  | t :: ts => by
    rw [forestToJson, Json.Value.elementsNesting, nesting_toJson t, elementsNesting_forestToJson ts,
      maxDocumentNesting]

end

mutual

theorem exact_toJson : (t : Tree) → t.toJson.Exact
  | node (.leaf l) _ => by
    cases l
    case integer n =>
      have hl := n.le_toInt
      have hu := n.toInt_lt
      refine .singleton (.integer ?_ ?_)
      · simpa using hl
      · exact Int.lt_trans hu (by decide)
    case identifier x => exact .singleton (.string x)
    case string s     => exact .singleton (.string s)
    all_goals exact .string _
  | node (.form f) ts => .singleton (.array (exact_forestToJson ts))

theorem exact_forestToJson : (ts : List Tree) → ∀ v ∈ forestToJson ts, v.Exact
  | []      => nofun
  | t :: ts => List.forall_mem_cons.mpr ⟨exact_toJson t, exact_forestToJson ts⟩

end

theorem forestOfJson_forestToJson (h : ∀ t ∈ ts, ofJson codec t.toJson = .ok t) :
    forestOfJson codec (forestToJson ts) = .ok ts := by
  induction ts
  case nil => rfl
  case cons t ts hi =>
    have ⟨ht, hts⟩ := List.forall_mem_cons.mp h
    rw [forestToJson, forestOfJson, ht, hi hts]
    rfl

theorem ofJson_toJson (codec : Json.Codec) (h : t.Proper) : ofJson codec t.toJson = .ok t := by
  induction h
  case leaf l =>
    cases l
    case integer n => simp [toJson, ofJson, leafOfNumber]
    case truth b   => cases b <;> rfl
    all_goals rfl
  case form f ts _ hi =>
    rw [toJson, ofJson, Form.ofKeyword?_keyword, forestOfJson_forestToJson hi]
    rfl

-- What is read

theorem exists_of_forestOfJson {vs : List Json.Value} (h : forestOfJson codec vs = .ok ts) :
    ∀ t ∈ ts, ∃ v ∈ vs, ofJson codec v = .ok t := by
  induction vs generalizing ts
  case nil =>
    cases h
    exact nofun
  case cons v vs hi =>
    rw [forestOfJson] at h
    cases hv : ofJson codec v <;> rw [hv] at h
    case error => contradiction
    case ok t =>
      cases hs : forestOfJson codec vs <;> rw [hs] at h
      case error => contradiction
      case ok us =>
        cases h
        refine List.forall_mem_cons.mpr ⟨⟨v, List.mem_cons_self, hv⟩, fun u hu => ?_⟩
        have ⟨w, hw, ho⟩ := hi hs u hu
        exact ⟨w, List.mem_cons_of_mem v hw, ho⟩

theorem documentNesting_of_ofWord? {word : String} {l : Leaf} (h : Leaf.ofWord? word = some l) :
    l.documentNesting = 0 := by
  rw [Leaf.ofWord?.eq_def] at h
  split at h
  case h_7 => contradiction
  all_goals
    cases h
    rfl

theorem leaf_of_leafOfNumber {number : Json.Number} (h : leafOfNumber codec number = .ok t) :
    ∃ a, t = .leaf (.integer a) := by
  cases number
  case float   => contradiction
  case integer n =>
    rw [leafOfNumber] at h
    cases ha : integer? n <;> rw [ha] at h <;> cases h
    exact ⟨_, rfl⟩

-- A tree that is read is a leaf, or its children are.
theorem ofJson_eq_ok {v : Json.Value} (h : ofJson codec v = .ok t) :
    (∃ l : Leaf, t = .leaf l ∧ l.documentNesting ≤ v.nesting) ∨
      ∃ key values f ts, v = .object [(key, .array values)] ∧ forestOfJson codec values = .ok ts ∧
        t = form f ts := by
  rw [ofJson.eq_def] at h
  split at h
  case h_1 word =>
    split at h
    case h_1 l hl =>
      cases h
      exact .inl ⟨l, rfl, Nat.le_of_eq (documentNesting_of_ofWord? hl)⟩
    case h_2 => contradiction
  case h_2 x =>
    cases h
    exact .inl ⟨_, rfl, Nat.le_add_right 1 _⟩
  case h_3 s =>
    cases h
    exact .inl ⟨_, rfl, Nat.le_add_right 1 _⟩
  case h_4 n =>
    have ⟨a, ha⟩ := leaf_of_leafOfNumber h
    exact .inl ⟨_, ha, Nat.le_add_right 1 _⟩
  case h_5 key values =>
    split at h
    case h_1 f _ =>
      cases hs : forestOfJson codec values <;> rw [hs] at h <;> cases h
      exact .inr ⟨_, _, _, _, rfl, hs, rfl⟩
    case h_2 => contradiction
  all_goals contradiction

-- By induction on the nesting of the document.
theorem proper_of_ofJson {v : Json.Value} (h : ofJson codec v = .ok t) :
    t.Proper ∧ t.documentNesting ≤ v.nesting := by
  induction hn : v.nesting using Nat.strongRecOn generalizing v t
  case ind n hi =>
    subst hn
    cases ofJson_eq_ok h
    case inl h =>
      have ⟨l, ht, hl⟩ := h
      subst ht
      exact ⟨.leaf l, hl⟩
    case inr h =>
      have ⟨key, values, f, ts, hv, hs, ht⟩ := h
      subst hv ht
      have hts : ∀ t ∈ ts, t.Proper ∧ t.documentNesting ≤ Json.Value.elementsNesting values := by
        intro t ht
        have ⟨v, hv, ho⟩ := exists_of_forestOfJson hs t ht
        have hm := Json.Value.elementsNesting_le_iff.mp (Nat.le_refl _) v hv
        have hl : v.nesting < (Json.Value.object [(key, .array values)]).nesting := by
          rw [Json.Value.nesting_singleton, Json.Value.nesting]
          omega
        have ⟨hp, hn⟩ := hi v.nesting hl ho rfl
        exact ⟨hp, Nat.le_trans hn hm⟩
      have hm := maxDocumentNesting_le_iff.mpr fun t ht => (hts t ht).2
      rw [Json.Value.nesting_singleton, Json.Value.nesting, documentNesting]
      exact ⟨.form fun t ht => (hts t ht).1, by omega⟩

-- What is handed on

theorem exists_value_of_ofJsonText {text : String} (h : ofJsonText codec text = .ok t) :
    ∃ v, codec.read text = .ok v ∧ ofJson codec v = .ok t := by
  rw [ofJsonText, ofDocument] at h
  cases hv : codec.read text <;> rw [hv] at h
  case error => contradiction
  case ok v =>
    cases ho : ofJson codec v <;> simp only [ho] at h <;> cases h
    exact ⟨v, rfl, ho⟩

section
variable (lawful : codec.Lawful)
include lawful

theorem jsonText_reads_back (h : t.Interchangeable) :
    ofJsonText codec (t.jsonText codec) = .ok t := by
  have hn : t.toJson.nesting ≤ maxNesting := nesting_toJson t ▸ h.nesting_le
  rw [ofJsonText, ofDocument, jsonText, lawful.reads_back (exact_toJson t) hn]
  simp only [ofJson_toJson codec h.proper]
  rfl

theorem interchangeable_of_ofJsonText {text : String} (h : ofJsonText codec text = .ok t) :
    t.Interchangeable := by
  have ⟨v, hv, ho⟩ := exists_value_of_ofJsonText h
  have ⟨hp, hn⟩ := proper_of_ofJson ho
  exact ⟨hp, Nat.le_trans hn (lawful.nesting_le hv)⟩

end

theorem Shaped.proper {single : Tree → Prop} {role : Role} (h : Shaped single role t) :
    t.Proper := by
  induction h
  case form hr _ _ hi => exact .form (forall_of_forall_zip hr hi)
  all_goals exact .leaf _

-- A level of a tree is two levels of its document, but a level of leaves is at most one.
theorem Shaped.documentNesting_lt {single : Tree → Prop} {role : Role} (h : Shaped single role t) :
    t.documentNesting < 2 * t.height := by
  induction h
  case literal l _ => cases l <;> simp [documentNesting, Leaf.documentNesting, height, maxHeight]
  case form f ts roles _ hr _ _ hi =>
    have hn : ∀ t ∈ ts, t.documentNesting < 2 * t.height := forall_of_forall_zip hr hi
    have ht : ∀ t ∈ ts, t.documentNesting < 2 * maxHeight ts := fun t ht =>
      Nat.lt_of_lt_of_le (hn t ht) (Nat.mul_le_mul_left 2 (height_le_maxHeight ht))
    have hne : ts ≠ [] := fun he => by
      subst he
      cases f <;> contradiction
    obtain ⟨u, hu⟩ := List.exists_mem_of_ne_nil ts hne
    have hu := ht u hu
    have hm := maxDocumentNesting_le_iff.mpr fun t h => Nat.le_sub_one_of_lt (ht t h)
    simp only [documentNesting, height]
    omega
  all_goals simp [documentNesting, Leaf.documentNesting, height, maxHeight]

theorem interchangeable_of_ofSource {source : String} (h : ofSource defaultDepth source = .ok t) :
    t.Interchangeable := by
  have ⟨_, _, hd⟩ := ofSource_sound h
  have hs : Shaped _ .expression t := hd.shaped
  have hl := hs.documentNesting_lt
  have hh : t.height ≤ 64 := height_le_of_ofSource h
  exact ⟨hs.proper, by rw [maxNesting]; omega⟩

-- With any codec that keeps the laws, the trees that are read back from their own documents are
-- those in which no leaf has children and whose documents are not nested too deep. They include
-- whatever is read from a document, however that is written, and whatever is read from a source
-- text that keeps to the usual limit.
theorem jsonText_round_trip (lawful : codec.Lawful) :
    (∀ t : Tree, t.toJson.nesting = t.documentNesting) ∧
    (∀ t : Tree, ofJsonText codec (t.jsonText codec) = .ok t ↔ t.Interchangeable) ∧
    (∀ (text : String) (t : Tree), ofJsonText codec text = .ok t →
      t.Interchangeable ∧ ofJsonText codec (t.jsonText codec) = .ok t) ∧
    (∀ (source : String) (t : Tree), ofSource defaultDepth source = .ok t →
      t.Interchangeable ∧ ofJsonText codec (t.jsonText codec) = .ok t) := by
  refine ⟨nesting_toJson, fun t => ⟨?_, ?_⟩, fun text t h => ?_, fun source t h => ?_⟩
  case refine_1 => exact interchangeable_of_ofJsonText lawful
  case refine_2 => exact jsonText_reads_back lawful
  case refine_3 =>
    have hi := interchangeable_of_ofJsonText lawful h
    exact ⟨hi, jsonText_reads_back lawful hi⟩
  case refine_4 =>
    have hi := interchangeable_of_ofSource h
    exact ⟨hi, jsonText_reads_back lawful hi⟩

-- A definition by a function, whose body is a text that needs an escape.
def quoting : Tree :=
  form .letIn [form .function [name "f", name "x", leaf (.string "\"")], name "f"]

-- Its form goes by another name, a key is repeated and the escape is by a code.
def quotingDocument : String :=
  "\x7b\"let\": [\x7b\"function_form\": [" ++
    "\x7b\"id\": \"f\"\x7d, \x7b\"id\": 1, \"id\": \"x\"\x7d, \x7b\"str\": \"\\u0022\"\x7d" ++
    "]\x7d, \x7b\"id\": \"f\"\x7d]\x7d"

theorem quoting_round_trip :
    Json.compact.Lawful ∧
    (ofJsonText Json.compact quotingDocument = .ok quoting ∧
      ofSource defaultDepth "let f x = '\"' in f" = .ok quoting) ∧
      quoting.Interchangeable ∧
      ofJsonText Json.compact (quoting.jsonText Json.compact) = .ok quoting := by
  have hd : ofJsonText Json.compact quotingDocument = .ok quoting :=
    Except.eq_ok_of_toOption (by decide +kernel)
  have hs : ofSource defaultDepth "let f x = '\"' in f" = .ok quoting :=
    Except.eq_ok_of_toOption (by decide +kernel)
  have ⟨_, _, hr, hp⟩ := jsonText_round_trip Json.compact_lawful
  exact ⟨Json.compact_lawful, ⟨hd, hs⟩, (hp _ _ hs).1, (hr _ _ hd).2⟩

end Tree

end RpalMachine
