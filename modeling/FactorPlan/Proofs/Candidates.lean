import FactorPlan.Formula.Vocabulary
import FactorPlan.Genetic.Listing
import FactorPlan.Genetic.Registry
import FactorPlan.Proofs.Calls

/-!
Candidates as trees. The pass over a listing keeps the nodes that wait for arguments on a stack,
and a text that is completed may complete any number of nodes below it. It writes what recursion
over the tree writes, whatever stands on the stack and whatever follows (`writesAs_listing`).

The text of a candidate is a formula again, and it has the value of the candidate
(`candidate_faithful`): a difference is a sum with a negated term, a quotient a product with an
inverse, and the other operators are those of the scope.
-/

namespace FactorPlan

namespace Genetic

open Formula (Scope EvalError Value IsWord Forbidden RefusedFor Plain Written WrittenNumber callText nameValue
  functionValue callBuiltin inOrder)

/-! ## Operators -/

/-- The operators with the numbers of their arguments. The largest and the smallest of whole numbers
are no operators of the search, but they are written if they are listed. -/
def arities : List (String × Nat) :=
  operators.map (fun o => (o.name, o.takes.length)) ++ [("imax", 2), ("imin", 2)]

/-- The operators that have another form than their own. -/
def converted : List String :=
  ["fadd", "iadd", "fsub", "isub", "fmul", "imul", "fdiv", "idiv", "fmax", "imax", "fmin", "imin", "pass_int"]

/-- What formulas have for an operator on two arguments. -/
inductive Counterpart where
  | sum | difference | product | quotient | largest | smallest
  deriving DecidableEq, Repr

def counterpart? : String → Option Counterpart
  | "fadd" | "iadd" => some .sum
  | "fsub" | "isub" => some .difference
  | "fmul" | "imul" => some .product
  | "fdiv" | "idiv" => some .quotient
  | "fmax" | "imax" => some .largest
  | "fmin" | "imin" => some .smallest
  | _ => none

namespace Counterpart

def text (a b : String) : Counterpart → String
  | .sum => callText "," "Add" [a, b]
  | .difference => callText ", " "Add" [a, callText "," "Mul" ["-1", b]]
  | .product => callText "," "Mul" [a, b]
  | .quotient => callText ", " "Mul" [a, callText ", " "Pow" [b, "-1"]]
  | .largest => callText "," "Max" [a, b]
  | .smallest => callText "," "Min" [a, b]

def value (a b : Value) : Counterpart → Except EvalError Value
  | .sum => callBuiltin .sum [a, b] []
  | .difference => do callBuiltin .sum [a, ← callBuiltin .product [.int (-1), b] []] []
  | .product => callBuiltin .product [a, b] []
  | .quotient => do callBuiltin .product [a, ← callBuiltin .power [b, .int (-1)] []] []
  | .largest => callBuiltin .largest [a, b] []
  | .smallest => callBuiltin .smallest [a, b] []

end Counterpart

/-- The text of an operator from the texts of its arguments. -/
def operatorText (f : String) : List String → String
  | [a] => if f = "pass_int" then a else callText ", " f [a]
  | [a, b] => match counterpart? f with
    | some c => c.text a b
    | none => callText ", " f [a, b]
  | args => callText ", " f args

/-- The value of an operator from the values of its arguments. -/
def operatorValue (scope : Scope) (f : String) : List (Except EvalError Value) → Except EvalError Value
  | [a] => if f = "pass_int" then a else functionValue scope f [a]
  | [a, b] => match counterpart? f with
    | some c => do c.value (← a) (← b)
    | none => functionValue scope f [a, b]
  | args => functionValue scope f args

/-! ## Trees -/

/-- A candidate: a column or another terminal that is written as its name, a number, or an operator on
candidates. -/
inductive Candidate where
  | terminal (name : String)
  | constant (c : WrittenNumber)
  | node (operator : String) (args : List Candidate)
  deriving Repr

namespace Candidate

/-- Every operator has as many arguments as it takes, and no terminal has the name of an operator that
has another form than its own. -/
inductive Formed : Candidate → Prop
  | terminal {n : String} : n ∉ converted → Formed (.terminal n)
  | constant (c : WrittenNumber) : Formed (.constant c)
  | node {f : String} {args : List Candidate} : (f, args.length) ∈ arities → (∀ a ∈ args, Formed a) →
      Formed (.node f args)

mutual
/-- The nodes, each before its arguments. -/
def listing : Candidate → List Node
  | .terminal n => [⟨n, 0⟩]
  | .constant c => [⟨c.text, 0⟩]
  | .node f args => ⟨f, args.length⟩ :: listings args

def listings : List Candidate → List Node
  | [] => []
  | t :: ts => listing t ++ listings ts
end

mutual
def text : Candidate → String
  | .terminal n => n
  | .constant c => c.text
  | .node f args => operatorText f (texts args)

def texts : List Candidate → List String
  | [] => []
  | t :: ts => text t :: texts ts
end

mutual
/-- The terminals, in the order in which they are read. -/
def terminals : Candidate → List String
  | .terminal n => [n]
  | .constant _ => []
  | .node _ args => terminalsOf args

def terminalsOf : List Candidate → List String
  | [] => []
  | t :: ts => terminals t ++ terminalsOf ts
end

mutual
def value (scope : Scope) : Candidate → Except EvalError Value
  | .terminal n => nameValue scope n
  | .constant c => .ok c.value
  | .node f args => operatorValue scope f (values scope args)

def values (scope : Scope) : List Candidate → List (Except EvalError Value)
  | [] => []
  | t :: ts => value scope t :: values scope ts
end

theorem listings_eq (ts : List Candidate) : listings ts = ts.flatMap listing := by
  induction ts with
  | nil => rfl
  | cons t ts ih => rw [listings, ih, List.flatMap_cons]

theorem texts_eq (ts : List Candidate) : texts ts = ts.map text := by
  induction ts with
  | nil => rfl
  | cons t ts ih => rw [texts, ih, List.map_cons]

theorem terminalsOf_eq (ts : List Candidate) : terminalsOf ts = ts.flatMap terminals := by
  induction ts with
  | nil => rfl
  | cons t ts ih => rw [terminalsOf, ih, List.flatMap_cons]

theorem values_eq (scope : Scope) (ts : List Candidate) : values scope ts = ts.map (value scope) := by
  induction ts with
  | nil => rfl
  | cons t ts ih => rw [values, ih, List.map_cons]

end Candidate

/-! ## Nodes -/

/-- What is true of each of the operators. -/
structure Known (f : String) (n : Nat) : Prop where
  word : IsWord f
  allowed : ¬ Forbidden f
  cases : n = 1 ∧ counterpart? f = none ∨ n = 2 ∧ f ≠ "pass_int"

theorem known_of_mem {f : String} {n : Nat} (h : (f, n) ∈ arities) : Known f n := by
  have hall : ∀ p ∈ arities, IsWord p.1 ∧ Formula.forbidden? p.1 = none ∧
      (p.2 = 1 ∧ counterpart? p.1 = none ∨ p.2 = 2 ∧ p.1 ≠ "pass_int") := by decide +kernel
  obtain ⟨hword, hallowed, hcases⟩ := hall _ h
  exact ⟨hword, Formula.forbidden?_eq_none.mp hallowed, hcases⟩

theorem binaryForm?_of_counterpart? {f : String} {c : Counterpart} (h : counterpart? f = some c) :
    ∃ before between after, binaryForm? f = some (before, between, after) ∧
      ∀ a b, before ++ a ++ between ++ b ++ after = c.text a b := by
  unfold counterpart? at h
  split at h <;> cases h <;> refine ⟨_, _, _, rfl, fun a b => ?_⟩ <;>
    simp [Counterpart.text, callText, String.intercalate_cons_cons, ← String.toList_inj]

theorem binaryForm?_eq_none {f : String} (h : counterpart? f = none) : binaryForm? f = none := by
  unfold counterpart? at h
  split at h <;> simp_all [binaryForm?]

/-- A node is written from the texts of its arguments. -/
theorem write_operator {f : String} {args : List String} (h : (f, args.length) ∈ arities) :
    Node.write ⟨f, args.length⟩ args = .ok (operatorText f args) := by
  rcases (known_of_mem h).cases with ⟨hlength, hnone⟩ | ⟨hlength, hpass⟩
  · obtain ⟨a, rfl⟩ := List.length_eq_one_iff.mp hlength
    simp only [Node.write, binaryForm?_eq_none hnone, operatorText]
    split
    · rfl
    · rfl
  · obtain ⟨a, b, rfl⟩ := List.length_eq_two.mp hlength
    cases hc : counterpart? f with
    | none =>
      simp only [Node.write, binaryForm?_eq_none hc, operatorText, hc, if_neg hpass]
      rfl
    | some c =>
      obtain ⟨before, between, after, hform, htext⟩ := binaryForm?_of_counterpart? hc
      simp only [Node.write, hform, operatorText, hc, htext]

/-- A node without arguments is written as its name. -/
theorem write_terminal {n : String} (h : n ∉ converted) : Node.write ⟨n, 0⟩ [] = .ok n := by
  have hnone : binaryForm? n = none := by
    unfold binaryForm?
    split <;> first | rfl | exact absurd (show _ ∈ converted by decide) h
  have hpass : n ≠ "pass_int" := fun hn => h (hn ▸ by decide)
  simp only [Node.write, hnone, if_neg hpass]
  rfl

theorem first_text (c : WrittenNumber) : ∃ d ds, c.text.toList = d :: ds ∧ (d.isDigit = true ∨ d = '-') := by
  have hminus : ∀ s : String, ("-" ++ s).toList = '-' :: s.toList := fun s => String.toList_append
  cases c with
  | int k =>
    cases k with
    | ofNat n =>
      obtain ⟨d, ds, hds⟩ := List.exists_cons_of_ne_nil (Nat.toDigits_ne_nil (n := n) (b := 10))
      have hd : d.isDigit = true :=
        Nat.isDigit_of_mem_toDigits (b := 10) (n := n) (by decide) (by decide) (by simp [hds])
      exact ⟨d, ds, (String.toList_ofList (l := Nat.toDigits 10 n)).trans hds, .inl hd⟩
    | negSucc n => exact ⟨'-', _, hminus _, .inr rfl⟩
  | decimal negative d =>
    cases negative with
    | false =>
      obtain ⟨c, cs, hcs, hc⟩ := d.first
      refine ⟨c, cs, ?_, .inl hc⟩
      rw [WrittenNumber.text, if_neg Bool.false_ne_true, String.empty_append, String.toList_ofList, hcs]
    | true => exact ⟨'-', _, hminus _, .inr rfl⟩

/-- A number is no operator: these begin with a letter. -/
theorem text_notMem_converted (c : WrittenNumber) : c.text ∉ converted := by
  obtain ⟨d, ds, hds, hd⟩ := first_text c
  have hall : ∀ f ∈ converted, ∀ e ∈ f.toList.head?, ¬ (e.isDigit = true ∨ e = '-') := by decide
  exact fun h => hall _ h d (by rw [hds]; rfl) hd

/-! ## The stack -/

/-- Hands a text that is complete to the node below it. -/
def hand (text : String) : List Frame → Except ListingError (String × List Frame)
  | [] => .ok (text, [])
  | f :: stack => settle text ({ f with args := f.args ++ [text] } :: stack)

theorem settle_full {f : Frame} (h : f.isFull = true) {text : String} (htext : f.node.write f.args = .ok text)
    (last : String) (stack : List Frame) : settle last (f :: stack) = hand text stack := by
  cases stack with
  | nil =>
    rw [settle, if_pos h, htext]
    rfl
  | cons g stack =>
    rw [settle, if_pos h, htext]
    rfl

theorem settle_waiting {f : Frame} (h : f.isFull = false) (last : String) (stack : List Frame) :
    settle last (f :: stack) = .ok (last, f :: stack) := by
  cases stack with
  | nil => rw [settle, h, if_neg Bool.false_ne_true]
  | cons g stack => rw [settle, h, if_neg Bool.false_ne_true]

/-- What is left to do once a text is complete. -/
def resume (text : String) (stack : List Frame) (rest : List Node) : Except ListingError String :=
  hand text stack >>= fun p => writeOn p.1 p.2 rest

/-- The listing is written as the text, on any stack and before any other nodes. -/
def WritesAs (nodes : List Node) (text : String) : Prop :=
  ∀ last stack rest, writeOn last stack (nodes ++ rest) = resume text stack rest

theorem writesAs_terminal {n : String} (h : n ∉ converted) : WritesAs [⟨n, 0⟩] n := by
  intro last stack rest
  have hsettle := settle_full (f := ⟨⟨n, 0⟩, []⟩) rfl (write_terminal h) last stack
  rw [List.singleton_append, writeOn, hsettle]
  rfl

/-- The arguments that a node still waits for complete it. -/
theorem writeOn_arguments {n : Node} {text : String} {args : List Candidate} (hne : args ≠ [])
    (hargs : ∀ a ∈ args, WritesAs a.listing a.text) {done : List String}
    (hlength : ((done.length + args.length : Nat) : Int) = n.arity)
    (htext : n.write (done ++ args.map Candidate.text) = .ok text) (last : String) (stack : List Frame)
    (rest : List Node) :
    writeOn last (⟨n, done⟩ :: stack) (args.flatMap Candidate.listing ++ rest) = resume text stack rest := by
  induction args generalizing done last with
  | nil => exact absurd rfl hne
  | cons a args ih =>
    rw [List.flatMap_cons, List.append_assoc, hargs a List.mem_cons_self, resume, hand]
    rw [List.map_cons, List.append_cons] at htext
    cases args with
    | nil =>
      have hfull : Frame.isFull ⟨n, done ++ [a.text]⟩ = true := by
        simpa [Frame.isFull] using hlength
      rw [settle_full hfull (by simpa using htext)]
      rfl
    | cons b args =>
      have hwaiting : Frame.isFull ⟨n, done ++ [a.text]⟩ = false := by
        rw [List.length_cons, List.length_cons] at hlength
        simp only [Frame.isFull, List.length_append, List.length_singleton, decide_eq_false_iff_not]
        omega
      rw [settle_waiting hwaiting]
      refine ih (by simp) (fun c hc => hargs c (List.mem_cons_of_mem a hc)) ?_ htext a.text
      rw [← hlength]
      simp only [List.length_append, List.length_cons, List.length_nil]
      omega

/-- **A listing is written as its tree.** The induction is over the tree, and the stack may hold any
nodes that wait: the text of the tree goes to the topmost of them. -/
theorem writesAs_listing {t : Candidate} (h : t.Formed) : WritesAs t.listing t.text := by
  induction h with
  | terminal hn => exact writesAs_terminal hn
  | constant c => exact writesAs_terminal (text_notMem_converted c)
  | @node f args hf _ ih =>
    intro last stack rest
    have hpos : args.length ≠ 0 := by
      rcases (known_of_mem hf).cases with ⟨h, _⟩ | ⟨h, _⟩ <;> omega
    have hwaiting : Frame.isFull ⟨⟨f, args.length⟩, []⟩ = false := by
      simp only [Frame.isFull, List.length_nil, decide_eq_false_iff_not]
      omega
    have hwrite : Node.write ⟨f, args.length⟩ (args.map Candidate.text) =
        .ok (operatorText f (args.map Candidate.text)) := by
      have hlength : args.length = (args.map Candidate.text).length := (List.length_map _).symm
      rw [hlength]
      exact write_operator (hlength ▸ hf)
    rw [Candidate.listing, Candidate.listings_eq, Candidate.text, Candidate.texts_eq, List.cons_append, writeOn,
      settle_waiting hwaiting]
    exact writeOn_arguments (fun hnil => hpos (by rw [hnil]; rfl)) ih (by simp) hwrite last stack rest

theorem formula_listing {t : Candidate} (h : t.Formed) : formula t.listing = .ok t.text := by
  have hrun := writesAs_listing h "" [] []
  rw [List.append_nil] at hrun
  exact hrun

/-! ## Values -/

/-- The scope has the arithmetic functions under their names, and no functions written in place. -/
structure Meanings (scope : Scope) : Prop where
  plain : Plain scope
  add : scope.lookup "Add" = some (.builtin .sum)
  mul : scope.lookup "Mul" = some (.builtin .product)
  pow : scope.lookup "Pow" = some (.builtin .power)
  max : scope.lookup "Max" = some (.builtin .largest)
  min : scope.lookup "Min" = some (.builtin .smallest)

theorem plain_scope (columns operators : List String) : Plain (Formula.scope columns operators) := by
  intro n ps body inner h
  obtain ⟨before, after, hscope, -⟩ := List.lookup_eq_some_iff.mp h
  have hmem : (n, Value.lambda ps body inner) ∈ Formula.scope columns operators := by rw [hscope]; simp
  simp [Formula.scope] at hmem

/-- The names of formulas have these meanings unless further names hide them. -/
theorem meanings_scope {columns operators : List String}
    (h : ∀ n ∈ ["Add", "Mul", "Pow", "Max", "Min"], n ∉ columns ∧ n ∉ operators) :
    Meanings (Formula.scope columns operators) := by
  have hlookup {n : String} (hn : n ∈ ["Add", "Mul", "Pow", "Max", "Min"]) :
      (Formula.scope columns operators).lookup n = (Formula.scope [] []).lookup n := by
    have hcolumns : (columns.map fun m => (m, Value.expr (.symbol m))).lookup n = none := by
      rw [List.lookup_eq_none_iff]
      intro p hp
      obtain ⟨m, hm, rfl⟩ := List.mem_map.mp hp
      have hne : n ≠ m := fun hnm => (h n hn).1 (hnm ▸ hm)
      simpa using hne
    have hoperators : (operators.map fun m => (m, Value.function m)).lookup n = none := by
      rw [List.lookup_eq_none_iff]
      intro p hp
      obtain ⟨m, hm, rfl⟩ := List.mem_map.mp hp
      have hne : n ≠ m := fun hnm => (h n hn).2 (hnm ▸ hm)
      simpa using hne
    simp [Formula.scope, List.lookup_append, hcolumns, hoperators]
  refine ⟨plain_scope columns operators, ?_, ?_, ?_, ?_, ?_⟩ <;> rw [hlookup (by decide)] <;> rfl

variable {scope : Scope}

theorem functionValue_builtin {f : String} {b : Formula.Builtin} (h : scope.lookup f = some (.builtin b))
    (vs : List (Except EvalError Value)) :
    functionValue scope f vs = (inOrder vs >>= fun xs => callBuiltin b xs []) := by
  rw [functionValue, nameValue, h]
  rfl

/-- The record of a candidate: a formula with its text and value that reads its terminals. -/
structure Records (scope : Scope) (t : Candidate) (w : Written) : Prop where
  sound : w.Sound scope
  text : w.text = t.text
  columns : w.columns = t.terminals
  value : w.value = t.value scope

/-- The arithmetic functions are allowed names. -/
theorem word_allowed : ∀ f ∈ ["Add", "Mul", "Pow", "Max", "Min"], IsWord f ∧ ¬ Forbidden f := by
  have hall : ∀ f ∈ ["Add", "Mul", "Pow", "Max", "Min"], IsWord f ∧ Formula.forbidden? f = none := by decide
  exact fun f hf => ⟨(hall f hf).1, Formula.forbidden?_eq_none.mp (hall f hf).2⟩

theorem sound_builtin (hscope : Meanings scope) {separator f : String} (hsep : separator = "," ∨ separator = ", ")
    (hf : f ∈ ["Add", "Mul", "Pow", "Max", "Min"]) {v w : Written} (hv : v.Sound scope) (hw : w.Sound scope) :
    (Written.call scope separator f [v, w]).Sound scope := by
  obtain ⟨hword, hallowed⟩ := word_allowed f hf
  refine .call hscope.plain hsep hword hallowed (fun u hu => ?_) (by simp)
  rcases List.mem_pair.mp hu with rfl | rfl
  · exact hv
  · exact hw

/-- The counterpart of an operator has a text that is read as a formula with its value. -/
theorem exists_written_counterpart (hscope : Meanings scope) {v w : Written} (hv : v.Sound scope) (hw : w.Sound scope)
    (c : Counterpart) : ∃ u : Written, u.Sound scope ∧ u.text = c.text v.text w.text ∧
      u.columns = v.columns ++ w.columns ∧ u.value = (do c.value (← v.value) (← w.value)) := by
  have hone : (⟨"-1", WrittenNumber.tree (.int (-1)), [], .ok (.int (-1))⟩ : Written).Sound scope :=
    Written.sound_number (.int (-1))
  -- One call with both arguments, by the name of the function.
  have hcall {f : String} {b : Formula.Builtin} (hf : f ∈ ["Add", "Mul", "Pow", "Max", "Min"])
      (hb : scope.lookup f = some (.builtin b)) {separator : String} (hsep : separator = "," ∨ separator = ", ")
      {v w : Written} (hv : v.Sound scope) (hw : w.Sound scope) :
      ∃ u : Written, u.Sound scope ∧ u.text = callText separator f [v.text, w.text] ∧
        u.columns = v.columns ++ w.columns ∧ u.value = (do callBuiltin b [← v.value, ← w.value] []) := by
    refine ⟨_, sound_builtin hscope hsep hf hv hw, rfl, by simp [Written.call], ?_⟩
    refine (functionValue_builtin hb [v.value, w.value]).trans ?_
    cases v.value <;> cases w.value <;> rfl
  cases c with
  | sum => exact hcall (by decide) hscope.add (.inl rfl) hv hw
  | product => exact hcall (by decide) hscope.mul (.inl rfl) hv hw
  | largest => exact hcall (by decide) hscope.max (.inl rfl) hv hw
  | smallest => exact hcall (by decide) hscope.min (.inl rfl) hv hw
  | difference =>
    obtain ⟨m, hm, htext, hcolumns, hvalue⟩ := hcall (by decide) hscope.mul (.inl rfl) hone hw
    obtain ⟨u, hu, hutext, hucolumns, huvalue⟩ := hcall (by decide) hscope.add (.inr rfl) hv hm
    refine ⟨u, hu, by rw [hutext, htext]; rfl, by rw [hucolumns, hcolumns]; rfl, ?_⟩
    rw [huvalue, hvalue]
    cases v.value <;> cases w.value <;> rfl
  | quotient =>
    obtain ⟨m, hm, htext, hcolumns, hvalue⟩ := hcall (by decide) hscope.pow (.inr rfl) hw hone
    obtain ⟨u, hu, hutext, hucolumns, huvalue⟩ := hcall (by decide) hscope.mul (.inr rfl) hv hm
    refine ⟨u, hu, by rw [hutext, htext]; rfl, by rw [hucolumns, hcolumns, List.append_nil], ?_⟩
    rw [huvalue, hvalue]
    cases v.value <;> cases w.value <;> rfl

/-- The text of an operator is read as a formula with the value of the operator. -/
theorem exists_written_operator (hscope : Meanings scope) {f : String} {ws : List Written}
    (hf : (f, ws.length) ∈ arities) (hws : ∀ w ∈ ws, w.Sound scope) :
    ∃ u : Written, u.Sound scope ∧ u.text = operatorText f (ws.map (·.text)) ∧
      u.columns = ws.flatMap (·.columns) ∧ u.value = operatorValue scope f (ws.map (·.value)) := by
  have hknown := known_of_mem hf
  have hown (hne : ws ≠ []) : (Written.call scope ", " f ws).Sound scope :=
    .call hscope.plain (.inr rfl) hknown.word hknown.allowed hws hne
  rcases hknown.cases with ⟨hlength, hnone⟩ | ⟨hlength, hpass⟩
  · obtain ⟨w, rfl⟩ := List.length_eq_one_iff.mp hlength
    by_cases hpass : f = "pass_int"
    · refine ⟨w, hws w List.mem_cons_self, ?_, by simp, ?_⟩
      · simp [operatorText, hpass]
      · simp [operatorValue, hpass]
    · refine ⟨_, hown (by simp), ?_, rfl, ?_⟩
      · simp [operatorText, hpass, Written.call]
      · simp [operatorValue, hpass, Written.call]
  · obtain ⟨v, w, rfl⟩ := List.length_eq_two.mp hlength
    cases hc : counterpart? f with
    | none =>
      refine ⟨_, hown (by simp), ?_, rfl, ?_⟩
      · simp [operatorText, hc, Written.call]
      · simp [operatorValue, hc, Written.call]
    | some c =>
      obtain ⟨u, hu, htext, hcolumns, hvalue⟩ := exists_written_counterpart hscope (hws v (by simp)) (hws w (by simp)) c
      refine ⟨u, hu, ?_, by simp [hcolumns], ?_⟩
      · simp [operatorText, hc, htext]
      · simp [operatorValue, hc, hvalue]

theorem exists_records (hscope : Meanings scope) {t : Candidate} (h : t.Formed) (hwords : ∀ n ∈ t.terminals, IsWord n) :
    ∃ w, Records scope t w := by
  induction h with
  | terminal _ => exact ⟨_, Written.sound_name (hwords _ List.mem_cons_self), rfl, rfl, rfl⟩
  | constant c => exact ⟨_, Written.sound_number c, rfl, rfl, rfl⟩
  | @node f args hf _ ih =>
    rw [Candidate.terminals, Candidate.terminalsOf_eq] at hwords
    choose! w hw using fun a ha => ih a ha fun n hn => hwords n (List.mem_flatMap.mpr ⟨a, ha, hn⟩)
    have hlength : (f, (args.map w).length) ∈ arities := by rwa [List.length_map]
    obtain ⟨u, hu, htext, hcolumns, hvalue⟩ := exists_written_operator hscope hlength
      (List.forall_mem_map.mpr fun a ha => (hw a ha).sound)
    refine ⟨u, hu, ?_, ?_, ?_⟩
    · rw [htext, Candidate.text, Candidate.texts_eq, List.map_map]
      exact congrArg _ (List.map_congr_left fun a ha => (hw a ha).text)
    · rw [hcolumns, Candidate.terminals, Candidate.terminalsOf_eq, List.flatMap_map]
      exact List.flatMap_congr fun a ha => (hw a ha).columns
    · rw [hvalue, Candidate.value, Candidate.values_eq, List.map_map]
      exact congrArg _ (List.map_congr_left fun a ha => (hw a ha).value)

/-- **Candidates are rendered faithfully.** The listing of a candidate is written as its text. If its
terminals are words, the text is a formula with the value of the candidate, unless a terminal has a
forbidden name: then it is refused for such a terminal. -/
theorem candidate_faithful {t : Candidate} (h : t.Formed) :
    formula t.listing = .ok t.text ∧
    ∀ scope, Meanings scope → (∀ n ∈ t.terminals, IsWord n) →
      ((∀ n ∈ t.terminals, ¬ Forbidden n) → Formula.evaluate scope t.text = t.value scope) ∧
      ((∃ n ∈ t.terminals, Forbidden n) →
        ∃ n ∈ t.terminals, Forbidden n ∧ RefusedFor n (Formula.evaluate scope t.text)) := by
  refine ⟨formula_listing h, fun scope hscope hwords => ?_⟩
  obtain ⟨w, hsound, htext, hcolumns, hvalue⟩ := exists_records hscope h hwords
  obtain ⟨hallowed, hrefused⟩ := hsound.evaluate
  rw [htext, hcolumns] at hallowed hrefused
  refine ⟨fun hall => (hallowed hall).trans hvalue, ?_⟩
  rintro ⟨n, hn, hforbidden⟩
  exact hrefused n hn hforbidden

/-- One half, as a decimal number. -/
def half : Formula.Decimal :=
  ⟨['0'], some ['5'], none, by decide, by decide, by decide, by decide, by decide, by decide⟩

/-- The mean of a quotient, less one half. -/
def quotientMean : Candidate :=
  .node "isub" [.node "ts_mean" [.node "fdiv" [.terminal "OPEN", .terminal "CLOSE"],
    .node "pass_int" [.constant (.int 5)]], .constant (.decimal false half)]

/-- Completing the quotient leaves the mean waiting for its window, and the last constant completes
the whole. -/
theorem candidate_faithful_quotientMean :
    formula [⟨"isub", 2⟩, ⟨"ts_mean", 2⟩, ⟨"fdiv", 2⟩, ⟨"OPEN", 0⟩, ⟨"CLOSE", 0⟩, ⟨"pass_int", 1⟩, ⟨"5", 0⟩,
        ⟨"0.5", 0⟩] =
      .ok "Add(ts_mean(Mul(OPEN, Pow(CLOSE, -1)), 5), Mul(-1,0.5))" ∧
    Formula.evaluate (Formula.scope [] []) "Add(ts_mean(Mul(OPEN, Pow(CLOSE, -1)), 5), Mul(-1,0.5))" =
      quotientMean.value (Formula.scope [] []) := by
  have hopen : Candidate.Formed (.terminal "OPEN") := .terminal (by decide)
  have hclose : Candidate.Formed (.terminal "CLOSE") := .terminal (by decide)
  have hquotient : Candidate.Formed (.node "fdiv" [.terminal "OPEN", .terminal "CLOSE"]) :=
    .node (by decide) (by simp [hopen, hclose])
  have hwindow : Candidate.Formed (.node "pass_int" [.constant (.int 5)]) :=
    .node (by decide) (by simp [Candidate.Formed.constant])
  have hmean : Candidate.Formed (.node "ts_mean" [.node "fdiv" [.terminal "OPEN", .terminal "CLOSE"],
      .node "pass_int" [.constant (.int 5)]]) := .node (by decide) (by simp [hquotient, hwindow])
  have hformed : quotientMean.Formed := .node (by decide) (by simp [hmean, Candidate.Formed.constant])
  have hscope : Meanings (Formula.scope [] []) := meanings_scope (by simp)
  have hall : ∀ n ∈ quotientMean.terminals, IsWord n ∧ Formula.forbidden? n = none := by decide
  obtain ⟨hwrite, hread⟩ := candidate_faithful hformed
  obtain ⟨hvalue, -⟩ := hread _ hscope fun n hn => (hall n hn).1
  exact ⟨hwrite, hvalue fun n hn => Formula.forbidden?_eq_none.mp (hall n hn).2⟩

/-- A terminal may have a name that formulas may not use, or one that is no name at all; with the name of
an operator that has another form it is not written. -/
theorem terminal_unreadable :
    formula [⟨"fadd", 2⟩, ⟨"open", 0⟩, ⟨"CLOSE", 0⟩] = .ok "Add(open,CLOSE)" ∧
    (Candidate.node "fadd" [.terminal "open", .terminal "CLOSE"]).value (Formula.scope ["open"] []) =
      .ok (.expr (.sum [.symbol "CLOSE", .symbol "open"])) ∧
    Formula.evaluate (Formula.scope ["open"] []) "Add(open,CLOSE)" = .error (.bannedName "open") ∧
    formula [⟨"is", 0⟩] = .ok "is" ∧
    (Candidate.terminal "is").value (Formula.scope ["is"] []) = .ok (.expr (.symbol "is")) ∧
    Formula.evaluate (Formula.scope ["is"] []) "is" = .error .malformed ∧
    formula [⟨"fadd", 0⟩] = .error .missingArgument :=
  ⟨by decide +kernel, by rfl, by rfl, by decide +kernel, by rfl, by rfl, by decide +kernel⟩

end Genetic

end FactorPlan
