import FactorPlan.Proofs.Refusal

/-!
Calls by name, written with or without a blank after each comma. The text of a call is read as a
call of what its arguments are read as (`Reads.call`), so a formula that is put together from calls
has, at every depth, the value that is computed along with it (`Written.Sound.call`).
-/

namespace FactorPlan

namespace Formula

/-! ## Texts -/

/-- The text of a call by name. -/
def callText (separator f : String) (args : List String) : String :=
  f ++ "(" ++ separator.intercalate args ++ ")"

/-- The tree of a call by name. -/
def callTree (f : String) (args : List Tree) : Tree := .call (.name f) args [] []

section Spaced

variable {α : Type} {gap : List Lexeme}

theorem spell_spaced {separator : String} (hsep : separator.toList = ',' :: spell gap) {items : α → List Lexeme}
    {texts : α → String} {as : List α} (h : ∀ a ∈ as, spell (items a) = (texts a).toList) :
    spell (spaced gap (as.map items)) = (separator.intercalate (as.map texts)).toList := by
  induction as with
  | nil => rfl
  | cons a as ih =>
    have ha := h a List.mem_cons_self
    have htail := ih fun b hb => h b (List.mem_cons_of_mem a hb)
    cases as with
    | nil => simpa [spaced] using ha
    | cons b as =>
      simp only [List.map_cons] at htail ⊢
      rw [spaced, spell_append, spell_cons, spell_append, htail, ha, String.intercalate_cons_cons,
        String.toList_append, String.toList_append, hsep, List.append_assoc]
      rfl

theorem tokensOf_spaced (hgap : gap = [] ∨ gap = [.blank]) {items items' : α → List Lexeme} {as : List α}
    (h : ∀ a ∈ as, tokensOf (items a) = tokensOf (items' a)) :
    tokensOf (spaced gap (as.map items)) = tokensOf (commas (as.map items')) := by
  have hnone : tokensOf gap = [] := by rcases hgap with rfl | rfl <;> rfl
  induction as with
  | nil => rfl
  | cons a as ih =>
    have ha := h a List.mem_cons_self
    have htail := ih fun b hb => h b (List.mem_cons_of_mem a hb)
    cases as with
    | nil => exact ha
    | cons b as =>
      simp only [List.map_cons] at htail ⊢
      rw [spaced, commas, tokensOf_append, tokensOf_append, tokensOf_token, tokensOf_token, tokensOf_append,
        hnone, List.nil_append, tokensOf_blank, ha, htail]

end Spaced

/-! ## Reading -/

/-- Lexemes that can be an argument and that, but for blanks, are those of a phrase. -/
structure Reading (ys : List Lexeme) (t : Tree) : Prop where
  item : Item ys
  bare : ∃ y zs, ys = y :: zs ∧ y ≠ .blank
  phrase : ∃ xs, Phrase .expression xs t ∧ tokensOf ys = tokensOf xs

theorem Phrase.reading {xs : List Lexeme} {t : Tree} (h : Phrase .expression xs t) : Reading xs t where
  item := h.item h.separated
  bare := by
    obtain ⟨x, ys, rfl, _⟩ := h.opens
    exact ⟨x, ys, rfl, h.head_ne_blank⟩
  phrase := ⟨xs, h, rfl⟩

theorem Reading.call {α : Type} {as : List α} {items : α → List Lexeme} {trees : α → Tree} {gap : List Lexeme}
    (hgap : gap = [] ∨ gap = [.blank]) {f : String} (hf : IsWord f) (h : ∀ a ∈ as, Reading (items a) (trees a))
    (hne : as ≠ []) :
    Reading (word f :: mark "(" :: (spaced gap (as.map items) ++ [mark ")"])) (callTree f (as.map trees)) := by
  have hitems : Item (spaced gap (as.map items)) :=
    item_spaced hgap (List.forall_mem_map.mpr fun a ha => (h a ha).item) (by simpa using hne)
  have hopened : Separated (mark "(" :: (spaced gap (as.map items) ++ [mark ")"])) := by
    refine separated_cons.mpr ⟨show "(" ∈ marks by decide, hitems.separated.followed separated_close fun x hx =>
      (hitems.closes x hx).apart (.inl (by decide)), ?_⟩
    rw [List.head?_append_of_ne_nil _ hitems.ne_nil]
    exact hitems.opens
  refine ⟨⟨?_, by simp, ?_, ?_⟩, ⟨_, _, rfl, by simp⟩, ?_⟩
  · refine separated_cons.mpr ⟨hf.1, hopened, fun y hy => ?_⟩
    obtain rfl : mark "(" = y := by simpa using hy
    have hprimary : Rank.primary.Closes (word f) := trivial
    exact hprimary.apart (.inr ⟨rfl, by decide⟩)
  · simpa using mark_apart_word hf.1 "("
  · rw [List.getLast?_cons_of_ne_nil (by simp), List.getLast?_cons_of_ne_nil (by simp), List.getLast?_concat]
    intro x hx
    obtain rfl : mark ")" = x := by simpa using hx
    exact (rfl : ")" = ")")
  · choose! xs hxs htokens using fun a ha => (h a ha).phrase
    have hargs : ∀ p ∈ as.map (fun a => (xs a, trees a)), Phrase .expression p.1 p.2 := List.forall_mem_map.mpr hxs
    have hwords : ∀ k ∈ ([] : List (String × List Lexeme × Tree)), IsWord k.1 := by simp
    have hcall := Phrase.call (.name hf) hargs hwords (by simp) (by simp)
    rw [List.map_map, List.map_map] at hcall
    refine ⟨_, .expression (.sum (.term (.factor (.operand hcall)))), ?_⟩
    have hspaced := tokensOf_spaced hgap htokens
    simpa [Function.comp_def] using hspaced

/-- The text is that of an argument that can be read. -/
def Reads (s : String) (t : Tree) : Prop := ∃ ys, spell ys = s.toList ∧ Reading ys t

theorem Reads.parse {s : String} {t : Tree} (h : Reads s t) : parse s = .ok t := by
  obtain ⟨ys, hspell, hread⟩ := h
  obtain ⟨y, zs, rfl, hy⟩ := hread.bare
  obtain ⟨xs, hxs, htokens⟩ := hread.phrase
  rw [← String.ofList_toList (s := s), ← hspell]
  exact parse_of_tokens hy hread.item.separated hxs htokens

theorem Reads.length_pos {s : String} {t : Tree} (h : Reads s t) : 1 ≤ s.length := by
  obtain ⟨ys, hspell, hread⟩ := h
  obtain ⟨y, zs, rfl, _⟩ := hread.bare
  have hchars := (hread.item.separated.spelled y (by simp)).chars_ne_nil
  rw [← String.length_toList, ← hspell, spell_cons, List.length_append]
  have := List.length_pos_of_ne_nil hchars
  omega

theorem reads_name {n : String} (hn : IsWord n) : Reads n (.name n) := by
  refine ⟨[word n], by simp [Lexeme.chars, Token.chars], ?_⟩
  exact Phrase.reading (.expression (.sum (.term (.factor (.operand (.name hn))))))

/-- A number as it is written in a formula: a whole number, or a decimal number with its sign. -/
inductive WrittenNumber where
  | int (k : Int)
  | decimal (negative : Bool) (d : Decimal)
  deriving DecidableEq, Repr

namespace WrittenNumber

def text : WrittenNumber → String
  | .int k => toString k
  | .decimal negative d => (if negative then "-" else "") ++ String.ofList d.chars

/-- The tree of the absolute value, under a minus if the number is negative. -/
def tree : WrittenNumber → Tree
  | .int (.ofNat n) => .int n
  | .int (.negSucc n) => .unary .minus (.int (n + 1))
  | .decimal false d => .float d.value
  | .decimal true d => .unary .minus (.float d.value)

def value : WrittenNumber → Value
  | .int k => .int k
  | .decimal negative d => .float (if negative then d.value.neg else d.value)

end WrittenNumber

theorem reads_operand {xs : List Lexeme} {t : Tree} (h : Phrase .operand xs t) : Reads (String.ofList (spell xs)) t :=
  ⟨xs, by rw [String.toList_ofList], Phrase.reading (.expression (.sum (.term (.factor h))))⟩

theorem reads_minus {xs : List Lexeme} {t : Tree} (h : Phrase .operand xs t) :
    Reads ("-" ++ String.ofList (spell xs)) (.unary .minus t) := by
  refine ⟨mark "-" :: xs, ?_, Phrase.reading (.expression (.sum (.term (.minus (.factor h)))))⟩
  simp [Lexeme.chars, Token.chars]

theorem reads_number (c : WrittenNumber) : Reads c.text c.tree := by
  have hdigits (n : Nat) : String.ofList (spell [.token (.int n)]) = n.repr := by
    rw [spell_cons, spell_nil, List.append_nil]
    rfl
  have hdecimal (d : Decimal) : spell [.decimal d] = d.chars := by
    rw [spell_cons, spell_nil, List.append_nil]
    rfl
  cases c with
  | int k =>
    cases k with
    | ofNat n =>
      have hread := reads_operand (.int n)
      rwa [hdigits] at hread
    | negSucc n =>
      have hread := reads_minus (.int (n + 1))
      rwa [hdigits] at hread
  | decimal negative d =>
    cases negative with
    | false =>
      rw [WrittenNumber.text, if_neg Bool.false_ne_true, String.empty_append, ← hdecimal]
      exact reads_operand (.decimal d)
    | true =>
      rw [WrittenNumber.text, if_pos rfl, ← hdecimal]
      exact reads_minus (.decimal d)

theorem Reads.call {α : Type} {as : List α} {texts : α → String} {trees : α → Tree} {separator f : String}
    (hsep : separator = "," ∨ separator = ", ") (hf : IsWord f) (h : ∀ a ∈ as, Reads (texts a) (trees a))
    (hne : as ≠ []) : Reads (callText separator f (as.map texts)) (callTree f (as.map trees)) := by
  obtain ⟨gap, hgap, hseparator⟩ : ∃ gap : List Lexeme, (gap = [] ∨ gap = [.blank]) ∧
      separator.toList = ',' :: spell gap := by
    rcases hsep with rfl | rfl
    · exact ⟨[], .inl rfl, rfl⟩
    · exact ⟨[.blank], .inr rfl, rfl⟩
  choose! ys hspell hread using h
  refine ⟨_, ?_, Reading.call hgap hf hread hne⟩
  rw [callText, spell_cons, spell_cons, spell_append, spell_spaced hseparator hspell]
  simp [Lexeme.chars, Token.chars]

theorem length_le_join {a : String} {args : List String} (h : a ∈ args) : a.length ≤ (String.join args).length := by
  induction args with
  | nil => cases h
  | cons b args ih =>
    rw [String.join_cons, String.length_append]
    rcases List.mem_cons.mp h with rfl | h
    · omega
    · have := ih h
      omega

theorem length_le_intercalate {separator : String} (hsep : 1 ≤ separator.length) (args : List String) :
    (String.join args).length + args.length ≤ (separator.intercalate args).length + 1 := by
  induction args with
  | nil => simp
  | cons a args ih =>
    cases args with
    | nil => simp
    | cons b args =>
      rw [String.intercalate_cons_cons, String.length_append, String.length_append, String.join_cons,
        String.length_append, List.length_cons]
      omega

/-- A call is longer than its arguments by a step for each of them and two more. -/
theorem length_le_callText {separator f : String} (hsep : separator = "," ∨ separator = ", ") (hf : IsWord f)
    (args : List String) :
    (String.join args).length + args.length + 2 ≤ (callText separator f args).length := by
  have hname := (reads_name hf).length_pos
  have hbetween : 1 ≤ separator.length := by rcases hsep with rfl | rfl <;> decide
  have hjoined := length_le_intercalate hbetween args
  have hopen : "(".length = 1 := rfl
  have hclose : ")".length = 1 := rfl
  rw [callText, String.length_append, String.length_append, String.length_append]
  omega

/-! ## Values -/

/-- The value that a scope gives to a name. -/
def nameValue (scope : Scope) (n : String) : Except EvalError Value :=
  match scope.lookup n with
  | some v => .ok v
  | none => .error (.unknownName n)

/-- The value of a function on arguments. -/
def callValue (g : Value) (vs : List Value) : Except EvalError Value :=
  match g with
  | .function n => callFunction n vs []
  | .builtin b => callBuiltin b vs []
  | _ => .error .wrongType

/-- Values in order; the first failure is that of the whole. -/
def inOrder : List (Except EvalError Value) → Except EvalError (List Value)
  | [] => .ok []
  | v :: vs => do
    let x ← v
    return x :: (← inOrder vs)

/-- The value of a function of the scope; its name is looked up before its arguments are evaluated. -/
def functionValue (scope : Scope) (f : String) (args : List (Except EvalError Value)) : Except EvalError Value :=
  nameValue scope f >>= fun g => inOrder args >>= callValue g

/-- The scope names no functions written in place. -/
def Plain (scope : Scope) : Prop := ∀ n ps body inner, scope.lookup n ≠ some (.lambda ps body inner)

variable {scope : Scope}

theorem eval_name (fuel : Nat) (n : String) : eval (fuel + 1) scope (.name n) = nameValue scope n := by
  cases h : scope.lookup n with
  | none => simp only [eval, nameValue, h]
  | some v => simp only [eval, nameValue, h]

theorem eval_number (fuel : Nat) (c : WrittenNumber) : eval (fuel + 2) scope c.tree = .ok c.value := by
  cases c with
  | int k => cases k <;> rfl
  -- not by computation, which would go into the value of the literal
  | decimal negative d =>
    cases negative <;> simp [WrittenNumber.tree, WrittenNumber.value, eval, applyUnary, bind, Except.bind]

theorem evalList_map {α : Type} {tree : α → Tree} {value : α → Except EvalError Value} {as : List α} {n : Nat}
    (h : ∀ a ∈ as, ∀ fuel, n ≤ fuel → eval fuel scope (tree a) = value a) {fuel : Nat}
    (hfuel : n + as.length + 1 ≤ fuel) : evalList fuel scope (as.map tree) = inOrder (as.map value) := by
  induction as generalizing fuel with
  | nil =>
    obtain ⟨m, rfl⟩ : ∃ m, fuel = m + 1 := ⟨fuel - 1, by omega⟩
    rfl
  | cons a as ih =>
    obtain ⟨m, rfl⟩ : ∃ m, fuel = m + 1 := ⟨fuel - 1, by omega⟩
    rw [List.length_cons] at hfuel
    have hrest := ih (fun b hb => h b (List.mem_cons_of_mem a hb)) (by omega : n + as.length + 1 ≤ m)
    rw [List.map_cons, List.map_cons, evalList, h a List.mem_cons_self m (by omega), hrest, inOrder]

theorem eval_callTree (hscope : Plain scope) {f : String} {ts : List Tree} {m : Nat}
    {vs : List (Except EvalError Value)} (h : evalList (m + 1) scope ts = inOrder vs) :
    eval (m + 2) scope (callTree f ts) = functionValue scope f vs := by
  have hnone : evalList (m + 1) scope [] = .ok [] := rfl
  rw [callTree, eval, eval_name, h, hnone, functionValue]
  cases hg : nameValue scope f with
  | error e => rfl
  | ok g =>
    have hlookup : scope.lookup f = some g := by
      rw [nameValue] at hg
      split at hg
      · cases hg
        assumption
      · cases hg
    cases inOrder vs with
    | error e => rfl
    | ok xs =>
      cases g with
      | lambda ps body inner => exact absurd hlookup (hscope f ps body inner)
      | _ => rfl

/-! ## Formulas that are put together from calls -/

/-- A formula by its text and its tree, with the columns that it reads and the value that it
should have. -/
structure Written where
  text : String
  tree : Tree
  columns : List String
  value : Except EvalError Value
  deriving Inhabited

namespace Written

/-- A call by name. -/
def call (scope : Scope) (separator f : String) (ws : List Written) : Written where
  text := callText separator f (ws.map text)
  tree := callTree f (ws.map tree)
  columns := ws.flatMap columns
  value := functionValue scope f (ws.map value)

/-- The text is read as the tree, which has the value. It reads the columns, and every other name
in it is allowed. -/
structure Sound (scope : Scope) (w : Written) : Prop where
  reads : Reads w.text w.tree
  value : ∀ fuel, w.text.length + 1 ≤ fuel → eval fuel scope w.tree = w.value
  occurs : ∀ n ∈ w.columns, w.tree.OccursOutside n
  allowed : ∀ n, w.tree.OccursOutside n → n ∉ w.columns → ¬ Forbidden n

theorem sound_name {n : String} (hn : IsWord n) : Sound scope ⟨n, .name n, [n], nameValue scope n⟩ where
  reads := reads_name hn
  value fuel hfuel := by
    obtain ⟨m, rfl⟩ : ∃ m, fuel = m + 1 := ⟨fuel - 1, by omega⟩
    exact eval_name m n
  occurs m hm := .own hm
  allowed m hm hnot := by
    cases hm with
    | own hown => exact absurd hown hnot
    | part hu _ => cases hu

theorem sound_number (c : WrittenNumber) : Sound scope ⟨c.text, c.tree, [], .ok c.value⟩ where
  reads := reads_number c
  value fuel hfuel := by
    have hdigit := (reads_number c).length_pos
    have hlength : c.text.length + 1 ≤ fuel := hfuel
    obtain ⟨m, rfl⟩ : ∃ m, fuel = m + 2 := ⟨fuel - 2, by omega⟩
    exact eval_number m c
  occurs n hn := by cases hn
  allowed n hn := by
    have hnone : n ∉ c.tree.outerNames := by
      cases c with
      | int k => cases k <;> exact List.not_mem_nil
      | decimal negative d => cases negative <;> exact List.not_mem_nil
    exact absurd (Tree.mem_outerNames.mpr hn) hnone

theorem Sound.call (hscope : Plain scope) {separator f : String} (hsep : separator = "," ∨ separator = ", ")
    (hf : IsWord f) (hallowed : ¬ Forbidden f) {ws : List Written} (h : ∀ w ∈ ws, w.Sound scope) (hne : ws ≠ []) :
    (Written.call scope separator f ws).Sound scope where
  reads := Reads.call hsep hf (fun w hw => (h w hw).reads) hne
  value fuel hfuel := by
    -- the text is long enough to leave each argument the steps that it needs
    have hlength := length_le_callText hsep hf (ws.map text)
    rw [List.length_map] at hlength
    have htext : (callText separator f (ws.map text)).length + 1 ≤ fuel := hfuel
    have hargs : ∀ w ∈ ws, ∀ fuel, (String.join (ws.map text)).length + 1 ≤ fuel →
        eval fuel scope w.tree = w.value := fun w hw fuel hfuel => by
      have hle : w.text.length ≤ (String.join (ws.map text)).length := length_le_join (List.mem_map_of_mem hw)
      exact (h w hw).value fuel (by omega)
    obtain ⟨m, rfl⟩ : ∃ m, fuel = m + 2 := ⟨fuel - 2, by omega⟩
    exact eval_callTree hscope (evalList_map hargs (by omega))
  occurs n hn := by
    obtain ⟨w, hw, hn⟩ := List.mem_flatMap.mp hn
    refine .part (u := w.tree) ?_ ((h w hw).occurs n hn)
    simpa [Written.call, callTree, Tree.parts] using Or.inr ⟨w, hw, rfl⟩
  allowed n hn hnot := by
    cases hn with
    | own hown => simp [Written.call, callTree, Tree.ownNames] at hown
    | @part _ u hu hn =>
      simp only [Written.call, callTree, Tree.parts, List.append_nil, List.mem_cons, List.mem_map] at hu
      rcases hu with rfl | ⟨w, hw, rfl⟩
      · cases hn with
        | own hown =>
          obtain rfl : n = f := by simpa [Tree.ownNames] using hown
          exact hallowed
        | part hu _ => simp [Tree.parts] at hu
      · exact (h w hw).allowed n hn fun hmem => hnot (List.mem_flatMap.mpr ⟨w, hw, hmem⟩)

/-- A formula with an allowed name for every column has its value, and one with a forbidden name
among them is refused. -/
theorem Sound.evaluate {w : Written} (h : w.Sound scope) :
    ((∀ n ∈ w.columns, ¬ Forbidden n) → Formula.evaluate scope w.text = w.value) ∧
    ∀ n ∈ w.columns, Forbidden n → ∃ m ∈ w.columns, Forbidden m ∧ RefusedFor m (Formula.evaluate scope w.text) := by
  have hparse := h.reads.parse
  have hlength : w.text.length + 1 ≤ w.text.length + 1000 := by omega
  rcases checkNames_cases w.tree with ⟨hcheck, hnone⟩ | ⟨m, hm, hforbidden, hrefused⟩
  · refine ⟨fun _ => ?_, fun n hn hforbidden => absurd hforbidden (hnone n (h.occurs n hn))⟩
    rw [Formula.evaluate, evaluateBy_of_checkNames hparse hcheck, h.value _ hlength]
  · have hmem : m ∈ w.columns := by
      by_contra hnot
      exact h.allowed m hm hnot hforbidden
    exact ⟨fun hall => absurd hforbidden (hall m hmem),
      fun _ _ _ => ⟨m, hmem, hforbidden, refusedFor_of_checkNames hparse hrefused scope⟩⟩

end Written

end Formula

end FactorPlan
