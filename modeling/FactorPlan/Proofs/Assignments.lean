import FactorPlan.Formula.Assignments
import FactorPlan.Formula.Vocabulary
import FactorPlan.Proofs.Digraph
import Mathlib.Data.List.TakeWhile

/-!
Named formulas of a text. A line has a left side, up to its first equals sign, and a right side
after it. It assigns a formula to a name if it has the sign and no number sign before it
(`Assigns`).

The formula that is evaluated is the right side up to the next equals sign (`formulaOf`), so it is
the whole right side exactly where that has no such sign. `ofText_assigns` says what becomes of a
text; `equality_cut` shows a comparison of which only the first side is left.
-/

namespace FactorPlan

namespace Text

/-- The first piece of a text goes up to the dividing character, and the others are those of what
comes after it. -/
theorem piecesFrom_eq (d : Char) (current cs : List Char) :
    piecesFrom d current cs = (current.reverse ++ cs.takeWhile (· ≠ d)) ::
      if d ∈ cs then pieces d (cs.dropWhile (· ≠ d)).tail else [] := by
  induction cs generalizing current with
  | nil => simp [piecesFrom]
  | cons c cs ih =>
    by_cases hc : c = d
    · simp [piecesFrom, hc, pieces]
    · have hd : d ≠ c := fun h => hc h.symm
      simp [piecesFrom, hc, ih, hd]

theorem pieces_eq (d : Char) (cs : List Char) :
    pieces d cs = cs.takeWhile (· ≠ d) ::
      if d ∈ cs then pieces d (cs.dropWhile (· ≠ d)).tail else [] :=
  piecesFrom_eq d [] cs

/-- Trimming takes away white space only. -/
theorem mem_trim {c : Char} (hc : isSpace c = false) {cs : List Char} : c ∈ trim cs ↔ c ∈ cs := by
  have hdrop (cs : List Char) : c ∈ cs.dropWhile isSpace ↔ c ∈ cs := by
    induction cs with
    | nil => simp
    | cons d cs ih =>
      by_cases hd : isSpace d = true
      · have hne : c ≠ d := fun h => by simp [← h, hc] at hd
        simp [hd, ih, hne]
      · simp [hd]
  rw [trim, List.mem_reverse, hdrop, List.mem_reverse, hdrop]

end Text

namespace Formula

/-! ## Lines -/

/-- The part of a line before its first equals sign. -/
def leftSide (line : List Char) : List Char := line.takeWhile (· ≠ '=')

/-- The part of a line after its first equals sign. -/
def rightSide (line : List Char) : List Char := (line.dropWhile (· ≠ '=')).tail

/-- Whether a line assigns a formula to a name. -/
def Assigns (line : List Char) : Prop := '=' ∈ line ∧ '#' ∉ leftSide line

instance : DecidablePred Assigns := fun _ => inferInstanceAs (Decidable (_ ∧ _))

/-- The name on the left side of a line. -/
def nameOf (line : List Char) : String := String.ofList (Text.trim (leftSide line))

/-- The formula that a line is read with: its right side up to the next equals sign. -/
def formulaOf (line : List Char) : String :=
  String.ofList (Text.trim ((rightSide line).takeWhile (· ≠ '=')))

theorem assignment?_eq (line : List Char) :
    assignment? line = if Assigns line then some (nameOf line, formulaOf line) else none := by
  unfold assignment?
  rw [Text.pieces_eq]
  by_cases heq : '=' ∈ line
  · rw [if_pos heq, Text.pieces_eq]
    by_cases hsign : '#' ∈ leftSide line
    · have hn : ¬ Assigns line := fun h => h.2 hsign
      have hc : (line.takeWhile (· ≠ '=')).contains '#' = true := List.contains_iff_mem.mpr hsign
      simp only [hc, if_true, if_neg hn]
    · have hc : (line.takeWhile (· ≠ '=')).contains '#' = false := by
        rw [Bool.eq_false_iff]
        exact fun h => hsign (List.contains_iff_mem.mp h)
      have ha : Assigns line := ⟨heq, hsign⟩
      simp only [hc, Bool.false_eq_true, if_false, if_pos ha]
      rfl
  · have hn : ¬ Assigns line := fun h => heq h.1
    rw [if_neg heq, if_neg hn]

/-- All of the right side is read exactly where it has no further equals sign. -/
theorem formulaOf_eq_iff (line : List Char) :
    formulaOf line = String.ofList (Text.trim (rightSide line)) ↔ '=' ∉ rightSide line := by
  have hspace : Text.isSpace '=' = false := rfl
  rw [formulaOf, String.ofList_inj]
  constructor
  · intro h hmem
    rw [← Text.mem_trim hspace, ← h, Text.mem_trim hspace] at hmem
    simpa using List.mem_takeWhile_imp hmem
  · intro h
    rw [List.takeWhile_eq_self_iff.mpr]
    intro c hc
    have hne : c ≠ '=' := fun he => h (he ▸ hc)
    simpa using hne

/-- The lines of a text that assign. -/
def assigningLines (text : String) : List (List Char) :=
  (Text.lines text.toList).filter (fun line => Assigns line)

theorem assignments_eq (text : String) :
    assignments text = (assigningLines text).map (fun line => (nameOf line, formulaOf line)) := by
  unfold assignments assigningLines
  induction Text.lines text.toList with
  | nil => rfl
  | cons line lines ih =>
    rw [List.filterMap_cons, assignment?_eq, List.filter_cons, ih]
    by_cases h : Assigns line
    · simp [h]
    · simp [h]

/-! ## Evaluation in order -/

variable {scope : Scope}

theorem evaluateAll_ok {named : List (String × String)}
    (h : ∀ p ∈ named, ∃ v, evaluate scope p.2 = .ok v) :
    ∃ vs, evaluateAll scope named = .ok vs ∧
      List.Forall₂ (fun p q => q.1 = p.1 ∧ evaluate scope p.2 = .ok q.2) named vs := by
  induction named with
  | nil => exact ⟨[], rfl, .nil⟩
  | cons p named ih =>
    obtain ⟨v, hv⟩ := h p List.mem_cons_self
    obtain ⟨vs, hvs, hall⟩ := ih fun q hq => h q (List.mem_cons_of_mem p hq)
    refine ⟨(p.1, v) :: vs, ?_, .cons ⟨rfl, hv⟩ hall⟩
    obtain ⟨n, s⟩ := p
    simp only [evaluateAll]
    rw [hv, hvs]
    rfl

/-- The first failure is that of the whole. -/
theorem evaluateAll_error {before : List (String × String)} {s : String} {x : EvalError}
    (hbefore : ∀ q ∈ before, ∃ v, evaluate scope q.2 = .ok v) (hs : evaluate scope s = .error x)
    (n : String) (after : List (String × String)) :
    evaluateAll scope (before ++ (n, s) :: after) = .error x := by
  induction before with
  | nil =>
    simp only [List.nil_append, evaluateAll]
    rw [hs]
    rfl
  | cons q before ih =>
    obtain ⟨v, hv⟩ := hbefore q List.mem_cons_self
    have hrest := ih fun q' hq' => hbefore q' (List.mem_cons_of_mem q hq')
    obtain ⟨m, r⟩ := q
    simp only [List.cons_append, evaluateAll]
    rw [hv, hrest]
    rfl

/-- What stands first for a name among the values stands first among the formulas. -/
theorem find?_evaluated {named : List (String × String)} {vs : List (String × Value)} (n : String)
    (h : List.Forall₂ (fun p q => q.1 = p.1 ∧ evaluate scope p.2 = .ok q.2) named vs) :
    (vs.find? (fun q => q.1 = n)).map (·.2) =
      (named.find? (fun p => p.1 = n)).bind (fun p => (evaluate scope p.2).toOption) := by
  induction h with
  | nil => rfl
  | @cons p q named vs hpq _ ih =>
    rw [List.find?_cons, List.find?_cons, hpq.1]
    by_cases hn : p.1 = n
    · simp [hn, hpq.2, Except.toOption]
    · simpa [hn] using ih

theorem names_evaluated {named : List (String × String)} {vs : List (String × Value)}
    (h : List.Forall₂ (fun p q => q.1 = p.1 ∧ evaluate scope p.2 = .ok q.2) named vs) :
    vs.map (·.1) = named.map (·.1) := by
  induction h with
  | nil => rfl
  | cons hpq _ ih => rw [List.map_cons, List.map_cons, hpq.1, ih]

theorem evaluateTable_ok {named : List (String × String)}
    (h : ∀ p ∈ named, ∃ v, evaluate scope p.2 = .ok v) :
    ∃ t, evaluateTable scope named = .ok t ∧ t.keys = (named.map (·.1)).eraseDups ∧
      ∀ n, Table.get? n t =
        (named.reverse.find? (fun p => p.1 = n)).bind (fun p => (evaluate scope p.2).toOption) := by
  obtain ⟨vs, hvs, hall⟩ := evaluateAll_ok h
  refine ⟨Table.ofList vs, ?_, ?_, fun n => ?_⟩
  · rw [evaluateTable, hvs]
    rfl
  · rw [Table.keys_ofList, names_evaluated hall]
  · rw [Table.get?_ofList, find?_evaluated n (List.rel_reverse hall)]

/-! ## Texts -/

theorem ofText_eq (scope : Scope) (text : String) : ofText scope text =
    evaluateTable scope ((assigningLines text).map fun line => (nameOf line, formulaOf line)) := by
  rw [ofText, assignments_eq]

/-- **A text assigns to each name the formula of its last line.** The names are those of the lines
that assign, in order of their first lines. A formula is the right side of its line up to the next
equals sign, and so all of it exactly where it has none. If some line fails, the first one to fail
decides. -/
theorem ofText_assigns (scope : Scope) (text : String) :
    ((∀ line ∈ assigningLines text, ∃ v, evaluate scope (formulaOf line) = .ok v) →
      ∃ t, ofText scope text = .ok t ∧ t.keys = ((assigningLines text).map nameOf).eraseDups ∧
        ∀ n, Table.get? n t = ((assigningLines text).reverse.find? (fun line => nameOf line = n)).bind
          (fun line => (evaluate scope (formulaOf line)).toOption)) ∧
    (∀ before line after x, assigningLines text = before ++ line :: after →
      (∀ l ∈ before, ∃ v, evaluate scope (formulaOf l) = .ok v) →
      evaluate scope (formulaOf line) = .error x → ofText scope text = .error x) ∧
    ∀ line ∈ assigningLines text,
      formulaOf line = String.ofList (Text.trim (rightSide line)) ↔ '=' ∉ rightSide line := by
  refine ⟨fun h => ?_, fun before line after x hlines hbefore hx => ?_,
    fun line _ => formulaOf_eq_iff line⟩
  · have hmapped : ∀ p ∈ (assigningLines text).map (fun line => (nameOf line, formulaOf line)),
        ∃ v, evaluate scope p.2 = .ok v := List.forall_mem_map.mpr h
    obtain ⟨t, ht, hkeys, hget⟩ := evaluateTable_ok hmapped
    refine ⟨t, (ofText_eq scope text).trans ht, ?_, fun n => ?_⟩
    · rw [hkeys, List.map_map]
      simp only [Function.comp_def]
    · rw [hget n, ← List.map_reverse, List.find?_map, Option.bind_map]
      simp only [Function.comp_def]
  · have hmapped : ∀ q ∈ before.map (fun line => (nameOf line, formulaOf line)),
        ∃ v, evaluate scope q.2 = .ok v := List.forall_mem_map.mpr hbefore
    rw [ofText_eq, hlines, List.map_append, List.map_cons, evaluateTable, evaluateAll_error hmapped hx]
    rfl

/-- A name that is given twice, with a comparison and a remark between. -/
def comparedText : String := "a=OPEN\n# b=LOW\nc=OPEN==CLOSE\na=CLOSE"

/-- The remark is passed over, the comparison is cut, and the last line counts for its name. -/
theorem ofText_assigns_comparedText : ∃ t, ofText (Formula.scope [] []) comparedText = .ok t ∧
    t.keys = ["a", "c"] ∧ Table.get? "a" t = some (.expr (.symbol "CLOSE")) ∧
    Table.get? "c" t = some (.expr (.symbol "OPEN")) := by
  have hlines : assigningLines comparedText =
      ["a=OPEN".toList, "c=OPEN==CLOSE".toList, "a=CLOSE".toList] := by decide +kernel
  have hopen : evaluate (Formula.scope [] []) "OPEN" = .ok (.expr (.symbol "OPEN")) := rfl
  have hclose : evaluate (Formula.scope [] []) "CLOSE" = .ok (.expr (.symbol "CLOSE")) := rfl
  have hcut : formulaOf "c=OPEN==CLOSE".toList = "OPEN" := rfl
  have hlast : formulaOf "a=CLOSE".toList = "CLOSE" := rfl
  obtain ⟨hread, -, -⟩ := ofText_assigns (Formula.scope [] []) comparedText
  rw [hlines] at hread
  obtain ⟨t, ht, hkeys, hget⟩ := hread (by
    simp only [List.forall_mem_cons]
    exact ⟨⟨_, hopen⟩, ⟨_, hcut ▸ hopen⟩, ⟨_, hlast ▸ hclose⟩, by simp⟩)
  refine ⟨t, ht, hkeys, ?_, ?_⟩
  · rw [hget "a"]
    exact congrArg Except.toOption (hlast ▸ hclose)
  · rw [hget "c"]
    exact congrArg Except.toOption (hcut ▸ hopen)

/-- Of a comparison for equality only the first side is left, though the whole has a value. -/
theorem equality_cut :
    ofText (Formula.scope [] []) "a=OPEN==CLOSE" = .ok [("a", .expr (.symbol "OPEN"))] ∧
    rightSide "a=OPEN==CLOSE".toList = "OPEN==CLOSE".toList ∧
    evaluate (Formula.scope [] []) "OPEN==CLOSE" = .ok (.truth false) := by
  have hpairs : assignments "a=OPEN==CLOSE" = [("a", "OPEN")] := by decide +kernel
  have hopen : evaluate (Formula.scope [] []) "OPEN" = .ok (.expr (.symbol "OPEN")) := rfl
  refine ⟨?_, rfl, rfl⟩
  rw [ofText, hpairs, evaluateTable, evaluateAll, hopen]
  rfl

end Formula

end FactorPlan
