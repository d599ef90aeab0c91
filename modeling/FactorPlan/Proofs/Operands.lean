import FactorPlan.Proofs.Styles

/-!
The operands of an expression in its polars code. An operand is a symbol that stands anywhere
but in the first argument of an operator within groups (`Operand`). A call is written over its
first arguments, as many as its form has room for (`room`), so that code reads operands only,
and every operand that does not stand in an argument beyond these (`code_reads_operands`). The
largest of three columns is where one is lost (`largest_loses_open`).
-/

namespace FactorPlan

namespace Target

/-- The operator is computed within groups, which its first argument gives. -/
def WithinGroups (f : String) : Prop := ['g', 'p', '_'] <+: f.toList

instance : DecidablePred WithinGroups := fun _ => inferInstanceAs (Decidable (_ <+: _))

/-- The arguments that a node is computed from: all of them, but for the groups of an operator
within groups. -/
def operands : Expr → List Expr
  | .apply (.named f) as => if WithinGroups f then as.tail else as
  | e => e.args

/-- The symbol stands in an expression, and not only in what gives groups. -/
inductive Operand (n : String) : Expr → Prop
  | symbol : Operand n (.symbol n)
  | argument {e a : Expr} : a ∈ operands e → Operand n a → Operand n e

/-- How many arguments of a function polars code has room for; none where it writes them all. -/
def room : Func → Option Nat
  | .named f => (Style.polars.positions f).getLast?.map (· + 1)
  | .max => some 2
  | .min => some 2
  | .rel .eq => some 2
  | .log => some 1
  | .abs => some 1
  | .not => some 1
  | _ => none

/-- The arguments of a node that polars code leaves out. -/
def leftOut : Expr → List Expr
  | .apply f as => (room f).elim [] as.drop
  | _ => []

section Nodes
variable {as : List Expr} {a : Expr}

theorem mem_picks_range {k : Nat} : a ∈ picks (List.range k) as ↔ a ∈ as.take k := by
  simp only [picks, List.mem_filterMap, List.mem_range, List.mem_take_iff_getElem, List.getElem?_eq_some_iff]
  constructor
  · rintro ⟨i, hi, hlt, rfl⟩
    exact ⟨i, by omega, rfl⟩
  · rintro ⟨i, hi, rfl⟩
    exact ⟨i, by omega, by omega, rfl⟩

/-- Operators within groups read their second argument, all others their first ones. -/
theorem positions_cases {f : String} (hf : f = "gp_rank" ∨ f ∈ vocabulary.map (·.1)) :
    (WithinGroups f ∧ Style.polars.positions f = [1]) ∨
      (¬ WithinGroups f ∧ ∃ k, Style.polars.positions f = List.range (k + 1)) := by
  have hall : ∀ m ∈ "gp_rank" :: vocabulary.map (·.1),
      (WithinGroups m ∧ Style.polars.positions m = [1]) ∨ (¬ WithinGroups m ∧
        Style.polars.positions m = List.range ((Style.polars.positions m).length - 1 + 1)) := by
    decide +kernel
  rcases hall f (List.mem_cons.mpr hf) with h | ⟨hf, hk⟩
  · exact .inl h
  · exact .inr ⟨hf, _, hk⟩

theorem mem_operands_of_read {f : Func} (hf : covered.Admits (.apply f as))
    (h : a ∈ Style.polars.argsRead f as) : a ∈ operands (.apply f as) := by
  have hmem : a ∈ as := mem_of_mem_argsRead h
  cases f with
  | named f =>
    rcases positions_cases (f := f) hf with ⟨hgroup, hpos⟩ | ⟨hgroup, _⟩
    · rw [operands, if_pos hgroup]
      rw [Style.argsRead, hpos] at h
      obtain _ | ⟨g, _ | ⟨b, as⟩⟩ := as <;> simp [picks] at h
      simp [h]
    · rw [operands, if_neg hgroup]
      exact hmem
  | _ => exact hmem

/-- Of the operands the first ones are read, as many as there is room for. -/
theorem read_or_leftOut {f : Func} (hf : covered.Admits (.apply f as)) (h : a ∈ operands (.apply f as)) :
    a ∈ Style.polars.argsRead f as ∨ a ∈ leftOut (.apply f as) := by
  have hfirst : ∀ k, a ∈ as → a ∈ picks (List.range k) as ∨ a ∈ as.drop k := by
    intro k ha
    rwa [mem_picks_range, ← List.mem_append, List.take_append_drop]
  cases f with
  | named f =>
    rcases positions_cases (f := f) hf with ⟨hgroup, hpos⟩ | ⟨hgroup, k, hpos⟩
    · rw [operands, if_pos hgroup] at h
      simp only [Style.argsRead, leftOut, room, hpos]
      obtain _ | ⟨g, _ | ⟨b, as⟩⟩ := as <;> simp at h
      simpa [picks] using h
    · rw [operands, if_neg hgroup] at h
      simp only [Style.argsRead, leftOut, room, hpos, List.getLast?_range]
      simpa using hfirst (k + 1) h
  | max => exact hfirst 2 h
  | min => exact hfirst 2 h
  | log => exact hfirst 1 h
  | abs => exact hfirst 1 h
  | not => exact hfirst 1 h
  | rel r =>
    cases r with
    | eq => exact hfirst 2 h
    | _ => exact .inl h
  | _ => exact .inl h

end Nodes

section Expressions
variable {n : String} {e : Expr}

/-- Only operands are read. -/
theorem operand_of_reads (he : covered.Supplies e) (h : Reads .polars n e) : Operand n e := by
  induction h with
  | symbol => exact .symbol
  | sum ht _ ih => exact .argument ht (ih ((Stock.supplies_sum _).mp he _ ht))
  | product hf _ ih => exact .argument hf (ih ((Stock.supplies_product _).mp he _ hf))
  | base _ ih => exact .argument (List.mem_cons_self ..) (ih ((Stock.supplies_power _ _).mp he).1)
  | exponent _ ih =>
    exact .argument (List.mem_cons_of_mem _ (List.mem_cons_self ..)) (ih ((Stock.supplies_power _ _).mp he).2)
  | argument ha _ ih =>
    obtain ⟨hroot, hargs⟩ := Stock.supplies_iff.mp he
    exact .argument (mem_operands_of_read hroot ha) (ih (hargs _ (mem_of_mem_argsRead ha)))

theorem mem_args_of_mem_operands {a : Expr} (h : a ∈ operands e) : a ∈ e.args := by
  unfold operands at h
  split at h
  · split at h
    · exact List.mem_of_mem_tail h
    · exact h
  · exact h

/-- An operand is read, unless it stands in an argument that is left out. -/
theorem reads_or_leftOut (he : covered.Supplies e) (h : Operand n e) :
    Reads .polars n e ∨ ∃ a ∈ e.nodes, ∃ b ∈ leftOut a, Operand n b := by
  induction h with
  | symbol => exact .inl .symbol
  | @argument e a ha hn ih =>
    have hmem := mem_args_of_mem_operands ha
    obtain ⟨hroot, hargs⟩ := Stock.supplies_iff.mp he
    -- what is left out below is left out here
    have hbelow : (∃ x ∈ a.nodes, ∃ b ∈ leftOut x, Operand n b) → ∃ x ∈ e.nodes, ∃ b ∈ leftOut x, Operand n b := by
      rintro ⟨x, hx, hb⟩
      exact ⟨x, Expr.mem_nodes_of_arg hmem hx, hb⟩
    cases e with
    | sum ts => exact (ih (hargs a hmem)).imp (.sum hmem) hbelow
    | product fs => exact (ih (hargs a hmem)).imp (.product hmem) hbelow
    | power b x =>
      refine (ih (hargs a hmem)).imp (fun hread => ?_) hbelow
      rcases List.mem_pair.mp hmem with rfl | rfl
      · exact .base hread
      · exact .exponent hread
    | apply f as =>
      rcases read_or_leftOut hroot ha with hread | hout
      · exact (ih (hargs a hmem)).imp (.argument hread) hbelow
      · exact .inr ⟨_, Expr.mem_nodes_self _, a, hout, hn⟩
    | _ => simp [Expr.args] at hmem

/-- Polars code reads operands only, and reads every operand that does not stand in an argument which
is left out. Where no node has more arguments than its code has room for, the columns that are read
are the operands. -/
theorem code_reads_operands (he : covered.Supplies e) {code : String} (hcode : e.write polars = .ok code)
    (hn : PlainName n) :
    (ReadsColumn .polars code n → Operand n e) ∧
      (Operand n e → ReadsColumn .polars code n ∨ ∃ a ∈ e.nodes, ∃ b ∈ leftOut a, Operand n b) ∧
      ((∀ a ∈ e.nodes, leftOut a = []) → (ReadsColumn .polars code n ↔ Operand n e)) := by
  have hreads : ReadsColumn .polars code n ↔ Reads .polars n e := @readsColumn_iff .polars e he code hcode n hn
  rw [hreads]
  refine ⟨operand_of_reads he, reads_or_leftOut he, fun hfull => ⟨operand_of_reads he, fun h => ?_⟩⟩
  rcases reads_or_leftOut he h with hread | ⟨a, ha, b, hb, _⟩
  · exact hread
  · rw [hfull a ha] at hb
    exact absurd hb List.not_mem_nil

end Expressions

/-- In a correlation of neutralised columns, the columns are operands and the sectors are not. -/
theorem code_reads_operands_correlation : ∃ code, correlation.write polars = .ok code ∧
    (ReadsColumn .polars code "CLOSE" ↔ Operand "CLOSE" correlation) ∧ ReadsColumn .polars code "CLOSE" ∧
    ¬ Operand "sector" correlation := by
  have hfull : ∀ a ∈ correlation.nodes, leftOut a = [] := by decide +kernel
  have hclose := (code_reads_operands (n := "CLOSE") covered_correlation polars_correlation
    ⟨by decide, by decide, by decide⟩).2.2 hfull
  have hsector := (code_reads_operands (n := "sector") covered_correlation polars_correlation
    ⟨by decide, by decide, by decide⟩).2.2 hfull
  refine ⟨_, polars_correlation, hclose, ?_, fun h => ?_⟩
  · unfold ReadsColumn
    decide +kernel
  · have hreads := hsector.mpr h
    unfold ReadsColumn at hreads
    exact absurd hreads (by decide +kernel)

/-- The largest of three columns. -/
def largestOfThree : Expr := .apply .max [.symbol "CLOSE", .symbol "LOW", .symbol "OPEN"]

/-- The third column is an operand, and the code does not read it. -/
theorem largest_loses_open :
    largestOfThree.write polars = .ok "pl.max_horizontal([pl.col('CLOSE'), pl.col('LOW')])" ∧
      Operand "OPEN" largestOfThree ∧
      ¬ ReadsColumn .polars "pl.max_horizontal([pl.col('CLOSE'), pl.col('LOW')])" "OPEN" := by
  have hmax := fun fuel short as => Expr.textF_call polars fuel short (f := .max) rfl as
  refine ⟨?_, .argument (a := .symbol "OPEN") (by decide) .symbol, ?_⟩
  · show Expr.textF polars 32 false largestOfThree = _
    simp only [largestOfThree, hmax, List.map_cons, List.map_nil, Expr.textF_symbol]
    rfl
  · unfold ReadsColumn
    decide

end Target

end FactorPlan
