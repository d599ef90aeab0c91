import FactorPlan.Proofs.Receivers

/-!
Candidates that are kept. A search keeps a candidate only if no operator in it that asks for a
column has a number there (`nodes_of_kept`), and all operators that are written as methods ask for
a column first (`column_of_method`). So what is kept is guarded (`Built.guarded`): it has polars
code, and no method in it is called on a number (`kept_calls_receivers`).
-/

namespace FactorPlan

namespace Genetic

open Target (Guarded methodOperators methodMarks Outside EndsInReceiver polars)

/-! ## Candidates -/

/-- Expressions that a search can build: columns, numbers, arithmetic, extremes, and the operators of the search with
as many arguments as they take. -/
inductive Built : Expr → Prop
  | symbol (n : String) : Built (.symbol n)
  | scalar (s : Scalar) : Built (.scalar s)
  | constant (c : Constant) : Built (.constant c)
  | sum {ts : List Expr} : (∀ t ∈ ts, Built t) → Built (.sum ts)
  | product {fs : List Expr} : (∀ f ∈ fs, Built f) → Built (.product fs)
  | power {b x : Expr} : Built b → Built x → Built (.power b x)
  | extreme {f : Func} {as : List Expr} : f = .max ∨ f = .min → 2 ≤ as.length → (∀ a ∈ as, Built a) →
      Built (.apply f as)
  | operator {f : Func} {as : List Expr} {o : Operator} : o ∈ operators → f.kindName = o.name →
      as.length = o.takes.length → (∀ a ∈ as, Built a) → Built (.apply f as)

theorem misapplies_of_anyMisapplied {s : Signatures} {es : List Expr} (h : anyMisapplied s es = .ok false) :
    ∀ e ∈ es, misapplies s e = .ok false := by
  induction es with
  | nil => simp
  | cons e es ih =>
    obtain ⟨b, hb, hrest⟩ := bind_eq_ok.mp h
    cases b with
    | true => cases hrest
    | false => exact List.forall_mem_cons.mpr ⟨hb, ih hrest⟩

/-- What a candidate that is not dropped has at all of its nodes. -/
theorem nodes_of_kept {s : Signatures} {e : Expr} (h : isDropped s e = .ok false) :
    e.isAtom = false ∧ ∀ a ∈ e.nodes, isInfinity a = false ∧ misapplies s a = .ok false := by
  unfold isDropped at h
  split at h
  · cases h
  · rename_i hleaf
    simp only [isLeafOrInfinite, Bool.or_eq_true, not_or, Bool.not_eq_true, List.any_eq_false] at hleaf
    have hright := misapplies_of_anyMisapplied h
    exact ⟨hleaf.1, fun a ha => ⟨hleaf.2 a ha, hright a ha⟩⟩

/-- Operators that are written as methods ask for a column first. -/
theorem column_of_method : ∀ n ∈ methodOperators,
    ∃ ks ∈ (signatures Part.operators.entries).get? n, ks.head? = some .column := by
  decide +kernel

/-- Where an operator is not misapplied, its method is not called on a number. -/
theorem receiver_of_kept {f : Func} {as : List Expr} (hf : f.kindName ∈ methodOperators)
    (h : misapplies (signatures Part.operators.entries) (.apply f as) = .ok false) :
    ∀ a ∈ as.head?, a.isScalar = false := by
  obtain ⟨ks, hks, hcolumn⟩ := column_of_method _ hf
  have hname : operatorName? (.apply f as) = some f.kindName := by
    obtain ⟨o, ho, hname⟩ := Target.operator_of_method hf
    rcases Target.func_of_operator ho hname.symm with rfl | ⟨-, rfl | rfl⟩ <;> rfl
  have hrefused : anyRefused ks as = .ok false := by
    unfold misapplies at h
    rwa [hname, Option.bind_some, show (signatures Part.operators.entries).get? f.kindName = some ks from hks] at h
  -- the first argument is asked to be a column, and a number there is refused
  cases as with
  | nil => simp
  | cons a rest =>
    cases ks with
    | nil => cases hcolumn
    | cons k ks =>
      cases hcolumn
      intro b hb
      cases hb
      cases a with
      | scalar s => cases hrefused
      | _ => rfl

/-- The node is no infinity and not misapplied, and is no column with a quote in its name where `Q` holds. -/
structure KeptNode (Q : Prop) (a : Expr) : Prop where
  finite : isInfinity a = false
  applies : misapplies (signatures Part.operators.entries) a = .ok false
  unquoted : Q → ∀ n, a = .symbol n → '\'' ∉ n.toList

theorem Built.guarded {Q : Prop} {e : Expr} (h : Built e) (hnodes : ∀ a ∈ e.nodes, KeptNode Q a) : Guarded Q e := by
  have hroot : ∀ {e : Expr}, (∀ a ∈ e.nodes, KeptNode Q a) → KeptNode Q e := fun {e} he =>
    he e e.mem_nodes_self
  have hargs : ∀ {e : Expr}, (∀ a ∈ e.nodes, KeptNode Q a) → ∀ d ∈ e.args, ∀ a ∈ d.nodes, KeptNode Q a :=
    fun he => (Expr.forall_mem_nodes.mp he).2
  induction h with
  | symbol n => exact .symbol fun hq => (hroot hnodes).unquoted hq n rfl
  | scalar s => exact .scalar s
  | constant c =>
    refine .constant ?_
    rintro rfl
    exact absurd (hroot hnodes).finite (by decide)
  | sum _ ih => exact .sum fun t ht => ih t ht (hargs hnodes t ht)
  | product _ ih => exact .product fun f hf => ih f hf (hargs hnodes f hf)
  | @power b x _ _ ihb ihx =>
    exact .power (ihb (hargs hnodes b (by simp [Expr.args]))) (ihx (hargs hnodes x (by simp [Expr.args])))
  | extreme hf hlength _ ih => exact .extreme hf hlength fun a ha => ih a ha (hargs hnodes a ha)
  | operator ho hf hlength _ ih =>
    exact .operator ho hf hlength (fun hmethod => receiver_of_kept (hf ▸ hmethod) (hroot hnodes).applies)
      fun a ha => ih a ha (hargs hnodes a ha)

/-- The code of an expression calls methods on receivers only. -/
structure CallsReceivers (e : Expr) (code : String) : Prop where
  /-- At each node that is written as a method, the first argument is no number, and what is written of it ends as a
  receiver does. -/
  node : ∀ f a as, .apply f (a :: as) ∈ e.nodes → f.kindName ∈ methodOperators → a.isScalar = false ∧
    ∀ fuel t, (⟨a, a.textF polars fuel true⟩ : Piece).within Precedence.call = .ok t → EndsInReceiver t.toList
  /-- If no name of a column has a quote, what stands directly before a method outside quotes ends in a parenthesis or
  in the name of a constant, and never in a number. -/
  text : (∀ n ∈ e.symbols, '\'' ∉ n.toList) → ∀ before mark after, mark ∈ methodMarks →
    code.toList = before ++ mark.toList ++ after → Outside before →
    EndsInReceiver before ∧ ∀ (s : Scalar) (short : Bool), ¬ (s.text short).toList <:+ before

/-- **No method is called on a number.** A candidate that a search can build and that is not dropped has polars code,
and it calls methods on receivers only. -/
theorem kept_calls_receivers {e : Expr} (hbuilt : Built e)
    (hkept : isDropped (signatures Part.operators.entries) e = .ok false) :
    ∃ code, e.write polars = .ok code ∧ CallsReceivers e code := by
  obtain ⟨hatom, hnodes⟩ := nodes_of_kept hkept
  have hscalar : e.isScalar = false := by
    cases e with
    | scalar s => cases hatom
    | _ => rfl
  -- names may have quotes, so that this is a condition on the text and not on the candidate
  have hguarded : Guarded (∀ n ∈ e.symbols, '\'' ∉ n.toList) e := by
    refine hbuilt.guarded fun a ha => ⟨(hnodes a ha).1, (hnodes a ha).2, ?_⟩
    rintro hquotes n rfl
    exact Stock.supplies_ofSymbols.mpr hquotes _ ha
  obtain ⟨code, hcode, hattaches⟩ := Target.lands_textF e.textBudget
    (hguarded.fueled (by unfold Expr.textBudget; omega)) false (Or.inr hscalar)
  refine ⟨code, hcode, fun f a as hnode hf => ?_, fun hquotes before mark after hmark heq hout => ?_⟩
  · have ha := receiver_of_kept hf (hnodes _ hnode).2 a rfl
    have hargument := (hguarded.node hnode).args a (by simp [Expr.args])
    exact ⟨ha, fun fuel t ht => hargument.endsInReceiver ha ht⟩
  · obtain ⟨c, rest, hmark, hc⟩ := Target.cons_of_mark hmark
    rw [hmark, List.append_assoc] at heq
    have hreceiver := (hattaches hquotes).receiver before c (rest ++ after) heq hout hc
    exact ⟨hreceiver, hreceiver.not_number⟩

/-- The mean of a logarithm of sums, with a number in front and an extreme below. -/
def meanOfLogs : Expr :=
  .apply (.named "ts_mean")
    [.product [.scalar (.exact (-2)),
      .apply .log [.sum [.scalar .one, .apply .max [.symbol "CLOSE", .symbol "OPEN"]]]], .scalar (.exact 5)]

/-- The candidate is kept, and calls two methods on receivers. -/
theorem meanOfLogs_calls_receivers : Built meanOfLogs ∧
    isDropped (signatures Part.operators.entries) meanOfLogs = .ok false ∧
    ∃ code, meanOfLogs.write polars = .ok code ∧ CallsReceivers meanOfLogs code := by
  have hlargest : Built (.apply .max [.symbol "CLOSE", .symbol "OPEN"]) :=
    .extreme (Or.inl rfl) (by decide) (List.forall_mem_cons.mpr ⟨.symbol _, List.forall_mem_singleton.mpr (.symbol _)⟩)
  have hlog : Built (.apply .log [.sum [.scalar .one, .apply .max [.symbol "CLOSE", .symbol "OPEN"]]]) :=
    .operator (o := ⟨"log", [.column], .column, .standIn⟩) (by decide) rfl rfl (List.forall_mem_singleton.mpr
      (.sum (List.forall_mem_cons.mpr ⟨.scalar _, List.forall_mem_singleton.mpr hlargest⟩)))
  have hbuilt : Built meanOfLogs :=
    .operator (o := ⟨"ts_mean", [.column, .whole], .column, .standIn⟩) (by decide) rfl rfl
      (List.forall_mem_cons.mpr ⟨.product (List.forall_mem_cons.mpr ⟨.scalar _, List.forall_mem_singleton.mpr hlog⟩),
        List.forall_mem_singleton.mpr (.scalar _)⟩)
  have hkept : isDropped (signatures Part.operators.entries) meanOfLogs = .ok false := by rfl
  exact ⟨hbuilt, hkept, kept_calls_receivers hbuilt hkept⟩

-- the filter is needed: without it, a mean of a number is written on the number
example : (Expr.apply (.named "ts_mean") [.scalar (.exact 5), .scalar (.exact 3)]).write polars =
    .ok "5.rolling_mean(3)" := by
  show Expr.textF polars 28 false _ = _
  rw [Expr.textF_call polars 27 false (f := .named "ts_mean") rfl]
  simp only [List.map_cons, List.map_nil, Expr.textF_scalar]
  rfl

end Genetic

end FactorPlan
