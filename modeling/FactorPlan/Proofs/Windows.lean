import FactorPlan.Proofs.Negatives

/-!
Values of windowed operators under two passes: a sum over a window divided by its length becomes
a mean, and a value less its delayed value becomes a difference.

Both passes look at the first two factors of a product and let the others go. So what they put in
place of a node has the value of the node with its products cut to their first two factors
(`headFactors`), and a pass keeps the value of an expression where the products that it
replaces have no more (`mean_pass_value`, `difference_pass_value`). That a product of two sums is
replaced by one mean, and a product of a delayed value with a mean by a difference, is shown at
`mean_drops_factor` and `difference_drops_factor`.
-/

namespace FactorPlan

section Field
variable {K : Type*} [Field K]

/-- A mean over a window is the sum over it by its length. -/
def Interpretation.Averages (A : Interpretation K) : Prop :=
  ∀ (x : K) (n : Int), n ≠ 0 → A.apply (.named "ts_mean") [x, n] = A.apply (.named "ts_sum") [x, n] / n

/-- A difference over a window is the value less the delayed value. -/
def Interpretation.Differs (A : Interpretation K) : Prop :=
  ∀ x n : K, A.apply (.named "ts_delta") [x, n] = x - A.apply (.named "ts_delay") [x, n]

end Field

namespace Rules

/-- The first two factors of a product, the second with its first two arguments. -/
def headFactors : Expr → Expr
  | .product (a :: .apply f (x :: n :: _) :: _) => .product [a, .apply f [x, n]]
  | e => e

variable {K : Type*} [Field K] {A : Interpretation K} {ρ : String → K} {build : Build}

theorem argument_one {as : List Expr} {n : Expr} (h : argument 1 as = .ok n) : ∃ x more, as = x :: n :: more := by
  obtain _ | ⟨x, _ | ⟨m, more⟩⟩ := as
  · cases h
  · cases h
  · cases h
    exact ⟨x, more, rfl⟩

/-! ## Means -/

/-- The products that become means. -/
theorem meanOfSum_eq_some {e r : Expr} : meanOfSum e = .ok (some r) ↔ ∃ q x n more rest,
    e = .product (.scalar (.exact q) :: .apply (.named "ts_sum") (x :: n :: more) :: rest) ∧
      q.num = 1 ∧ n.isValue q.den = true ∧ r = .apply (.named "ts_mean") [x, n] := by
  constructor
  · intro h
    unfold meanOfSum at h
    split at h
    · rename_i q as rest
      obtain ⟨n, hn, h⟩ := bind_eq_ok.mp h
      obtain ⟨x, more, rfl⟩ := argument_one hn
      split at h
      · rename_i hcond
        obtain ⟨hvalue, hnum⟩ := Bool.and_eq_true_iff.mp hcond
        cases h
        exact ⟨q, x, n, more, rest, rfl, by simpa using hnum, hvalue, rfl⟩
      · cases h
    · cases h
  · rintro ⟨q, x, n, more, rest, rfl, hnum, hvalue, rfl⟩
    simp [meanOfSum, argument, hnum, hvalue, bind, Except.bind, pure, Except.pure]

/-- A mean has the value of the first two factors of the product that it replaces. -/
theorem eval_meanOfSum (hA : A.OverField) (hmean : A.Averages) {e r : Expr}
    (h : meanOfSum e = .ok (some r)) : r.eval A ρ = (headFactors e).eval A ρ := by
  obtain ⟨q, x, n, more, rest, rfl, hnum, hvalue, rfl⟩ := meanOfSum_eq_some.mp h
  have hn : n.eval A ρ = ((q.den : Int) : K) := eval_of_isValue hA hvalue
  have hq : (q : K) = 1 / ((q.den : Int) : K) := by
    rw [Rat.cast_def, hnum]
    push_cast
    rfl
  have hden : (q.den : Int) ≠ 0 := by exact_mod_cast q.den_ne_zero
  calc A.apply (.named "ts_mean") [x.eval A ρ, n.eval A ρ]
      = A.apply (.named "ts_sum") [x.eval A ρ, n.eval A ρ] / ((q.den : Int) : K) := by
        rw [hn, hmean _ _ hden]
    _ = (q : K) * A.apply (.named "ts_sum") [x.eval A ρ, n.eval A ρ] := by rw [hq]; ring
    _ = (headFactors (.product (.scalar (.exact q) :: .apply (.named "ts_sum") (x :: n :: more) :: rest))).eval A ρ := by
        rw [headFactors, eval_product hA]
        simp [Expr.eval, Expr.evalList, hA.exact]

/-- The pass replaces the products of a number 1/n and a sum over n rows, whatever further factors they
have, and puts in their place the value of the first two. Where there are no further ones, and no further
arguments of the sum, it keeps the value of the expression. -/
theorem mean_pass_value (hA : A.OverField) (hmean : A.Averages) {e e' : Expr} {rs : List Exchange}
    (h : pass build meanOfSum e = (rs, .ok e')) (ρ : String → K) :
    (∀ r, r ∈ rs ↔ r.node ∈ e.nodes ∧ ∃ q x n more rest,
      r.node = .product (.scalar (.exact q) :: .apply (.named "ts_sum") (x :: n :: more) :: rest) ∧
        q.num = 1 ∧ n.isValue q.den = true ∧ r.result = .apply (.named "ts_mean") [x, n]) ∧
      (∀ r ∈ rs, r.result.eval A ρ = (headFactors r.node).eval A ρ) ∧
      ((∀ r ∈ rs, headFactors r.node = r.node) → Exchange.Keeps A ρ build rs e →
        e'.eval A ρ = e.eval A ρ) := by
  obtain ⟨hfind, hrun⟩ := pass_ok h
  have hvalue : ∀ r ∈ rs, r.result.eval A ρ = (headFactors r.node).eval A ρ :=
    fun r hr => eval_meanOfSum hA hmean ((mem_find hfind r).mp hr).2
  refine ⟨fun r => ?_, hvalue, fun hwhole hkeeps => ?_⟩
  · rw [mem_find hfind r, meanOfSum_eq_some]
  · refine Exchange.eval_applyAll (fun r hr => ?_) hkeeps hrun
    rw [hvalue r hr, hwhole r hr]

/-! ### Columns that stay as they are -/

/-- Values where no column changes: a sum over n rows is n times the value, and no difference is left. -/
def steady : Interpretation ℚ where
  scalar s := s.toRat?.getD 0
  constant _ := 0
  truth b := if b then 1 else 0
  sum := List.sum
  product := List.prod
  power b x := b ^ x.num
  apply
    | .named "ts_sum", [x, n] => n * x
    | .named "ts_mean", [x, _] => x
    | .named "ts_delay", [x, _] => x
    | .named "ts_delta", [_, _] => 0
    | _, xs => xs.sum

theorem steady_overField : steady.OverField where
  exact _ := rfl
  binary _ := rfl
  sum _ := rfl
  product _ := rfl

theorem steady_signs : steady.Signs where
  infinite _ := rfl
  nan := rfl
  undirected := rfl

theorem steady_averages : steady.Averages := by
  intro x n hn
  have hn : (n : ℚ) ≠ 0 := by exact_mod_cast hn
  show x = n * x / n
  rw [mul_div_cancel_left₀ x hn]

theorem steady_differs : steady.Differs := by
  intro x n
  show (0 : ℚ) = x - x
  rw [sub_self]

/-- An operator over a window of rows. -/
def window (f : String) (x : Expr) (n : Nat) : Expr := .apply (.named f) [x, .scalar (.exact n)]

def sumByLength (x : Expr) (n : Nat) : Expr := .product [.scalar (.exact (1 / n)), window "ts_sum" x n]

/-- The rank of a mean of means, both written as sums. -/
def rankOfMeans : Expr := .apply (.named "cs_rank") [sumByLength (sumByLength (.symbol "OPEN") 5) 10]

def outerMean : Exchange :=
  ⟨sumByLength (sumByLength (.symbol "OPEN") 5) 10, window "ts_mean" (sumByLength (.symbol "OPEN") 5) 10⟩

def innerMean : Exchange := ⟨sumByLength (.symbol "OPEN") 5, window "ts_mean" (.symbol "OPEN") 5⟩

/-- The rank with both means in place. -/
def rankOfBoth : Expr := .apply (.named "cs_rank") [window "ts_mean" innerMean.result 10]

/-- The inner mean is put into the outer one, which is there already. -/
theorem mean_pass_value_rankOfMeans :
    pass Expr.build meanOfSum rankOfMeans = ([outerMean, innerMean], .ok rankOfBoth) ∧
      ∀ ρ, rankOfBoth.eval steady ρ = rankOfMeans.eval steady ρ := by
  have hpass : pass Expr.build meanOfSum rankOfMeans = ([outerMean, innerMean], .ok rankOfBoth) := by
    decide +kernel
  have houter : outerMean.apply Expr.build rankOfMeans =
      .ok (.apply (.named "cs_rank") [outerMean.result]) := by decide +kernel
  refine ⟨hpass, fun ρ => ?_⟩
  refine (mean_pass_value steady_overField steady_averages hpass ρ).2.2 (by decide +kernel) ?_
  refine ⟨Exchange.keeps_of_named (by decide +kernel), fun d hd => ?_⟩
  cases houter.symm.trans hd
  exact ⟨Exchange.keeps_of_named (by decide +kernel), fun _ _ => trivial⟩

/-- A sum over ten rows by ten, times another sum. -/
def meanTimesSum : Expr :=
  .product [.scalar (.exact (1 / 10)), window "ts_sum" (.symbol "CLOSE") 10, window "ts_sum" (.symbol "OPEN") 5]

/-- The second sum is lost. -/
theorem mean_drops_factor : steady.OverField ∧ steady.Averages ∧
    pass Expr.build meanOfSum meanTimesSum =
      ([⟨meanTimesSum, window "ts_mean" (.symbol "CLOSE") 10⟩], .ok (window "ts_mean" (.symbol "CLOSE") 10)) ∧
    (window "ts_mean" (.symbol "CLOSE") 10).eval steady (fun _ => 2) = 2 ∧
    meanTimesSum.eval steady (fun _ => 2) = 20 :=
  ⟨steady_overField, steady_averages, by decide +kernel, by decide +kernel, by decide +kernel⟩

/-! ## Differences -/

/-- The negatives of delayed values, as the pass knows them by their first two factors. -/
def takesDelay : Expr → Bool
  | .product (a :: .apply (.named "ts_delay") _ :: _) => a.isValue (-1)
  | _ => false

/-- A term of a sum, a delayed value in it cut to its first two factors. -/
def cutDelay (t : Expr) : Expr := if takesDelay t then headFactors t else t

/-- A term is kept, or stands for a difference and the negative of a value. -/
theorem undelayed_cases {t : Expr} {us : List Expr} (h : undelayed t = .ok us) :
    (takesDelay t = false ∧ us = [t]) ∨
      ∃ a x n more rest, t = .product (a :: .apply (.named "ts_delay") (x :: n :: more) :: rest) ∧
        a.isValue (-1) = true ∧ us = [.apply (.named "ts_delta") [x, n], x.neg] := by
  unfold undelayed at h
  split at h
  · rename_i a as rest
    split at h
    · rename_i ha
      obtain ⟨y, hy, h⟩ := bind_eq_ok.mp h
      obtain ⟨n, hn, h⟩ := bind_eq_ok.mp h
      obtain ⟨x, more, rfl⟩ := argument_one hn
      cases hy
      split at h
      · cases h
      · cases h
        exact Or.inr ⟨a, _, n, more, rest, rfl, ha, rfl⟩
    · rename_i ha
      cases h
      exact Or.inl ⟨by simpa [takesDelay] using ha, rfl⟩
  · rename_i hother
    cases h
    refine Or.inl ⟨?_, rfl⟩
    unfold takesDelay
    split
    · exact absurd rfl (hother _ _ _)
    · rfl

/-- What stands for a term has its value, further factors of a delayed value left out. -/
theorem sum_undelayed (hA : A.OverField) (hsigns : A.Signs) (hdelta : A.Differs) {t : Expr} (ht : t.Rounded)
    {us : List Expr} (h : undelayed t = .ok us) : (us.map (Expr.eval A ρ)).sum = (cutDelay t).eval A ρ := by
  obtain ⟨hkept, rfl⟩ | ⟨a, x, n, more, rest, rfl, ha, rfl⟩ := undelayed_cases h
  · rw [cutDelay, hkept, List.map_singleton, List.sum_singleton]
    rfl
  · have hdelay : (Expr.apply (.named "ts_delay") (x :: n :: more)).Rounded :=
      ht.of_mem_nodes (Expr.mem_nodes_of_mem_args (List.mem_cons_of_mem _ List.mem_cons_self))
    have hx : x.Rounded := hdelay.of_mem_nodes (Expr.mem_nodes_of_mem_args List.mem_cons_self)
    have hfirst : a.eval A ρ = -1 := by
      rw [eval_of_isValue hA ha]
      norm_num
    have hcut : cutDelay (.product (a :: .apply (.named "ts_delay") (x :: n :: more) :: rest)) =
        .product [a, .apply (.named "ts_delay") [x, n]] := if_pos ha
    calc ([.apply (.named "ts_delta") [x, n], x.neg].map (Expr.eval A ρ)).sum
        = A.apply (.named "ts_delta") [x.eval A ρ, n.eval A ρ] + -x.eval A ρ := by
          simp [Expr.eval, Expr.evalList, Expr.eval_neg hA hsigns hx]
      _ = -A.apply (.named "ts_delay") [x.eval A ρ, n.eval A ρ] := by rw [hdelta]; ring
      _ = _ := by
          rw [hcut, eval_product hA]
          simp [Expr.eval, Expr.evalList, hfirst]

theorem sum_undelayedTerms (hA : A.OverField) (hsigns : A.Signs) (hdelta : A.Differs) {ts us : List Expr}
    (hts : ∀ t ∈ ts, t.Rounded) (h : undelayedTerms ts = .ok us) :
    (us.map (Expr.eval A ρ)).sum = ((ts.map cutDelay).map (Expr.eval A ρ)).sum := by
  induction ts generalizing us with
  | nil =>
    cases h
    rfl
  | cons t ts ih =>
    obtain ⟨ht, hts⟩ := List.forall_mem_cons.mp hts
    obtain ⟨vs, hvs, h⟩ := bind_eq_ok.mp h
    obtain ⟨ws, hws, h⟩ := bind_eq_ok.mp h
    cases h
    rw [List.map_append, List.sum_append, sum_undelayed hA hsigns hdelta ht hvs, ih hts hws, List.map_cons,
      List.map_cons, List.sum_cons]

/-- Each delayed value is one term more. -/
theorem length_undelayedTerms {ts us : List Expr} (h : undelayedTerms ts = .ok us) :
    us.length = ts.length + ts.countP takesDelay := by
  induction ts generalizing us with
  | nil =>
    cases h
    rfl
  | cons t ts ih =>
    obtain ⟨vs, hvs, h⟩ := bind_eq_ok.mp h
    obtain ⟨ws, hws, h⟩ := bind_eq_ok.mp h
    cases h
    rw [List.length_append, ih hws, List.countP_cons, List.length_cons]
    obtain ⟨hkept, rfl⟩ | ⟨a, x, n, more, rest, rfl, ha, rfl⟩ := undelayed_cases hvs
    · rw [hkept, List.length_singleton, if_neg Bool.false_ne_true]
      omega
    · have htakes : takesDelay (.product (a :: .apply (.named "ts_delay") (x :: n :: more) :: rest)) = true := ha
      rw [htakes, if_pos rfl, List.length_cons, List.length_singleton]
      omega

/-- The sums that are replaced. -/
theorem differenceOfDelay_eq_some {simplify : Expr → Expr} {e r : Expr} :
    differenceOfDelay simplify e = .ok (some r) ↔ ∃ ts us, e = .sum ts ∧ undelayedTerms ts = .ok us ∧
      (∃ t ∈ ts, takesDelay t = true) ∧ r = simplify (.sum us) ∧ r.args.length < us.length := by
  have hlonger : ∀ {ts us}, undelayedTerms ts = .ok us →
      (ts.length < us.length ↔ ∃ t ∈ ts, takesDelay t = true) := by
    intro ts us hus
    rw [length_undelayedTerms hus, Nat.lt_add_right_iff_pos, List.countP_pos_iff]
  constructor
  · intro h
    unfold differenceOfDelay at h
    split at h
    · rename_i ts
      obtain ⟨us, hus, h⟩ := bind_eq_ok.mp h
      split at h
      · rename_i hlength
        obtain ⟨hshort, hr⟩ := Option.ite_none_right_eq_some.mp (Except.ok.inj h)
        cases hr
        exact ⟨ts, us, rfl, hus, (hlonger hus).mp hlength, rfl, hshort⟩
      · cases h
    · cases h
  · rintro ⟨ts, us, rfl, hus, htakes, rfl, hshort⟩
    refine bind_eq_ok.mpr ⟨us, hus, ?_⟩
    rw [if_pos ((hlonger hus).mpr htakes)]
    exact congrArg Except.ok (if_pos hshort)

/-- A replaced sum has the value of the sum with its delayed values cut to their first two factors. -/
theorem eval_differenceOfDelay (hA : A.OverField) (hsigns : A.Signs) (hdelta : A.Differs)
    {simplify : Expr → Expr} {e r : Expr} (he : e.Rounded)
    (hsimplify : ∀ ts us, e = .sum ts → undelayedTerms ts = .ok us → (∃ t ∈ ts, takesDelay t = true) →
      (simplify (.sum us)).eval A ρ = (Expr.sum us).eval A ρ)
    (h : differenceOfDelay simplify e = .ok (some r)) :
    r.eval A ρ = (Expr.sum (e.args.map cutDelay)).eval A ρ := by
  obtain ⟨ts, us, rfl, hus, htakes, rfl, -⟩ := differenceOfDelay_eq_some.mp h
  have hts : ∀ t ∈ ts, t.Rounded := fun t ht => he.of_mem_nodes (Expr.mem_nodes_of_mem_args ht)
  calc (simplify (.sum us)).eval A ρ = (us.map (Expr.eval A ρ)).sum := by
        rw [hsimplify ts us rfl hus htakes, eval_sum hA]
    _ = ((ts.map cutDelay).map (Expr.eval A ρ)).sum := sum_undelayedTerms hA hsigns hdelta hts hus
    _ = (Expr.sum ((Expr.sum ts).args.map cutDelay)).eval A ρ := (eval_sum hA _).symm

/-- The pass replaces sums in which a delayed value is taken away, where simplification makes them shorter,
and puts in their place the value that they have without the further factors of the delayed values. Where
there are no further ones, it keeps the value of the expression. -/
theorem difference_pass_value (hA : A.OverField) (hsigns : A.Signs) (hdelta : A.Differs)
    {simplify : Expr → Expr} {e e' : Expr} {rs : List Exchange} (he : e.Rounded) (ρ : String → K)
    (hsimplify : ∀ ts us, .sum ts ∈ e.nodes → undelayedTerms ts = .ok us →
      (∃ t ∈ ts, takesDelay t = true) → (simplify (.sum us)).eval A ρ = (Expr.sum us).eval A ρ)
    (h : pass build (differenceOfDelay simplify) e = (rs, .ok e')) :
    (∀ r, r ∈ rs ↔ r.node ∈ e.nodes ∧ ∃ ts us, r.node = .sum ts ∧ undelayedTerms ts = .ok us ∧
      (∃ t ∈ ts, takesDelay t = true) ∧ r.result = simplify (.sum us) ∧ r.result.args.length < us.length) ∧
      (∀ r ∈ rs, r.result.eval A ρ = (Expr.sum (r.node.args.map cutDelay)).eval A ρ) ∧
      ((∀ r ∈ rs, ∀ t ∈ r.node.args, cutDelay t = t) → Exchange.Keeps A ρ build rs e →
        e'.eval A ρ = e.eval A ρ) := by
  obtain ⟨hfind, hrun⟩ := pass_ok h
  have hfound := mem_find hfind
  have hvalue : ∀ r ∈ rs, r.result.eval A ρ = (Expr.sum (r.node.args.map cutDelay)).eval A ρ := by
    intro r hr
    obtain ⟨hnode, hr⟩ := (hfound r).mp hr
    refine eval_differenceOfDelay hA hsigns hdelta (he.of_mem_nodes hnode) ?_ hr
    intro ts us hts hus
    exact hsimplify ts us (hts ▸ hnode) hus
  refine ⟨fun r => ?_, hvalue, fun hwhole hkeeps => ?_⟩
  · rw [hfound r, differenceOfDelay_eq_some]
  · refine Exchange.eval_applyAll (fun r hr => ?_) hkeeps hrun
    obtain ⟨ts, -, hts, -⟩ := differenceOfDelay_eq_some.mp ((hfound r).mp hr).2
    have hsame : r.node.args.map cutDelay = r.node.args :=
      (List.map_congr_left (hwhole r hr)).trans (List.map_id _)
    rw [hvalue r hr, hsame, hts]
    rfl

/-! ### Two runs -/

/-- The negative of an expression, as a term of a sum. -/
def less (x : Expr) : Expr := .product [.scalar (.exact (-1)), x]

/-- Two columns, less what they were five rows before. -/
def bothChanges : Expr :=
  .sum [.symbol "CLOSE", .symbol "OPEN", less (window "ts_delay" (.symbol "CLOSE") 5),
    less (window "ts_delay" (.symbol "OPEN") 5)]

/-- The terms that stand for them. -/
def bothUndelayed : Expr :=
  .sum [.symbol "CLOSE", .symbol "OPEN", window "ts_delta" (.symbol "CLOSE") 5, less (.symbol "CLOSE"),
    window "ts_delta" (.symbol "OPEN") 5, less (.symbol "OPEN")]

def bothDifferences : Expr := .sum [window "ts_delta" (.symbol "CLOSE") 5, window "ts_delta" (.symbol "OPEN") 5]

/-- The rank of both changes. -/
def rankOfChanges : Expr := .apply (.named "cs_rank") [bothChanges]

def rankOfDifferences : Expr := .apply (.named "cs_rank") [bothDifferences]

theorem simplify_bothUndelayed : Expr.simplify bothUndelayed = bothDifferences := by decide +kernel

theorem difference_pass_value_bothChanges :
    rankOfChanges.Rounded ∧
      pass Expr.build (differenceOfDelay Expr.simplify) rankOfChanges =
        ([⟨bothChanges, bothDifferences⟩], .ok rankOfDifferences) ∧
      ∀ ρ, rankOfDifferences.eval steady ρ = rankOfChanges.eval steady ρ := by
  have hrounded : rankOfChanges.Rounded := by
    intro s hs
    have hexact : s = .exact (-1) ∨ s = .exact 5 ∨ s = .exact (-1) ∨ s = .exact 5 := by
      simpa [rankOfChanges, bothChanges, less, window, Expr.nodes, Expr.nodesList] using hs
    obtain rfl | rfl | rfl | rfl := hexact <;> trivial
  have hpass : pass Expr.build (differenceOfDelay Expr.simplify) rankOfChanges =
      ([⟨bothChanges, bothDifferences⟩], .ok rankOfDifferences) := by decide +kernel
  refine ⟨hrounded, hpass, fun ρ => ?_⟩
  refine (difference_pass_value steady_overField steady_signs steady_differs hrounded ρ
    (fun ts us hts hus _ => ?_) hpass).2.2 (by decide) ⟨Exchange.keeps_of_named (by decide), fun _ _ => trivial⟩
  -- the one sum of the expression
  obtain rfl : ts = bothChanges.args := by
    simpa [rankOfChanges, bothChanges, less, window, Expr.nodes, Expr.nodesList, Expr.args] using hts
  have hterms : undelayedTerms bothChanges.args = .ok bothUndelayed.args := by decide
  obtain rfl := Except.ok.inj (hterms.symm.trans hus)
  have hvalue : bothDifferences.eval steady ρ = bothUndelayed.eval steady ρ := by
    show (0 : ℚ) + (0 + 0) = ρ "CLOSE" + (ρ "OPEN" + (0 + (-1 * (ρ "CLOSE" * 1) + (0 + (-1 * (ρ "OPEN" * 1) + 0)))))
    ring
  exact (congrArg (Expr.eval steady ρ) simplify_bothUndelayed).trans hvalue

/-- A column less the product of its delayed value and a mean. -/
def delayTimesMean : Expr :=
  .sum [.symbol "OPEN", .product [.scalar (.exact (-1)), window "ts_delay" (.symbol "OPEN") 5,
    window "ts_mean" (.symbol "CLOSE") 5]]

/-- The terms that stand for it, with the mean lost. -/
def meanLost : Expr := .sum [.symbol "OPEN", window "ts_delta" (.symbol "OPEN") 5, less (.symbol "OPEN")]

/-- Simplifying keeps the value of the terms that stand for the sum, and does not bring the mean back. -/
theorem difference_drops_factor : steady.OverField ∧ steady.Signs ∧ steady.Differs ∧
    undelayedTerms delayTimesMean.args = .ok meanLost.args ∧
    (∀ ρ, (Expr.simplify meanLost).eval steady ρ = meanLost.eval steady ρ) ∧
    pass Expr.build (differenceOfDelay Expr.simplify) delayTimesMean =
      ([⟨delayTimesMean, window "ts_delta" (.symbol "OPEN") 5⟩], .ok (window "ts_delta" (.symbol "OPEN") 5)) ∧
    (window "ts_delta" (.symbol "OPEN") 5).eval steady (fun _ => 2) = 0 ∧
    delayTimesMean.eval steady (fun _ => 2) = -2 := by
  have hsimplify : Expr.simplify meanLost = window "ts_delta" (.symbol "OPEN") 5 := by decide +kernel
  refine ⟨steady_overField, steady_signs, steady_differs, by decide, fun ρ => ?_, by decide +kernel,
    by decide +kernel, by decide +kernel⟩
  rw [hsimplify]
  show (0 : ℚ) = ρ "OPEN" + (0 + (-1 * (ρ "OPEN" * 1) + 0))
  ring

end Rules

end FactorPlan
