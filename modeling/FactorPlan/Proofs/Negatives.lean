import FactorPlan.Proofs.Exchanges
import Mathlib.Tactic.NormNum
import Mathlib.Tactic.Ring

/-!
The value of a negative. The negative of an expression is evaluated: numbers change their sign,
products the sign of their number, and sums are negated term by term and ordered again. In a
field it has the negative value (`eval_neg`), provided that the binary numbers in the expression
are such that rounding leaves them as they are.
-/

namespace FactorPlan

/-! ## Numbers -/

namespace Binary

theorem toRat_neg (x : Binary) : x.neg.toRat = -x.toRat := by
  simp [toRat, neg]

theorem normal_neg (m e : Int) : normal (-m) e = (normal m e).neg := by
  unfold normal
  rw [Int.natAbs_neg]
  by_cases hm : m = 0
  · simp [hm, neg, zero]
  · rw [if_neg hm, if_neg (by omega)]
    generalize shiftOut (m.natAbs.log2 + 1) m.natAbs e = p
    rcases lt_or_gt_of_ne hm with hlt | hgt
    · have hpos : ¬ -m < 0 := by omega
      simp only [neg, if_pos hlt, if_neg hpos, neg_neg]
    · have hneg : -m < 0 := by omega
      have hpos : ¬ m < 0 := by omega
      simp only [neg, if_pos hneg, if_neg hpos]

theorem leadingBit_neg (q : Rat) : leadingBit (-q) = leadingBit q := by
  simp [leadingBit]

theorem roundAt_neg (q : Rat) (e : Int) : roundAt (-q) e = (roundAt q e).neg := by
  unfold roundAt
  rw [neg_mul]
  generalize q * twoPow (-e) = s
  simp only [Rat.neg_num, Rat.neg_den, Int.natAbs_neg]
  rcases lt_trichotomy s.num 0 with hlt | heq | hgt
  · rw [if_pos hlt, if_neg (by omega), normal_neg]
    simp [neg]
  · have hzero : roundDiv s.num.natAbs s.den = 0 := by
      rw [heq]
      simp [roundDiv, s.den_pos]
    rw [hzero]
    simp [heq, normal, neg, zero]
  · have hneg : -s.num < 0 := by omega
    have hpos : ¬ s.num < 0 := by omega
    rw [if_pos hneg, if_neg hpos, normal_neg]

/-- Rounding knows no direction. -/
theorem ofRat_neg (q : Rat) : ofRat (-q) = (ofRat q).neg := by
  unfold ofRat ofRatBits
  by_cases hq : q = 0
  · simp [hq, neg, zero]
  · rw [if_neg hq, if_neg (neg_ne_zero.mpr hq), leadingBit_neg, roundAt_neg]

theorem toRat_eq_zero_of_isZero {x : Binary} (h : x.isZero = true) : x.toRat = 0 := by
  have hm : x.mantissa = 0 := by simpa [isZero] using h
  simp [toRat, hm]

end Binary

/-- Rounding leaves the number as it is. -/
def Scalar.Rounded : Scalar → Prop
  | .binary x => (Binary.ofRat x.toRat).toRat = x.toRat
  | _ => True

/-- Rounding leaves the numbers of the expression as they are. -/
def Expr.Rounded (e : Expr) : Prop := ∀ s, .scalar s ∈ e.nodes → s.Rounded

section Field
variable {K : Type*} [Field K]

/-- What is no number of a field has a negative there all the same. -/
structure Interpretation.Signs (A : Interpretation K) : Prop where
  infinite : ∀ b, A.scalar (.inf !b) = -A.scalar (.inf b)
  nan : A.scalar .nan = -A.scalar .nan
  undirected : A.constant .undirected = -A.constant .undirected

variable {A : Interpretation K} {ρ : String → K}

theorem scalar_neg (hA : A.OverField) (hsigns : A.Signs) (s : Scalar) : A.scalar s.neg = -A.scalar s := by
  cases s with
  | exact q =>
    rw [Scalar.neg, hA.exact, hA.exact]
    exact Rat.cast_neg q
  | binary x =>
    rw [Scalar.neg, hA.binary, hA.binary, Binary.toRat_neg]
    exact Rat.cast_neg _
  | inf b => exact hsigns.infinite b
  | nan => exact hsigns.nan

theorem scalar_ofBinary (hA : A.OverField) (x : Binary) : A.scalar (Scalar.ofBinary x) = x.toRat := by
  unfold Scalar.ofBinary
  split
  · rw [Scalar.zero, hA.exact, Binary.toRat_eq_zero_of_isZero ‹_›]
  · exact hA.binary x

theorem scalar_of_isZero (hA : A.OverField) {s : Scalar} (h : s.isZero = true) : A.scalar s = 0 := by
  cases s with
  | exact q =>
    have hq : q = 0 := by simpa [Scalar.isZero] using h
    rw [hA.exact, hq]
    exact Rat.cast_zero
  | binary x =>
    rw [hA.binary, Binary.toRat_eq_zero_of_isZero h]
    exact Rat.cast_zero
  | inf b => cases h
  | nan => cases h

theorem scalar_negOne (hA : A.OverField) : A.scalar .negOne = -1 := by
  rw [Scalar.negOne, hA.exact]
  norm_num

theorem scalar_negOne_mul (hA : A.OverField) (hsigns : A.Signs) {s : Scalar} (hs : s.Rounded) :
    A.scalar (Scalar.negOne.mul s) = -A.scalar s := by
  cases s with
  | exact q =>
    rw [show Scalar.negOne.mul (.exact q) = .exact (-1 * q) from rfl, hA.exact, hA.exact]
    rw [neg_one_mul]
    exact Rat.cast_neg q
  | binary x =>
    have hone : (Binary.ofRat (-1)).toRat = -1 := by decide +kernel
    have hmul : Scalar.negOne.mul (.binary x) = Scalar.ofBinary (Binary.ofRat (-x.toRat)) := by
      show Scalar.ofBinary (Binary.ofRat ((Binary.ofRat (-1)).toRat * x.toRat)) = _
      rw [hone, neg_one_mul]
    have hround : (Binary.ofRat (-x.toRat)).toRat = -x.toRat := by
      rw [Binary.ofRat_neg, Binary.toRat_neg]
      exact congrArg (-·) hs
    rw [hmul, scalar_ofBinary hA, hround, hA.binary]
    exact Rat.cast_neg _
  | inf b =>
    have hmul : Scalar.negOne.mul (.inf b) = .inf !b := by cases b <;> rfl
    rw [hmul]
    exact hsigns.infinite b
  | nan => exact hsigns.nan

/-! ## Expressions -/

namespace Expr

theorem eval_negOne (hA : A.OverField) : negOne.eval A ρ = -1 := scalar_negOne hA

theorem eval_zero (hA : A.OverField) : zero.eval A ρ = 0 := scalar_of_isZero hA rfl

theorem eval_one (hA : A.OverField) : one.eval A ρ = 1 := by
  show A.scalar (.exact 1) = 1
  rw [hA.exact]
  exact Rat.cast_one

theorem eval_rawSum (hA : A.OverField) (ts : List Expr) : (rawSum ts).eval A ρ = (ts.map (eval A ρ)).sum := by
  obtain _ | ⟨a, _ | ⟨b, ts⟩⟩ := ts
  · exact eval_zero hA
  · simp [rawSum]
  · exact eval_sum hA _

theorem eval_rawProduct (hA : A.OverField) (fs : List Expr) :
    (rawProduct fs).eval A ρ = (fs.map (eval A ρ)).prod := by
  obtain _ | ⟨a, _ | ⟨b, fs⟩⟩ := fs
  · exact eval_one hA
  · simp [rawProduct]
  · exact eval_product hA _

theorem sum_terms (hA : A.OverField) (e : Expr) : (e.terms.map (eval A ρ)).sum = e.eval A ρ := by
  cases e with
  | sum ts => exact (eval_sum hA ts).symm
  | _ => simp [terms]

theorem sum_sortCanonical (ts : List Expr) :
    ((sortCanonical ts).map (eval A ρ)).sum = (ts.map (eval A ρ)).sum :=
  ((sortBy_perm _ ts).map _).sum_eq

theorem eval_splitConstant (hA : A.OverField) (e : Expr) :
    A.scalar e.splitConstant.1 + e.splitConstant.2.eval A ρ = e.eval A ρ := by
  unfold splitConstant
  split
  · rw [eval_rawSum hA, eval_sum hA]
    rfl
  · rw [eval_zero hA, add_zero]
    rfl
  · rw [scalar_of_isZero hA rfl, zero_add]

theorem eval_negateTerm (hA : A.OverField) (hsigns : A.Signs) (e : Expr) :
    (negateTerm e).eval A ρ = -e.eval A ρ := by
  unfold negateTerm
  split
  · exact scalar_neg hA hsigns _
  · exact hsigns.undirected
  · rename_i s rest
    have hproduct : (product (.scalar s :: rest)).eval A ρ = A.scalar s * (rest.map (eval A ρ)).prod := by
      rw [eval_product hA, List.map_cons, List.prod_cons, eval]
    rw [hproduct]
    split
    · rename_i hs
      rw [eval_rawProduct hA, hs, scalar_negOne hA]
      ring
    · rw [eval_product hA, List.map_cons, List.prod_cons, eval, scalar_neg hA hsigns]
      ring
  · rw [eval_product hA, eval_product hA, List.map_cons, List.prod_cons, eval_negOne hA]
    ring
  · rw [eval_product hA]
    simp [eval_negOne hA]

/-- A sum whose terms are negated one by one. -/
theorem sum_map_neg {f : Expr → Expr} {ts : List Expr} (h : ∀ t ∈ ts, (f t).eval A ρ = -t.eval A ρ) :
    ((ts.map f).map (eval A ρ)).sum = -(ts.map (eval A ρ)).sum := by
  induction ts with
  | nil => simp
  | cons t ts ih =>
    obtain ⟨ht, hts⟩ := List.forall_mem_cons.mp h
    simp only [List.map_cons, List.sum_cons]
    rw [ht, ih hts]
    ring

theorem eval_keepCoeff_negOne (hA : A.OverField) (hsigns : A.Signs) {e : Expr} (he : e.Rounded) :
    (keepCoeff .negOne e).eval A ρ = -e.eval A ρ := by
  unfold keepCoeff
  split
  · rename_i hone
    rw [hone, eval_one hA]
    exact scalar_negOne hA
  split
  · rename_i habsurd
    exact absurd habsurd (by decide)
  split
  · exact scalar_negOne_mul hA hsigns (he _ (by simp [nodes]))
  · rename_i ts _
    split
    · -- the number and the other terms change their signs
      have hsplit := eval_splitConstant hA (ρ := ρ) (.sum ts)
      have hrest : ((sortCanonical ((Expr.sum ts).splitConstant.2.terms.map negateTerm)).map (eval A ρ)).sum =
          -(Expr.sum ts).splitConstant.2.eval A ρ := by
        rw [sum_sortCanonical, sum_map_neg fun t _ => eval_negateTerm hA hsigns t, sum_terms hA]
      dsimp only
      rw [← hsplit]
      split
      · rw [eval_sum hA, hrest, scalar_of_isZero hA ‹_›]
        ring
      · rw [eval_sum hA, List.map_cons, List.sum_cons, hrest, eval, scalar_neg hA hsigns]
        ring
    · rw [eval_product hA]
      simp [eval, scalar_negOne hA]
  · rw [if_pos rfl]
    exact eval_negateTerm hA hsigns e

theorem Rounded.of_mem_nodes {e a : Expr} (he : e.Rounded) (ha : a ∈ e.nodes) : a.Rounded :=
  fun s hs => he s (mem_nodes_trans ha hs)

theorem rounded_zero : zero.Rounded := by
  intro s hs
  simp only [zero, ofInt, nodes, List.mem_singleton, scalar.injEq] at hs
  rw [hs]
  trivial

/-- The terms after the number of a sum are terms of the sum, or there is only zero left. -/
theorem mem_terms_splitConstant {e t : Expr} (h : t ∈ e.splitConstant.2.terms) : t ∈ e.nodes ∨ t = zero := by
  have hterms : ∀ {a : Expr}, t ∈ a.terms → t ∈ a.nodes := by
    intro a ht
    cases a with
    | sum ts => exact mem_nodes_of_mem_args ht
    | _ => rw [List.mem_singleton.mp ht]; exact mem_nodes_self _
  unfold splitConstant at h
  split at h
  · rename_i s rest
    obtain _ | ⟨a, _ | ⟨b, rest⟩⟩ := rest
    · exact .inr (List.mem_singleton.mp h)
    · exact .inl (mem_nodes_of_arg (b := a) (by simp [args]) (hterms h))
    · exact .inl (mem_nodes_of_mem_args (List.mem_cons_of_mem _ h))
  · exact .inr (List.mem_singleton.mp h)
  · exact .inl (hterms h)

theorem eval_distribute_negOne (hA : A.OverField) (hsigns : A.Signs) {e : Expr} (he : e.Rounded) :
    (distribute .negOne e).eval A ρ = -e.eval A ρ := by
  have hnumber : e.splitConstant.1.Rounded := by
    unfold splitConstant
    split
    · exact he _ (mem_nodes_of_mem_args (by simp [args]))
    · exact he _ (by simp [nodes])
    · trivial
  have hterm : ∀ t ∈ e.splitConstant.2.terms, (keepCoeff .negOne t).eval A ρ = -t.eval A ρ := by
    intro t ht
    refine eval_keepCoeff_negOne hA hsigns ?_
    rcases mem_terms_splitConstant ht with hmem | rfl
    · exact he.of_mem_nodes hmem
    · exact rounded_zero
  have hrest : ((sortCanonical (e.splitConstant.2.terms.map (keepCoeff .negOne))).map (eval A ρ)).sum =
      -e.splitConstant.2.eval A ρ := by
    rw [sum_sortCanonical, sum_map_neg hterm, sum_terms hA]
  have hmul := scalar_negOne_mul hA hsigns hnumber
  unfold distribute
  dsimp only
  rw [← eval_splitConstant hA e]
  split
  · rename_i hzero
    rw [eval_rawSum hA, hrest]
    rw [scalar_of_isZero hA hzero] at hmul
    rw [neg_add, ← hmul, zero_add]
  · rw [eval_rawSum hA, List.map_cons, List.sum_cons, hrest, eval, hmul]
    ring

/-- The negative of an expression has the negative value. -/
theorem eval_neg (hA : A.OverField) (hsigns : A.Signs) {e : Expr} (he : e.Rounded) :
    e.neg.eval A ρ = -e.eval A ρ := by
  unfold neg
  split
  · rename_i ts
    split
    · rename_i hcommutes
      have hproduct : productOf [negOne, .sum ts] = distribute .negOne (.sum ts) := by
        have hbudget : budget [negOne, .sum ts] = 15 + 8 * sizeList [negOne, .sum ts] + 1 := by
          unfold budget
          omega
        have hother : [negOne, .sum ts].filter (· ≠ one) = [negOne, .sum ts] := by
          have hnegOne : negOne ≠ one := by decide
          have hsum : Expr.sum ts ≠ one := by simp [one, ofInt]
          simp [hnegOne, hsum]
        rw [productOf, hbudget, productF, hother]
        simp [negOne, ofInt, isExact, scalarIs, splitCoeff, isSum, commutes, hcommutes, Scalar.negOne]
      rw [hproduct]
      exact eval_distribute_negOne hA hsigns he
    · rw [eval_product hA]
      simp [eval_negOne hA]
  · exact eval_negateTerm hA hsigns e

end Expr

end Field

end FactorPlan
