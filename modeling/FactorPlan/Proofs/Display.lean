import FactorPlan.Expr.Display
import FactorPlan.Proofs.Outcomes

/-!
What is displayed of sums and products: their terms and factors in another order, and a
negative number in front as -1 and its size. The text of a node is given by the texts of what is
displayed of it, and what holds of numbers and factors holds of the numerators, denominators and
signed factors that are written (`forall_signedFactors`).
-/

namespace FactorPlan

theorem Scalar.eq_one_of_neg {s : Scalar} (h : s.neg = .negOne) : s = .one := by
  cases s with
  | exact q =>
    injection h with h
    rw [← Rat.neg_neg q, h]
    rfl
  | _ => cases h

namespace Expr

/-- The factors that are displayed: a negative number in front is -1 and its size. -/
def shownFactors : List Expr → List Expr
  | .scalar s :: rest =>
    if s.isNegative && s ≠ Scalar.negOne then negOne :: .scalar s.neg :: rest else .scalar s :: rest
  | fs => fs

/-- Sorting by keys keeps the items. -/
theorem sortByKey_perm {α β : Type} (key : α → β) (before : α × β → α × β → Bool) (as : List α) :
    ((sortBy before (as.map fun a => (a, key a))).map (·.1)).Perm as := by
  refine ((sortBy_perm _ _).map _).trans (List.Perm.of_eq ?_)
  rw [List.map_map]
  exact List.map_id as

theorem numberFirst?_perm {ts us : List Expr} (h : numberFirst? ts = some us) : us.Perm ts := by
  unfold numberFirst? at h
  dsimp only at h
  -- where there is a result, it is the list with the numbers first
  split at h
  · rw [Option.ite_none_right_eq_some, Option.some.injEq] at h
    exact h.2 ▸ List.filter_append_perm _ _
  · cases h

theorem orderedTermsF_perm (fuel : Nat) (e : Expr) : (orderedTermsF fuel e).Perm e.terms := by
  cases fuel with
  | zero => rfl
  | succ fuel =>
    rw [orderedTermsF]
    split
    · rename_i ts hts
      split
      · exact numberFirst?_perm hts
      · rfl
    · dsimp only
      rw [List.map_map]
      exact sortByKey_perm _ _ _

theorem orderedTerms_perm (e : Expr) : e.orderedTerms.Perm e.terms := orderedTermsF_perm _ e

theorem orderedFactors_perm (e : Expr) : e.orderedFactors.Perm (shownFactors e.factors) := by
  have hbudget : e.keyBudget = (3 + 3 * e.size) + 1 := by unfold keyBudget; omega
  rw [orderedFactors, hbudget, orderedFactorsF]
  exact ((sortByKey_perm _ _ _).append_right _).trans (List.filter_append_perm _ _)

/-! ## Sizes -/

theorem one_le_size (e : Expr) : 1 ≤ e.size := by
  cases e <;> simp only [size] <;> omega

theorem size_le_sizeList {e : Expr} {es : List Expr} (h : e ∈ es) : e.size ≤ sizeList es := by
  induction es with
  | nil => cases h
  | cons d es ih =>
    rw [sizeList]
    rcases List.mem_cons.mp h with rfl | h
    · omega
    · have := ih h
      omega

/-! ## Nodes -/

section Nodes
variable (d : Dialect) (fuel : Nat) (short : Bool)

@[simp] theorem textF_zero (e : Expr) : textF d 0 short e = .error .endless := by
  unfold textF
  rfl

@[simp] theorem textF_symbol (n : String) : textF d (fuel + 1) short (.symbol n) = .ok (d.symbol n) := by
  unfold textF
  rfl

@[simp] theorem textF_scalar (s : Scalar) : textF d (fuel + 1) short (.scalar s) = .ok (s.text short) := by
  unfold textF
  rfl

theorem textF_sum (ts : List Expr) : textF d (fuel + 1) short (.sum ts) =
    (do return joinTerms (← signedTerms ((Expr.sum ts).orderedTerms.map fun a => ⟨a, textF d fuel true a⟩))) := by
  rw [textF]

theorem textF_call {f : Func} {call : Nat → List Piece → Except PrintError String}
    (h : d.call f.kindName = some call) (as : List Expr) : textF d (fuel + 1) short (.apply f as) =
      call (Precedence.ofExpr (.apply f as)) (as.map fun a => ⟨a, textF d fuel true a⟩) := by
  conv => lhs; unfold textF
  simp only [h]

/-- Functions whose names are not used for anything else are written as plain calls. -/
theorem textF_plainCall {n : String} {as : List Expr} (hcall : d.call n = none) (hname : d.byName = true)
    (hmul : n ≠ "Mul") (hreserved : reservedCall d n (as.map fun a => ⟨a, textF d fuel true a⟩) = none) :
    textF d (fuel + 1) short (.apply (.named n) as) =
      Dialect.plainCall n (as.map fun a => ⟨a, textF d fuel true a⟩) := by
  conv => lhs; unfold textF
  simp only [Func.kindName, hcall, hname, Bool.not_true, Bool.false_eq_true, if_false, if_neg hmul, hreserved,
    Option.getD_none]

end Nodes

/-! ## Fractions -/

/-- What a factor adds to the numerator. -/
def numerators : Expr → List Expr
  | .scalar (.exact q) => if q.num = 1 then [] else [ofInt q.num]
  | f => if f.isReciprocal then [] else [f]

/-- What a factor adds to the denominator. -/
def denominators : Expr → List Expr
  | .scalar (.exact q) => if q.den = 1 then [] else [ofInt q.den]
  | f => if f.isReciprocal then [f.flipPower] else []

theorem numerators_of_ne {f : Expr} (hf : ∀ q, f ≠ .scalar (.exact q)) :
    numerators f = if f.isReciprocal then [] else [f] := by
  unfold numerators
  split
  · exact absurd rfl (hf _)
  · rfl

theorem denominators_of_ne {f : Expr} (hf : ∀ q, f ≠ .scalar (.exact q)) :
    denominators f = if f.isReciprocal then [f.flipPower] else [] := by
  unfold denominators
  split
  · exact absurd rfl (hf _)
  · rfl

theorem splitFraction_eq (fs : List Expr) :
    splitFraction fs = (fs.flatMap numerators, fs.flatMap denominators) := by
  have hrun : ∀ (fs : List Expr) (acc : List Expr × List Expr),
      fs.foldl (fun (acc : List Expr × List Expr) f =>
        (acc.1 ++ numerators f, acc.2 ++ denominators f)) acc =
      (acc.1 ++ fs.flatMap numerators, acc.2 ++ fs.flatMap denominators) := by
    intro fs
    induction fs with
    | nil => simp
    | cons f fs ih =>
      intro acc
      rw [List.foldl_cons, ih, List.flatMap_cons, List.flatMap_cons, List.append_assoc, List.append_assoc]
  refine Eq.trans ?_ (hrun fs ([], []))
  unfold splitFraction
  congr 1
  funext acc f
  split
  · rename_i q
    by_cases hn : q.num = 1 <;> by_cases hd : q.den = 1 <;> simp [numerators, denominators, hn, hd]
  · rename_i hf
    rw [numerators_of_ne hf, denominators_of_ne hf]
    by_cases hr : f.isReciprocal <;> simp [hr]

/-- The sign of a product and the factors that are written after it. -/
def signedFactors (fs : List Expr) : String × List Expr :=
  if (product fs).splitCoeff.1.isNegative then
    ("-", (keepCoeff (product fs).splitCoeff.1.neg (product fs).splitCoeff.2).orderedFactors)
  else ("", (product fs).orderedFactors)

theorem textF_product (d : Dialect) (fuel : Nat) (short : Bool) {fs : List Expr}
    (h : writtenAsIs fs = false) : textF d (fuel + 1) short (.product fs) = (do
      let piece (a : Expr) : Piece := ⟨a, textF d fuel true a⟩
      let level := Precedence.ofExpr (.product fs)
      let shown := (signedFactors fs).2
      let ns ← allWithin level ((shown.flatMap numerators).map piece)
      let ds ← allWithin level ((shown.flatMap denominators).map piece)
      return (signedFactors fs).1 ++ fractionText ns (((shown.flatMap denominators).zip ds).map (fun p =>
        if shown.contains (.power p.1 negOne) && (p.1.isProduct || p.1.isPower)
        then "(" ++ p.2 ++ ")" else p.2))) := by
  rw [textF]
  by_cases hc : (product fs).splitCoeff.1.isNegative = true
  · simp only [h, Bool.false_eq_true, if_false, splitFraction_eq, signedFactors, if_pos hc]
  · simp only [h, Bool.false_eq_true, if_false, splitFraction_eq, signedFactors, if_neg hc]

/-! ## Parts of a product -/

section Parts
variable {Q : Expr → Prop}

theorem forall_numerators (hscalar : ∀ s, Q (.scalar s)) {f : Expr} (h : Q f) : ∀ e ∈ f.numerators, Q e := by
  unfold numerators
  split
  · split <;> simp [ofInt, hscalar]
  · split <;> simp [h]

theorem forall_denominators (hscalar : ∀ s, Q (.scalar s)) {f : Expr} (h : Q f.flipPower) :
    ∀ e ∈ f.denominators, Q e := by
  unfold denominators
  split
  · split <;> simp [ofInt, hscalar]
  · split <;> simp [h]

theorem forall_orderedFactors (hscalar : ∀ s, Q (.scalar s)) {e : Expr} (h : ∀ f ∈ e.factors, Q f) :
    ∀ f ∈ e.orderedFactors, Q f := by
  intro f hf
  have hshown := (orderedFactors_perm e).mem_iff.mp hf
  unfold shownFactors at hshown
  split at hshown
  · rename_i heq
    rw [heq] at h
    split at hshown <;> simp only [List.mem_cons] at hshown
    · rcases hshown with rfl | rfl | hshown
      · exact hscalar _
      · exact hscalar _
      · exact h f (List.mem_cons_of_mem _ hshown)
    · exact h f (List.mem_cons.mpr hshown)
  · exact h f hshown

theorem forall_factors_rawProduct (hscalar : ∀ s, Q (.scalar s))
    (hopen : ∀ gs, Q (.product gs) → ∀ g ∈ gs, Q g) {fs : List Expr} (h : ∀ f ∈ fs, Q f) :
    ∀ f ∈ (rawProduct fs).factors, Q f := by
  unfold rawProduct
  split
  · simpa [factors, one, ofInt] using hscalar _
  · rename_i a
    have ha := h a (by simp)
    unfold factors
    split
    · exact hopen _ ha
    · simpa using ha
  · exact h

/-- Other numbers than -1 are put in front of the factors. -/
theorem forall_factors_keepCoeff (hscalar : ∀ s, Q (.scalar s))
    (hopen : ∀ gs, Q (.product gs) → ∀ g ∈ gs, Q g) {c : Scalar} (hc : c ≠ .negOne) {e : Expr}
    (h : ∀ f ∈ e.factors, Q f) : ∀ f ∈ (keepCoeff c e).factors, Q f := by
  unfold keepCoeff
  split
  · simpa [factors] using hscalar _
  split
  · exact h
  split
  · simpa [factors] using hscalar _
  · simp only [hc, decide_false, Bool.false_and, Bool.false_eq_true, if_false]
    simpa [factors, hscalar] using h
  · split
    · dsimp only
      have hrest := (List.forall_mem_cons.mp h).2
      split
      · exact forall_factors_rawProduct hscalar hopen hrest
      · exact List.forall_mem_cons.mpr ⟨hscalar _, hrest⟩
    · exact List.forall_mem_cons.mpr ⟨hscalar _, h⟩
    · rename_i hproduct
      have hfactors : e.factors = [e] := by
        unfold factors
        split
        · exact absurd rfl (hproduct _)
        · rfl
      rw [hfactors] at h
      exact List.forall_mem_cons.mpr ⟨hscalar _, h⟩

/-- What holds of numbers, of the factors of a product, and of the factors of a product among them, holds
of the factors that are written. -/
theorem forall_signedFactors (hscalar : ∀ s, Q (.scalar s))
    (hopen : ∀ gs, Q (.product gs) → ∀ g ∈ gs, Q g) {fs : List Expr} (h : ∀ f ∈ fs, Q f) :
    ∀ f ∈ (signedFactors fs).2, Q f := by
  unfold signedFactors
  split
  · rename_i hneg
    refine forall_orderedFactors hscalar (forall_factors_keepCoeff hscalar hopen ?_ ?_)
    · -- 1 is no negative number
      intro hone
      rw [Scalar.eq_one_of_neg hone] at hneg
      cases hneg
    · unfold splitCoeff
      split
      · rename_i heq
        cases heq
        exact forall_factors_rawProduct hscalar hopen (List.forall_mem_cons.mp h).2
      · rename_i heq
        cases heq
      · exact h
  · exact forall_orderedFactors hscalar h

end Parts

/-- The texts of pieces within a level, the first one as it is where `plain`. -/
def leadTexts (level : Nat) (plain : Bool) : List Piece → Except PrintError (List String)
  | [] => pure []
  | p :: ps => do
    let t ← (if plain then p.text else p.within level)
    let ts ← allWithin level ps
    return t :: ts

theorem asIsText_eq (piece : Expr → Piece) (level : Nat) (fs : List Expr) : asIsText piece level fs = (do
    let num := fs.filter (!·.isReciprocal)
    let den := (fs.filter isReciprocal).map flipPower
    let ns ← leadTexts level (num.head?.any fun n => !n.isSum && n.leadsWithMinus) (num.map piece)
    let ds ← leadTexts level (decide (1 < den.length) && den.head?.any leadsWithMinus) (den.map piece)
    return fractionText ns ds) := by
  unfold asIsText
  dsimp only
  generalize fs.filter (!·.isReciprocal) = num
  generalize (fs.filter isReciprocal).map flipPower = den
  rcases num with _ | ⟨n, num⟩ <;> rcases den with _ | ⟨m, _ | ⟨k, den⟩⟩
  · rfl
  · simp [leadTexts, allWithin]
  · by_cases hm : m.leadsWithMinus <;> simp [leadTexts, hm]
  · have hnil : allWithin level [] = pure [] := rfl
    by_cases hn : (!n.isSum && n.leadsWithMinus) = true <;> simp [leadTexts, hn, hnil]
  · by_cases hn : (!n.isSum && n.leadsWithMinus) = true <;> simp [leadTexts, hn, allWithin]
  · by_cases hn : (!n.isSum && n.leadsWithMinus) = true <;> by_cases hm : m.leadsWithMinus <;>
      simp [leadTexts, hn, hm]

end Expr

end FactorPlan
