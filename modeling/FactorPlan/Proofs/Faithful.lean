import FactorPlan.Proofs.Legible

/-!
Code that means what it was written for. What polars code of a legible expression is read back
as has the value of the expression in every field, whatever its columns and operators mean
there (`write_faithful`). Products are written as fractions, which have their value
(`factors_signedFactors`, `value_fraction`); the rest follows the nodes of the expression
(`WrittenBelow`).
-/

namespace FactorPlan

open Formula

universe u

namespace Target

/-! ## Fractions -/

section Fractions
variable {K : Type*} [Field K] (V : Valuation K)

theorem isReciprocal_power {b : Expr} (hb : Legible b) (n : Int) :
    (Expr.power b (.ofInt n)).isReciprocal = decide (n < 0) := by
  have hsplit : (Expr.ofInt n).splitCoeff.1.isNegative = decide (n < 0) := by
    simp only [Expr.ofInt, Expr.splitCoeff]
    split
    · rename_i hzero
      have hn : n = 0 := by simpa [Scalar.isZero] using hzero
      subst hn
      rfl
    · simp [Scalar.isNegative]
  have hcommutes : (Expr.ofInt n).commutes = true := rfl
  rw [Expr.isReciprocal, hsplit, hb.commutes, hcommutes, Bool.and_true, Bool.and_true]

theorem flipPower_ofInt (b : Expr) (n : Int) :
    (Expr.power b (.ofInt n)).flipPower = if n = -1 then b else .power b (.ofInt (-n)) := by
  have hnegOne : Scalar.exact n = .negOne ↔ n = -1 := by
    rw [← ofInt_inj, Expr.ofInt, Expr.ofInt, Expr.scalar.injEq]
    rfl
  simp only [Expr.ofInt, Expr.flipPower, hnegOne, Scalar.neg, Int.cast_neg]

theorem value_flipPower (b : Expr) (n : Int) :
    V.value (Expr.power b (.ofInt n)).flipPower = (V.value b ^ n)⁻¹ := by
  rw [flipPower_ofInt]
  split
  · rename_i hn
    rw [hn, zpow_neg_one, inv_inv]
  · rw [V.value_power_ofInt, zpow_neg]

/-- A factor is its numerators over its denominators. -/
theorem value_split {f : Expr} (h : Legible f) : V.value f =
    ((Expr.numerators f).map V.value).prod * ((Expr.denominators f).map V.value).prod⁻¹ := by
  by_cases hexact : ∃ q, f = .scalar (.exact q)
  · obtain ⟨q, rfl⟩ := hexact
    have hnum : ((Expr.numerators (.scalar (.exact q))).map V.value).prod = q.num := by
      by_cases hn : q.num = 1 <;> simp [Expr.numerators, hn]
    have hden : ((Expr.denominators (.scalar (.exact q))).map V.value).prod = q.den := by
      by_cases hd : q.den = 1 <;> simp [Expr.denominators, hd]
    rw [hnum, hden, V.value_exact, Rat.cast_def, div_eq_mul_inv]
  · have hne : ∀ q, f ≠ .scalar (.exact q) := fun q hq => hexact ⟨q, hq⟩
    rw [Expr.numerators_of_ne hne, Expr.denominators_of_ne hne]
    by_cases hrec : f.isReciprocal = true
    · cases h with
      | power n hb => simp [hrec, value_flipPower]
      | _ => cases hrec
    · simp [hrec]

theorem value_fraction {fs : List Expr} (h : ∀ f ∈ fs, Legible f) : (fs.map V.value).prod =
    ((fs.flatMap Expr.numerators).map V.value).prod * ((fs.flatMap Expr.denominators).map V.value).prod⁻¹ := by
  induction fs with
  | nil => simp
  | cons f fs ih =>
    rw [List.map_cons, List.prod_cons, value_split V (h f (by simp)), ih fun g hg => h g (by simp [hg])]
    simp only [List.flatMap_cons, List.map_append, List.prod_append, mul_inv]
    exact mul_mul_mul_comm _ _ _ _

end Fractions

/-! ## Products without their sign -/

/-- A factor that is written: of `n` nodes at most, and no power of a number. -/
structure Factor (n : Nat) (f : Expr) : Prop where
  legible : Legible f
  size_le : f.size ≤ n
  base : ∀ b x, f = .power b x → b.isScalar = false

section Factors
variable {n : Nat}

theorem factor_exact (hn : 1 ≤ n) (q : Rat) : Factor n (.scalar (.exact q)) :=
  ⟨.number q, by simpa [Expr.size] using hn, by rintro b x ⟨⟩⟩

theorem factors_product {fs : List Expr} (h : Legible (.product fs)) (hsize : Expr.sizeList fs ≤ n) :
    ∀ f ∈ fs, Factor n f := by
  intro f hf
  cases h with
  | product heval hall =>
    refine ⟨hall f hf, (Expr.size_le_sizeList hf).trans hsize, ?_⟩
    rintro b x rfl
    exact heval.base b x hf

theorem Factor.factors {e : Expr} (h : Factor n e) : ∀ f ∈ e.factors, Factor n f := by
  unfold Expr.factors
  split
  · have hsize := h.size_le
    rw [Expr.size] at hsize
    exact factors_product h.legible (by omega)
  · simpa using h

/-- A positive number in front of an expression without one. -/
theorem keepCoeff_cases {e : Expr} (hscalar : e.isScalar = true → e = .one)
    (hcoeff : ∀ s gs, e ≠ .product (.scalar s :: gs)) {q : Rat} (hq : 0 < q) :
    (e = .one ∧ Expr.keepCoeff (.exact q) e = .scalar (.exact q)) ∨ (q = 1 ∧ Expr.keepCoeff (.exact q) e = e) ∨
      Expr.keepCoeff (.exact q) e = .product (.scalar (.exact q) :: e.factors) := by
  have hnegOne : Scalar.exact q ≠ .negOne := by
    intro heq
    cases heq
    exact absurd hq (by decide)
  unfold Expr.keepCoeff
  split
  · exact .inl ⟨‹_›, rfl⟩
  rename_i hne
  split
  · rename_i hone
    cases hone
    exact .inr (.inl ⟨rfl, rfl⟩)
  split
  · exact absurd (hscalar rfl) hne
  · simp [hnegOne, Expr.factors]
  split
  · exact absurd rfl (hcoeff _ _)
  · exact .inr (.inr rfl)
  · rename_i hproduct
    have hfactors : e.factors = [e] := by
      unfold Expr.factors
      split
      · exact absurd rfl (hproduct _)
      · rfl
    exact .inr (.inr (by rw [hfactors]))

theorem value_factors {K : Type*} [Field K] (V : Valuation K) (e : Expr) : (e.factors.map V.value).prod = V.value e := by
  unfold Expr.factors
  split <;> simp

/-- A negative number is shown as -1 and its size. -/
theorem factors_shownFactors {fs : List Expr} (h : ∀ f ∈ fs, Factor n f) :
    (∀ f ∈ Expr.shownFactors fs, Factor n f) ∧ Expr.Agrees.{u} (.product (Expr.shownFactors fs)) (.product fs) := by
  unfold Expr.shownFactors
  split
  · rename_i s rest
    have hs := h _ List.mem_cons_self
    obtain ⟨q, rfl⟩ := hs.legible.exact
    have hn : 1 ≤ n := hs.size_le
    split
    · refine ⟨?_, fun K _ V => by simp [Scalar.neg]⟩
      simp only [List.forall_mem_cons] at h ⊢
      exact ⟨factor_exact hn (-1), factor_exact hn (-q), h.2⟩
    · exact ⟨h, fun _ _ _ => rfl⟩
  · exact ⟨h, fun _ _ _ => rfl⟩

/-- What is shown of factors: factors of the same value. -/
theorem factors_orderedFactors {e : Expr} (h : ∀ f ∈ e.factors, Factor n f) :
    (∀ f ∈ e.orderedFactors, Factor n f) ∧ Expr.Agrees.{u} (.product e.orderedFactors) e := by
  have hperm := Expr.orderedFactors_perm e
  obtain ⟨hshown, hagrees⟩ := factors_shownFactors.{u} h
  refine ⟨fun f hf => hshown f (hperm.mem_iff.mp hf), fun K _ V => ?_⟩
  rw [V.value_product, (hperm.map V.value).prod_eq, ← V.value_product, hagrees K V, V.value_product, value_factors]

theorem factors_rawProduct {fs : List Expr} (hn : 1 ≤ n) (h : ∀ f ∈ fs, Factor n f) :
    ∀ f ∈ (Expr.rawProduct fs).factors, Factor n f := by
  unfold Expr.rawProduct
  split
  · exact List.forall_mem_singleton.mpr (factor_exact hn 1)
  · exact (h _ List.mem_cons_self).factors
  · exact h

theorem agrees_rawProduct (fs : List Expr) : Expr.Agrees.{u} (.rawProduct fs) (.product fs) := fun K _ V => by
  unfold Expr.rawProduct
  split <;> simp

/-- Where a number stands in front of other factors, these are no number. -/
theorem Evaluated.rawProduct_eq_one {c : Scalar} {rest : List Expr} (h : Evaluated (.scalar c :: rest))
    (hscalar : (Expr.rawProduct rest).isScalar = true) : Expr.rawProduct rest = .one := by
  have htail := h.tail
  unfold Expr.rawProduct at hscalar ⊢
  split at hscalar
  · rfl
  · rename_i a
    rw [htail a List.mem_cons_self] at hscalar
    cases hscalar
  · cases hscalar

/-- Where a number stands in front of other factors, there is none in front of these. -/
theorem Evaluated.rawProduct_ne {c : Scalar} {rest : List Expr} (h : Evaluated (.scalar c :: rest)) (s : Scalar)
    (gs : List Expr) : Expr.rawProduct rest ≠ .product (.scalar s :: gs) := by
  have htail := h.tail
  have hnested := h.coeff c s gs
  unfold Expr.rawProduct
  split
  · intro heq
    cases heq
  · rintro rfl
    exact hnested rfl
  · intro heq
    cases heq
    exact absurd (htail (.scalar s) List.mem_cons_self) (by simp [Expr.isScalar])

/-- A positive number in front of other factors, as it is kept there. -/
theorem factors_keepCoeff {c : Scalar} {rest : List Expr} (heval : Evaluated (.scalar c :: rest)) (hn : 1 ≤ n)
    (h : ∀ f ∈ rest, Factor n f) {q : Rat} (hq : 0 < q) :
    (∀ f ∈ (Expr.keepCoeff (.exact q) (.rawProduct rest)).factors, Factor n f) ∧
      Expr.Agrees.{u} (Expr.keepCoeff (.exact q) (.rawProduct rest)) (.product (.scalar (.exact q) :: rest)) := by
  have hrest := factors_rawProduct hn h
  -- two numbers are never multiplied: where a denominator is zero in the field, their product may have another value
  rcases keepCoeff_cases heval.rawProduct_eq_one heval.rawProduct_ne hq with ⟨hone, heq⟩ | ⟨rfl, heq⟩ | heq <;> rw [heq]
  · refine ⟨List.forall_mem_singleton.mpr (factor_exact hn q), fun K _ V => ?_⟩
    have hvalue := agrees_rawProduct rest K V
    rw [hone] at hvalue
    simp [← V.value_product, ← hvalue]
  · refine ⟨hrest, fun K _ V => ?_⟩
    rw [agrees_rawProduct rest K V]
    simp
  · refine ⟨List.forall_mem_cons.mpr ⟨factor_exact hn q, hrest⟩, fun K _ V => ?_⟩
    simp [value_factors, agrees_rawProduct rest K V]

/-- The factors that are written of a product, and what they make with the sign in front. -/
theorem factors_signedFactors {fs : List Expr} (h : Legible (.product fs)) (hsize : Expr.sizeList fs ≤ n) :
    (∀ f ∈ (Expr.signedFactors fs).2, Factor n f) ∧
      ((Expr.signedFactors fs).1 = "" ∧ Precedence.ofExpr (.product fs) = Precedence.product ∧
          Expr.Agrees.{u} (.product (Expr.signedFactors fs).2) (.product fs) ∨
        (Expr.signedFactors fs).1 = "-" ∧ Precedence.ofExpr (.product fs) = Precedence.sum ∧
          Expr.Agrees.{u} (.product (Expr.signedFactors fs).2) (changeSign (.product fs))) := by
  have hfactors := factors_product h hsize
  rw [Expr.signedFactors, ofExpr_product]
  split
  · rename_i hneg
    -- only a negative number in front makes the coefficient negative
    obtain ⟨q, rest, rfl⟩ : ∃ q rest, fs = .scalar (.exact q) :: rest := by
      rcases fs with _ | ⟨f, rest⟩
      · exact absurd hneg (by decide)
      · cases (hfactors f List.mem_cons_self).legible with
        | number q => exact ⟨q, rest, rfl⟩
        | _ => exact absurd hneg (by simp [Expr.splitCoeff]; decide)
    have hq : 0 < -q := neg_pos.mpr (by simpa [Expr.splitCoeff, Scalar.isNegative] using hneg)
    have hn : 1 ≤ n := (hfactors _ List.mem_cons_self).size_le
    cases h with
    | product heval _ =>
      obtain ⟨hkept, hvalue⟩ := factors_keepCoeff.{u} heval hn (fun f hf => hfactors f (by simp [hf])) hq
      obtain ⟨hordered, hagrees⟩ := factors_orderedFactors.{u} hkept
      refine ⟨hordered, .inr ⟨rfl, rfl, fun K _ V => ?_⟩⟩
      refine (hagrees K V).trans ((hvalue K V).trans ?_)
      simp [value_changeSign]
  · obtain ⟨hordered, hagrees⟩ := factors_orderedFactors.{u} (e := .product fs) hfactors
    exact ⟨hordered, .inl ⟨rfl, rfl, hagrees⟩⟩

end Factors

/-! ## Products -/

theorem writtenAsIs_of_evaluated {fs : List Expr} (h : Evaluated fs) : Expr.writtenAsIs fs = false := by
  rcases fs with _ | ⟨f, rest⟩
  · rfl
  have hone : (f == Expr.one) = false := by
    rw [beq_eq_false_iff_ne]
    rintro rfl
    exact h.head_ne rfl
  rw [Expr.writtenAsIs, hone, Bool.false_or, List.any_eq_false]
  intro g hg
  have hscalar := h.tail g hg
  rw [hscalar, Bool.false_or]
  split
  · rename_i b x
    have hb := h.base b x (List.mem_cons_of_mem f hg)
    have hinteger : b.isInteger = false := by
      cases b with
      | scalar s => cases hb
      | _ => rfl
    simp [hinteger]
  · exact Bool.false_ne_true

theorem legible_numerators {n : Nat} {f : Expr} (h : Factor n f) :
    ∀ e ∈ Expr.numerators f, Legible e ∧ e.size ≤ n := by
  intro e he
  by_cases hexact : ∃ q, f = .scalar (.exact q)
  · obtain ⟨q, rfl⟩ := hexact
    rw [Expr.numerators, List.mem_ite_nil_left, List.mem_singleton] at he
    exact he.2 ▸ ⟨.number _, h.size_le⟩
  · rw [Expr.numerators_of_ne fun q hq => hexact ⟨q, hq⟩, List.mem_ite_nil_left, List.mem_singleton] at he
    exact he.2 ▸ ⟨h.legible, h.size_le⟩

/-- A denominator: a whole number, what a reciprocal is of, or a power. -/
theorem denominators_cases {n : Nat} {f e : Expr} (h : Factor n f) (he : e ∈ Expr.denominators f) :
    (Legible e ∧ e.size ≤ n) ∧ ((∃ d : Nat, e = .ofInt d) ∨ (f = .power e .negOne ∧ e.isScalar = false) ∨
      ∃ b m, e = .power b (.ofInt m) ∧ m ≠ -1) := by
  by_cases hexact : ∃ q, f = .scalar (.exact q)
  · obtain ⟨q, rfl⟩ := hexact
    rw [Expr.denominators, List.mem_ite_nil_left, List.mem_singleton] at he
    exact he.2 ▸ ⟨⟨.number _, h.size_le⟩, .inl ⟨q.den, rfl⟩⟩
  · rw [Expr.denominators_of_ne fun q hq => hexact ⟨q, hq⟩, List.mem_ite_nil_right, List.mem_singleton] at he
    obtain ⟨hrec, rfl⟩ := he
    have hlegible := h.legible
    have hsize := h.size_le
    cases hlegible with
    | @power b m hb =>
      rw [isReciprocal_power hb, decide_eq_true_eq] at hrec
      rw [Expr.size] at hsize
      rw [flipPower_ofInt]
      split
      · rename_i hm
        subst hm
        exact ⟨⟨hb, by omega⟩, .inr (.inl ⟨rfl, h.base b _ rfl⟩)⟩
      · exact ⟨⟨.power _ hb, hsize⟩, .inr (.inr ⟨b, -m, rfl, by omega⟩)⟩
    | _ => cases hrec

theorem Legible.ofExpr_of_plain {e : Expr} (h : Legible e) (hscalar : e.isScalar = false)
    (hproduct : e.isProduct = false) (hpower : e.isPower = false) :
    Precedence.ofExpr e = Precedence.sum ∨ Precedence.product < Precedence.ofExpr e := by
  cases h with
  | symbol _ => exact .inr (show Precedence.product < Precedence.atom by decide)
  | number q => cases hscalar
  | sum _ _ => exact .inl rfl
  | product _ _ => cases hproduct
  | power _ _ => cases hpower
  | call hf _ _ =>
    rw [ofExpr_operator hf]
    exact .inr (by decide)

/-- A denominator is put in parentheses where it is a product or a power of which the reciprocal is shown. -/
def wrapped (shown : List Expr) (e : Expr) (t : String) : String :=
  if shown.contains (.power e .negOne) && (e.isProduct || e.isPower) then "(" ++ t ++ ")" else t

theorem spells_denominator {n level : Nat} {shown : List Expr} {f e : Expr} {s : String} (hf : Factor n f)
    (hshown : f ∈ shown) (he : e ∈ Expr.denominators f) (hw : Written.{u} e s.toList) (hlevel : Precedence.sum ≤ level) :
    SpellsUnsigned.{u} .factor (wrapped shown e (enclosed level e s)).toList e := by
  obtain ⟨⟨hlegible, _⟩, hcases⟩ := denominators_cases hf he
  unfold wrapped
  split
  · have hgroup := (hw.enclosed_sum level).group.operand
    rw [toList_parenthesized]
    exact ⟨hgroup.factor, hgroup.unsigned⟩
  · rename_i hplain
    rcases hcases with ⟨d, rfl⟩ | ⟨rfl, hscalar⟩ | ⟨b, m, rfl, hm⟩
    · refine hw.enclosed_factor (.inr ?_) fun b hb => by cases hb
      rw [ofExpr_ofInt, if_neg (by omega)]
      decide
    · -- its reciprocal is shown, so without parentheses of its own it is neither a product nor a power
      have hcontains : shown.contains (.power e .negOne) = true := by simpa using hshown
      simp only [hcontains, Bool.true_and, Bool.or_eq_true, not_or, Bool.not_eq_true] at hplain
      refine hw.enclosed_factor ?_ fun b hb => by subst hb; exact absurd hplain.2 (by simp [Expr.isPower])
      rcases hlegible.ofExpr_of_plain hscalar hplain.1 hplain.2 with hsum | hlt
      · exact .inl (by omega)
      · exact .inr hlt
    · refine hw.enclosed_factor (.inr (show Precedence.product < Precedence.power by decide)) ?_
      intro c hc
      injection hc with _ hx
      exact hm (ofInt_inj.mp hx)

/-! ## Nodes -/

/-- Legible expressions of `fuel` nodes at most have a text, and it spells them. -/
def WrittenBelow (fuel : Nat) : Prop :=
  ∀ (e : Expr) (short : Bool), Legible e → e.size ≤ fuel → ∃ s, Expr.textF polars fuel short e = .ok s ∧
    Written.{u} e s.toList

section Nodes
variable {fuel : Nat}

/-- The pieces that a node is written from. -/
abbrev pieceOf (fuel : Nat) (e : Expr) : Piece := ⟨e, Expr.textF polars fuel true e⟩

theorem WrittenBelow.readable (h : WrittenBelow.{u} fuel) {es : List Expr}
    (hes : ∀ e ∈ es, Legible e ∧ e.size ≤ fuel) : ∀ p ∈ es.map (pieceOf fuel), Readable.{u} p ∧ Legible p.expr := by
  intro p hp
  obtain ⟨e, he, rfl⟩ := List.mem_map.mp hp
  exact ⟨h e true (hes e he).1 (hes e he).2, (hes e he).1⟩

theorem map_expr_pieceOf (es : List Expr) : (es.map (pieceOf fuel)).map (·.expr) = es := by
  rw [List.map_map]
  exact List.map_id es

theorem allWithin_written {ps : List Piece} (h : ∀ p ∈ ps, Readable.{u} p) (level : Nat) :
    ∃ ts, allWithin level ps = .ok ts ∧
      List.Forall₂ (fun t e => ∃ s : String, Written.{u} e s.toList ∧ t = enclosed level e s) ts (ps.map (·.expr)) := by
  induction ps with
  | nil => exact ⟨[], rfl, .nil⟩
  | cons p ps ih =>
    obtain ⟨s, hs, hw⟩ := h p (by simp)
    obtain ⟨ts, hts, hrest⟩ := ih fun q hq => h q (by simp [hq])
    exact ⟨_ :: ts, by rw [allWithin, within_eq hs, hts]; rfl, .cons ⟨s, hw, rfl⟩ hrest⟩

/-- Texts changed one by one. -/
theorem forall₂_zip {R Q : String → Expr → Prop} {ds : List String} {den : List Expr} (h : List.Forall₂ R ds den)
    (change : Expr → String → String) (hchange : ∀ t e, e ∈ den → R t e → Q (change e t) e) :
    List.Forall₂ Q ((den.zip ds).map fun p => change p.1 p.2) den := by
  induction h with
  | nil => exact .nil
  | cons hd _ ih => exact .cons (hchange _ _ (by simp) hd) (ih fun t e he => hchange t e (by simp [he]))

theorem WrittenBelow.sum (h : WrittenBelow.{u} fuel) {ts : List Expr} (hts : Legible (.sum ts))
    (hsize : Expr.sizeList ts ≤ fuel) (short : Bool) :
    ∃ s, Expr.textF polars (fuel + 1) short (.sum ts) = .ok s ∧ Written.{u} (.sum ts) s.toList := by
  cases hts with
  | sum hne hall =>
    have hperm : (Expr.sum ts).orderedTerms.Perm ts := Expr.orderedTerms_perm (.sum ts)
    have hterms : ∀ t ∈ (Expr.sum ts).orderedTerms, Legible t ∧ t.size ≤ fuel := fun t ht =>
      have ht := hperm.mem_iff.mp ht
      ⟨hall t ht, (Expr.size_le_sizeList ht).trans hsize⟩
    have hread := h.readable hterms
    obtain ⟨sts, hsts, hspell⟩ := signedTerms_spell (fun p hp => (hread p hp).1) fun p hp => (hread p hp).2.sum_le_ofExpr
    rw [map_expr_pieceOf] at hspell
    refine ⟨Expr.joinTerms sts, by rw [Expr.textF_sum, hsts]; rfl, .of_sum ?_⟩
    refine (spells_joinTerms hspell fun hnil => hne (hnil ▸ hperm).symm.eq_nil).congr fun K _ V => ?_
    rw [V.value_sum, V.value_sum, (hperm.map V.value).sum_eq]

/-- Factors are written as a fraction. -/
theorem WrittenBelow.fraction (h : WrittenBelow.{u} fuel) {shown : List Expr} (hfactors : ∀ f ∈ shown, Factor fuel f)
    {level : Nat} (hlevel : Precedence.sum ≤ level) :
    ∃ ns ds, allWithin level ((shown.flatMap Expr.numerators).map (pieceOf fuel)) = .ok ns ∧
      allWithin level ((shown.flatMap Expr.denominators).map (pieceOf fuel)) = .ok ds ∧
      SpellsUnsigned.{u} .term (Expr.fractionText ns
        (((shown.flatMap Expr.denominators).zip ds).map fun p => wrapped shown p.1 p.2)).toList (.product shown) := by
  have hnum : ∀ e ∈ shown.flatMap Expr.numerators, Legible e ∧ e.size ≤ fuel :=
    List.forall_mem_flatMap.mpr fun f hf => legible_numerators (hfactors f hf)
  have hden : ∀ e ∈ shown.flatMap Expr.denominators, Legible e ∧ e.size ≤ fuel :=
    List.forall_mem_flatMap.mpr fun f hf e he => (denominators_cases (hfactors f hf) he).1
  obtain ⟨ns, hns, hnums⟩ := allWithin_written (fun p hp => (h.readable hnum p hp).1) level
  obtain ⟨ds, hds, hdens⟩ := allWithin_written (fun p hp => (h.readable hden p hp).1) level
  rw [map_expr_pieceOf] at hnums hdens
  have hnumerators : SpellEach.{u} .term ns (shown.flatMap Expr.numerators) := hnums.imp fun t e ht => by
    obtain ⟨s, hw, rfl⟩ := ht
    exact hw.enclosed_term hlevel
  have hdenominators : SpellEach.{u} .factor
      (((shown.flatMap Expr.denominators).zip ds).map fun p => wrapped shown p.1 p.2)
      (shown.flatMap Expr.denominators) := forall₂_zip hdens (wrapped shown) fun t e he ht => by
    obtain ⟨f, hf, he⟩ := List.mem_flatMap.mp he
    obtain ⟨s, hw, rfl⟩ := ht
    exact spells_denominator (hfactors f hf) hf he hw hlevel
  obtain ⟨hspells, hunsigned⟩ := spells_fractionText hnumerators hdenominators
  refine ⟨ns, ds, hns, hds, hspells.congr fun K _ V => ?_, hunsigned⟩
  rw [V.value_product shown, value_fraction V fun f hf => (hfactors f hf).legible]
  simp

theorem WrittenBelow.product (h : WrittenBelow.{u} fuel) {fs : List Expr} (hfs : Legible (.product fs))
    (hsize : Expr.sizeList fs ≤ fuel) (short : Bool) :
    ∃ s, Expr.textF polars (fuel + 1) short (.product fs) = .ok s ∧ Written.{u} (.product fs) s.toList := by
  have hasIs : Expr.writtenAsIs fs = false := by
    cases hfs with
    | product heval _ => exact writtenAsIs_of_evaluated heval
  obtain ⟨hfactors, hsign⟩ := factors_signedFactors.{u} hfs hsize
  obtain ⟨ns, ds, hns, hds, hspells, hunsigned⟩ := h.fraction hfactors hfs.sum_le_ofExpr
  rw [Expr.textF_product _ _ _ hasIs]
  refine ⟨_, bind_eq_ok.mpr ⟨ns, hns, bind_eq_ok.mpr ⟨ds, hds, rfl⟩⟩, ?_⟩
  rcases hsign with ⟨hsign, hlevel, hagrees⟩ | ⟨hsign, hlevel, hagrees⟩
  · -- without a sign the fraction is the product
    rw [hsign, String.empty_append]
    have hterm : SpellsUnsigned.{u} .term _ (.product fs) := ⟨hspells.congr hagrees, hunsigned⟩
    exact .of_term (.inl hterm) (fun _ => hterm) (by rw [hlevel]; decide) (.inl (Nat.le_of_eq hlevel))
  · -- with a minus in front a product binds like a sum, so it is nowhere asked to be an unsigned term
    have hsum : ¬ Precedence.sum < Precedence.ofExpr (.product fs) := by omega
    rw [hsign, String.toList_append]
    refine .of_term (.inr ⟨_, rfl, hspells.congr hagrees⟩) (fun hlt => absurd hlt hsum) (by rw [hlevel]; decide) (.inl ?_)
    rw [hlevel]
    decide

theorem enclosed_exponent (n : Int) :
    (enclosed Precedence.power (.ofInt n) ((Scalar.exact n).text true)).toList = exponentText n := by
  have htext : ((Scalar.exact n).text true).toList =
      if 0 ≤ n then Nat.toDigits 10 n.toNat else '-' :: Nat.toDigits 10 (-n).toNat := by
    rw [text_whole (by simp), Rat.num_intCast, toList_toString_int]
  rw [enclosed, ofExpr_ofInt, exponentText]
  by_cases hn : n < 0
  · rw [if_pos hn, if_pos (by decide), toList_parenthesized, htext, if_neg (by omega), if_pos hn,
      show (-n).toNat = n.natAbs by omega]
    rfl
  · rw [if_neg hn, if_neg (by decide), htext, if_pos (by omega), if_neg hn, show n.toNat = n.natAbs by omega]

theorem ofInt_ne_ofRat {q : Rat} (hq : q.den ≠ 1) (n : Int) : Expr.ofInt n ≠ .ofRat q := by
  intro h
  injection h with h
  injection h with h
  exact hq (by rw [← h, Rat.den_intCast])

/-- Whole powers are no roots. -/
theorem textF_power_ofInt {b : Expr} (hb : Legible b) (n : Int) (short : Bool) :
    Expr.textF polars (fuel + 1) short (.power b (.ofInt n)) =
      if n = -1 then (do return "1/" ++ (← (pieceOf fuel b).within Precedence.power))
      else (do
        let x ← (pieceOf fuel (.ofInt n)).within Precedence.power
        return (← (pieceOf fuel b).within Precedence.power) ++ "**" ++ x) := by
  have hhalf : Expr.ofInt n ≠ .half := ofInt_ne_ofRat (by decide +kernel) n
  have hnegHalf : Expr.ofInt n ≠ .ofRat (-1 / 2) := ofInt_ne_ofRat (by decide +kernel) n
  have hnegOne : Expr.ofInt n = .negOne ↔ n = -1 := ofInt_inj
  rw [Expr.textF]
  simp only [hhalf, hnegHalf, hnegOne, (Legible.power n hb).commutes, if_false, decide_false, Bool.and_true,
    Bool.false_eq_true, decide_eq_true_eq]

theorem WrittenBelow.power (h : WrittenBelow.{u} fuel) {b : Expr} (hb : Legible b) (n : Int)
    (hsize : b.size < fuel) (short : Bool) : ∃ s, Expr.textF polars (fuel + 1) short (.power b (.ofInt n)) = .ok s ∧
      Written.{u} (.power b (.ofInt n)) s.toList := by
  obtain ⟨s, hs, hw⟩ := h b true hb hsize.le
  have hbase := hw.enclosed_operand
  have hwithin := within_eq (p := pieceOf fuel b) hs Precedence.power
  rw [textF_power_ofInt hb]
  split
  · rename_i hn
    subst hn
    -- the reciprocal is a fraction: a term, though it binds like a power
    refine ⟨_, bind_eq_ok.mpr ⟨_, hwithin, rfl⟩, ?_⟩
    have hone := spells_digits.{u} 1
    have hterm : SpellsUnsigned.{u} .term ('1' :: '/' :: (enclosed Precedence.power b s).toList) (.power b .negOne) :=
      ⟨(hone.factor.term.over hbase.factor).congr fun K _ V => by simp, by simp⟩
    rw [String.toList_append]
    exact .of_term (.inl hterm) (fun _ => hterm) (Nat.le_refl _) (.inr ⟨b, rfl⟩)
  · obtain ⟨k, rfl⟩ : ∃ k, fuel = k + 1 := ⟨fuel - 1, by omega⟩
    have hexponent := within_eq (p := pieceOf (k + 1) (.ofInt n)) (Expr.textF_scalar polars k true (.exact n))
      Precedence.power
    refine ⟨_, bind_eq_ok.mpr ⟨_, hexponent, bind_eq_ok.mpr ⟨_, hwithin, rfl⟩⟩, ?_⟩
    rw [String.toList_append, String.toList_append, List.append_assoc, enclosed_exponent]
    exact .of_factor ⟨hbase.power n, head?_append_unsigned hbase.unsigned hbase.ne_nil⟩ (Nat.le_refl _)

theorem WrittenBelow.call (h : WrittenBelow.{u} fuel) {f : Func} {as : List Expr} (hcall : Legible (.apply f as))
    (hsize : Expr.sizeList as ≤ fuel) (short : Bool) :
    ∃ s, Expr.textF polars (fuel + 1) short (.apply f as) = .ok s ∧ Written.{u} (.apply f as) s.toList := by
  cases hcall with
  | call hf hmethod hall =>
    obtain ⟨call, hcall, hspells⟩ := callSpells_operator.{u} hf
    have hargs := h.readable fun a ha => ⟨hall a ha, (Expr.size_le_sizeList ha).trans hsize⟩
    obtain ⟨s, hs, hprimary⟩ := hspells (as.map (pieceOf fuel)) (by simp) hargs (by simpa using hmethod)
    rw [map_expr_pieceOf] at hprimary
    exact ⟨s, by rw [Expr.textF_call _ _ _ hcall, ofExpr_operator hf]; exact hs, .of_primary hprimary⟩

theorem writtenBelow (fuel : Nat) : WrittenBelow.{u} fuel := by
  induction fuel with
  | zero =>
    intro e short _ hsize
    have hpos := e.one_le_size
    omega
  | succ fuel ih =>
    intro e short he hsize
    cases he with
    | symbol hn => exact ⟨_, Expr.textF_symbol polars fuel short _, .of_primary (spells_column hn)⟩
    | number q => exact ⟨_, Expr.textF_scalar polars fuel short _, written_exact q short⟩
    | sum hne hall =>
      rw [Expr.size] at hsize
      exact ih.sum (.sum hne hall) (by omega) short
    | product heval hall =>
      rw [Expr.size] at hsize
      exact ih.product (.product heval hall) (by omega) short
    | power n hb =>
      have hone : (Expr.ofInt n).size = 1 := rfl
      rw [Expr.size, hone] at hsize
      exact ih.power hb n (by omega) short
    | call hf hmethod hall =>
      rw [Expr.size] at hsize
      exact ih.call (.call hf hmethod hall) (by omega) short

end Nodes

/-! ## Code -/

/-- Polars code of a legible expression can be written, it can be read, and what it is read as has the value of the
expression, in every field and whatever columns and operators mean. -/
theorem write_faithful {e : Expr} (h : Legible e) : ∃ code tree d, e.write polars = .ok code ∧
    parse code = .ok tree ∧ readCode tree = some d ∧
    ∀ (K : Type u) [Field K] (V : Valuation K), V.value d = V.value e := by
  obtain ⟨code, hcode, hw⟩ := writtenBelow.{u} e.textBudget e false h (by unfold Expr.textBudget; omega)
  obtain ⟨xs, tree, hxs, hphrase, d, hd, hagrees⟩ := hw.sum
  have hparse : parse code = .ok tree := by
    rw [← String.ofList_toList (s := code), hxs]
    exact parse_phrase (.expression hphrase)
  exact ⟨code, tree, d, hcode, hparse, hd, hagrees⟩

/-- A number, a power of a deviation in the denominator, and the size of a square. -/
def pullback : Expr :=
  .product [.scalar (.exact (-3 / 2)),
    .power (.apply (.named "ts_std_dev") [.sum [.symbol "CLOSE", .product [.negOne, .symbol "OPEN"]], .ofInt 10])
      (.ofInt (-2)),
    .apply .abs [.power (.symbol "CLOSE") (.ofInt 2)]]

theorem legible_pullback : Legible pullback := by
  have hclose : Legible (.symbol "CLOSE") := .symbol (by decide)
  have hopen : Legible (.product [.negOne, .symbol "OPEN"]) := by
    refine .product ⟨by decide, by simp [Expr.isScalar], by simp [Expr.negOne, Expr.ofInt], by simp⟩ ?_
    exact List.forall_mem_cons.mpr ⟨.number _, List.forall_mem_singleton.mpr (.symbol (by decide))⟩
  have hspread : Legible (.sum [.symbol "CLOSE", .product [.negOne, .symbol "OPEN"]]) :=
    .sum (by simp) (List.forall_mem_cons.mpr ⟨hclose, List.forall_mem_singleton.mpr hopen⟩)
  have hdeviation : Legible (.apply (.named "ts_std_dev") [.sum [.symbol "CLOSE", .product [.negOne, .symbol "OPEN"]],
      .ofInt 10]) :=
    @Legible.call _ _ true (by decide) (by simp [Expr.isScalar])
      (List.forall_mem_cons.mpr ⟨hspread, List.forall_mem_singleton.mpr (.number _)⟩)
  have hsize : Legible (.apply .abs [.power (.symbol "CLOSE") (.ofInt 2)]) :=
    @Legible.call _ _ false (by decide) (by simp) (List.forall_mem_singleton.mpr (.power 2 hclose))
  refine .product ⟨by decide +kernel, by simp [Expr.isScalar], by simp [Expr.isScalar], by simp⟩ ?_
  exact List.forall_mem_cons.mpr ⟨.number _, List.forall_mem_cons.mpr ⟨.power (-2) hdeviation,
    List.forall_mem_singleton.mpr hsize⟩⟩

/-- The code of `pullback` is
`-3*(pl.col('CLOSE')**2).abs()/(2*(pl.col('CLOSE') - pl.col('OPEN')).rolling_std(10, ddof=0)**2)`. -/
theorem write_faithful_pullback : Legible pullback ∧ ∃ code tree d, pullback.write polars = .ok code ∧
    parse code = .ok tree ∧ readCode tree = some d ∧
    ∀ (K : Type) [Field K] (V : Valuation K), V.value d = V.value pullback :=
  ⟨legible_pullback, write_faithful legible_pullback⟩

end Target

end FactorPlan
