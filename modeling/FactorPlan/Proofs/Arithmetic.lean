import FactorPlan.Proofs.Provision

/-!
What evaluated sums, products and powers are made of. Each step of evaluating a sum, a
product or a power puts together parts of the expressions it is given, and numbers. So the
result is made of what those are made of: there is one lemma for each function, and for the
functions that call each other one statement over the number of steps (`multiplies`).
-/

namespace FactorPlan

namespace Expr

open Palette

variable {S : Palette}

@[simp, grind .] theorem supplies_ofRat (q : Rat) : S.Supplies (ofRat q) := supplies_scalar _
@[simp, grind .] theorem supplies_ofInt (n : Int) : S.Supplies (ofInt n) := supplies_scalar _
@[simp, grind .] theorem supplies_zero : S.Supplies zero := supplies_scalar _
@[simp, grind .] theorem supplies_one : S.Supplies one := supplies_scalar _
@[simp, grind .] theorem supplies_negOne : S.Supplies negOne := supplies_scalar _
@[simp, grind .] theorem supplies_nan : S.Supplies nan := supplies_scalar _
@[simp, grind .] theorem supplies_undirected : S.Supplies undirected := supplies_constant _

@[grind .] theorem supplies_rawSum {es : List Expr} (h : ∀ e ∈ es, S.Supplies e) :
    S.Supplies (rawSum es) := by
  unfold rawSum
  split <;> grind

@[grind .] theorem supplies_rawProduct {es : List Expr} (h : ∀ e ∈ es, S.Supplies e) :
    S.Supplies (rawProduct es) := by
  unfold rawProduct
  split <;> grind

@[grind →] theorem supplies_terms {e : Expr} (h : S.Supplies e) : ∀ t ∈ e.terms, S.Supplies t := by
  unfold terms
  split <;> grind

theorem supplies_factors {e : Expr} (h : S.Supplies e) : ∀ f ∈ e.factors, S.Supplies f := by
  unfold factors
  split <;> grind

@[grind .] theorem supplies_splitCoeff {e : Expr} (h : S.Supplies e) :
    S.Supplies e.splitCoeff.2 := by
  unfold splitCoeff
  split <;> grind

@[grind .] theorem supplies_splitConstant {e : Expr} (h : S.Supplies e) :
    S.Supplies e.splitConstant.2 := by
  unfold splitConstant
  split <;> grind

theorem supplies_scalarPower (b e : Scalar) : ∀ r ∈ scalarPower b e, S.Supplies r := by
  unfold scalarPower
  repeat' split
  all_goals simp [Option.mem_def]
  all_goals grind

/-- Sorting an expression list keeps what is in it. -/
@[simp, grind =] theorem mem_sortCanonical {es : List Expr} {e : Expr} :
    e ∈ sortCanonical es ↔ e ∈ es := mem_sortBy

/-! ## Sums -/

theorem supplies_openPower? (e : Expr) : ∀ r ∈ openPower? e, S.Supplies r := by
  unfold openPower?
  grind [supplies_scalarPower]

theorem supplies_nestedTerms {e : Expr} (h : S.Supplies e) : ∀ t ∈ nestedTerms e, S.Supplies t := by
  unfold nestedTerms
  grind [supplies_openPower?]

theorem supplies_spreadTerms (fuel : Nat) {es : List Expr} (h : ∀ e ∈ es, S.Supplies e) :
    ∀ t ∈ spreadTerms fuel es, S.Supplies t := by
  induction fuel generalizing es with
  | zero => exact h
  | succ fuel ih =>
    have hlater : ∀ t ∈ es.flatMap nestedTerms, S.Supplies t := by
      intro t ht
      obtain ⟨e, he, ht⟩ := List.mem_flatMap.mp ht
      exact supplies_nestedTerms (h e he) t ht
    unfold spreadTerms
    grind

theorem supplies_addCoeff {s : Expr} {c : Scalar} {ts : List (Expr × Scalar)} (hs : S.Supplies s)
    (h : ∀ t ∈ ts, S.Supplies t.1) : ∀ t ∈ addCoeff s c ts, S.Supplies t.1 := by
  induction ts with
  | nil => grind [addCoeff]
  | cons t ts ih => grind [addCoeff]

theorem Collected.supplies_add {c d : Collected} {e : Expr} (he : S.Supplies e)
    (hc : ∀ t ∈ c.terms, S.Supplies t.1) (h : c.add e = some d) :
    ∀ t ∈ d.terms, S.Supplies t.1 := by
  unfold Collected.add at h
  split at h
  · grind
  · grind
  · -- any other term is listed with its coefficient split off
    cases h
    refine supplies_addCoeff ?_ hc
    split
    · exact supplies_splitCoeff he
    · exact he

theorem supplies_scaled {c : Scalar} {e : Expr} (h : S.Supplies e) : S.Supplies (scaled c e) := by
  unfold scaled
  grind

theorem mem_of_mem_beside {number : Option Scalar} {ts : List Expr} {t : Expr}
    (h : t ∈ beside number ts) : t ∈ ts := by
  unfold beside at h
  grind

/-- A fold that may fail keeps what each step keeps. -/
theorem foldlM_keeps {α β : Type} {P : β → Prop} {step : β → α → Option β} {as : List α} {b c : β}
    (hstep : ∀ b c a, a ∈ as → P b → step b a = some c → P c) (hb : P b)
    (h : as.foldlM step b = some c) : P c := by
  induction as generalizing b with
  | nil => cases h; exact hb
  | cons a as ih =>
    rw [List.foldlM_cons, Option.bind_eq_bind, Option.bind_eq_some_iff] at h
    obtain ⟨d, hd, h⟩ := h
    exact ih (fun b c x hx => hstep b c x (List.mem_cons_of_mem a hx))
      (hstep b d a List.mem_cons_self hb hd) h

theorem supplies_sumOf_general {es : List Expr} (h : ∀ e ∈ es, S.Supplies e) :
    S.Supplies (sumOf.general es) := by
  unfold sumOf.general
  split
  · exact supplies_nan
  · rename_i c hc
    have hterms : ∀ t ∈ c.terms, S.Supplies t.1 :=
      foldlM_keeps (P := fun c : Collected => ∀ t ∈ c.terms, S.Supplies t.1)
        (fun _ _ e he hd => Collected.supplies_add (supplies_spreadTerms _ h e he) hd) (by simp) hc
    have hparts : ∀ t ∈ sortCanonical (beside c.number
        ((c.terms.filter (fun p => !p.2.isZero)).map (fun p => scaled p.2 p.1))), S.Supplies t := by
      intro t ht
      obtain ⟨p, hp, rfl⟩ := List.mem_map.mp (mem_of_mem_beside (mem_sortCanonical.mp ht))
      exact supplies_scaled (hterms p (List.mem_filter.mp hp).1)
    grind

@[grind .] theorem supplies_sumOf {es : List Expr} (h : ∀ e ∈ es, S.Supplies e) :
    S.Supplies (sumOf es) := by
  unfold sumOf
  have hrest : ∀ e ∈ es.filter (· ≠ zero), S.Supplies e := fun e he => h e (List.mem_filter.mp he).1
  generalize es.filter (· ≠ zero) = fs at hrest ⊢
  have := supplies_sumOf_general hrest
  grind

/-! ## Factors and exponents -/

@[grind .] theorem supplies_negateTerm {e : Expr} (h : S.Supplies e) :
    S.Supplies (negateTerm e) := by
  unfold negateTerm
  split <;> grind

theorem supplies_keepCoeff {c : Scalar} {e : Expr} (h : S.Supplies e) :
    S.Supplies (keepCoeff c e) := by
  have hterms : ∀ t ∈ (splitConstant e).2.terms, S.Supplies t :=
    supplies_terms (supplies_splitConstant h)
  unfold keepCoeff
  grind

theorem supplies_distribute {c : Scalar} {e : Expr} (h : S.Supplies e) :
    S.Supplies (distribute c e) := by
  have hterms : ∀ t ∈ (splitConstant e).2.terms, S.Supplies t :=
    supplies_terms (supplies_splitConstant h)
  unfold distribute
  grind [supplies_keepCoeff]

theorem supplies_spreadFactors (fuel : Nat) {es : List Expr} (h : ∀ e ∈ es, S.Supplies e) :
    ∀ f ∈ spreadFactors fuel es, S.Supplies f := by
  induction fuel generalizing es with
  | zero => exact h
  | succ fuel ih =>
    unfold spreadFactors
    grind

theorem supplies_baseExponent_negateTerm {e : Expr} (h : S.Supplies e) :
    S.Supplies (baseExponent.negateTerm e) := by
  unfold baseExponent.negateTerm
  grind

theorem supplies_baseExponent_negateRaw {e : Expr} (h : S.Supplies e) :
    S.Supplies (baseExponent.negateRaw e) := by
  unfold baseExponent.negateRaw
  grind [supplies_baseExponent_negateTerm]

@[grind .] theorem supplies_baseExponent {e : Expr} (h : S.Supplies e) :
    S.Supplies e.baseExponent.1 ∧ S.Supplies e.baseExponent.2 := by
  unfold baseExponent
  grind [supplies_baseExponent_negateRaw]

theorem supplies_addExponent {b e : Expr} {ps : Powers} (hb : S.Supplies b) (he : S.Supplies e)
    (h : ∀ p ∈ ps, S.Supplies p.1 ∧ ∀ q ∈ p.2, S.Supplies q.1) :
    ∀ p ∈ addExponent b e ps, S.Supplies p.1 ∧ ∀ q ∈ p.2, S.Supplies q.1 := by
  have htail := supplies_splitCoeff he
  induction ps with
  | nil => grind [addExponent]
  | cons p ps ih =>
    obtain ⟨hp, hps⟩ := List.forall_mem_cons.mp h
    unfold addExponent
    split
    · exact List.forall_mem_cons.mpr ⟨⟨hp.1, supplies_addCoeff htail hp.2⟩, hps⟩
    · exact List.forall_mem_cons.mpr ⟨hp, ih hps⟩

theorem mem_of_mem_besideInfinity {es : List Expr} {e : Expr} (h : e ∈ (besideInfinity es).1) :
    e ∈ es := by
  induction es with
  | nil => exact h
  | cons a es ih => grind [besideInfinity]

theorem supplies_nonnegFactors {fs : List Expr} (h : ∀ f ∈ fs, S.Supplies f) :
    ∀ f ∈ (nonnegFactors fs).1 ++ (nonnegFactors fs).2, S.Supplies f := by
  have hsome : ∀ p : Expr → Bool, ∀ f ∈ fs.filter p, S.Supplies f :=
    fun _ f hf => h f (List.mem_filter.mp hf).1
  have hnonneg := hsome (·.facts.nonneg)
  have hother := hsome (fun f => !f.facts.nonneg && !f.facts.nonpos)
  have hneg := hsome (fun f => !f.facts.nonneg && f.facts.nonpos)
  unfold nonnegFactors
  generalize fs.filter (·.facts.nonneg) = nonneg at *
  generalize fs.filter (fun f => !f.facts.nonneg && !f.facts.nonpos) = other at *
  generalize fs.filter (fun f => !f.facts.nonneg && f.facts.nonpos) = neg at *
  dsimp only
  split
  · grind
  · split
    · grind
    · split <;> grind

/-- The powers met of a product are over expressions of the provision. -/
def Gathered.Within (S : Palette) (g : Gathered) : Prop :=
  (∀ p ∈ g.powers, S.Supplies p.1 ∧ S.Supplies p.2) ∧
    ∀ p ∈ g.numberPowers, S.Supplies p.1 ∧ S.Supplies p.2

theorem Gathered.Within.scale {g g' : Gathered} {s : Scalar} (hg : g.Within S)
    (h : g.scale s = some g') : g'.Within S := by
  unfold Gathered.scale at h
  grind [Gathered.Within]

theorem Gathered.Within.push {g : Gathered} {b x : Expr} (hg : g.Within S) (hb : S.Supplies b)
    (hx : S.Supplies x) : Within S { g with powers := g.powers ++ [(b, x)] } :=
  ⟨List.forall_mem_append.mpr ⟨hg.1, List.forall_mem_singleton.mpr ⟨hb, hx⟩⟩, hg.2⟩

theorem Gathered.Within.pushNumber {g : Gathered} {b x : Expr} (hg : g.Within S)
    (hb : S.Supplies b) (hx : S.Supplies x) :
    Within S { g with numberPowers := g.numberPowers ++ [(b, x)] } :=
  ⟨hg.1, List.forall_mem_append.mpr ⟨hg.2, List.forall_mem_singleton.mpr ⟨hb, hx⟩⟩⟩

theorem Gathered.Within.mul {g g' : Gathered} {e : Expr} (hg : g.Within S) (he : S.Supplies e)
    (h : g.mul e = some g') : g'.Within S := by
  have hparts := supplies_baseExponent he
  unfold Gathered.mul at h
  split at h
  · exact hg.scale h
  · split at h
    · split at h <;> cases h
      exact hg
    · cases h
      exact hg
  · cases h
    exact hg
  · -- a power of numbers; only one that has no value is kept as it stands
    split at h
    · split at h
      · split at h
        · exact hg.scale h
        · cases h
          exact hg
        · cases h
      · dsimp only at h
        split at h
        · refine Gathered.Within.scale ?_ h
          repeat' split
          all_goals exact hg
        · cases h
    · split at h
      · exact hg.scale h
      · cases h
        exact hg.push (supplies_scalar _) (supplies_scalar _)
  · dsimp only at h
    split at h <;> cases h
    · exact hg.pushNumber hparts.1 hparts.2
    · exact hg.push hparts.1 hparts.2
  · cases h
    exact hg.push hparts.1 hparts.2

/-! ## Products and powers -/

/-- What evaluating products and powers within some steps makes of expressions of the provision. -/
structure Multiplies (S : Palette) (fuel : Nat) : Prop where
  productF : ∀ {es}, (∀ e ∈ es, S.Supplies e) → S.Supplies (productF fuel es)
  productGeneral : ∀ {es}, (∀ e ∈ es, S.Supplies e) → S.Supplies (productGeneral fuel es)
  joinFixed : ∀ {met es}, (∀ e ∈ met, S.Supplies e) → (∀ e ∈ es, S.Supplies e) →
    ∀ e ∈ joinFixed fuel met es, S.Supplies e
  finishProduct : ∀ {number parts fixed}, (∀ e ∈ parts, S.Supplies e) →
    (∀ e ∈ fixed, S.Supplies e) → S.Supplies (finishProduct fuel number parts fixed)
  gatherExponents : ∀ {ps}, (∀ p ∈ ps, S.Supplies p.1 ∧ S.Supplies p.2) →
    ∀ p ∈ gatherExponents fuel ps, S.Supplies p.1 ∧ S.Supplies p.2
  collectPowers : ∀ {rounds number ps}, (∀ p ∈ ps, S.Supplies p.1 ∧ S.Supplies p.2) →
    ∀ e ∈ (collectPowers fuel rounds number ps).2, S.Supplies e
  powerF : ∀ {b x}, S.Supplies b → S.Supplies x → S.Supplies (powerF fuel b x)
  powerOf : ∀ {b x}, S.Supplies b → S.Supplies x → S.Supplies (powerOf fuel b x)

/-- Powers that stand as they are. -/
theorem supplies_rawPowers {ps : List (Expr × Expr)}
    (h : ∀ p ∈ ps, S.Supplies p.1 ∧ S.Supplies p.2) :
    ∀ e ∈ ps.map (fun p => if p.2 = one then p.1 else .power p.1 p.2), S.Supplies e := by
  intro e he
  obtain ⟨p, hp, rfl⟩ := List.mem_map.mp he
  have := h p hp
  grind

theorem multiplies_zero : Multiplies S 0 where
  productF h := by rw [Expr.productF]; exact supplies_rawProduct h
  productGeneral h := by rw [Expr.productGeneral]; exact supplies_rawProduct h
  joinFixed hm h := by rw [Expr.joinFixed]; grind
  finishProduct hp hf := by
    rw [Expr.finishProduct]
    exact supplies_rawProduct (List.forall_mem_append.mpr ⟨hp, hf⟩)
  gatherExponents h := by rw [Expr.gatherExponents]; exact h
  collectPowers h := by rw [Expr.collectPowers]; exact supplies_rawPowers h
  powerF hb hx := by rw [Expr.powerF]; exact (supplies_power _ _).mpr ⟨hb, hx⟩
  powerOf hb hx := by rw [Expr.powerOf]; exact (supplies_power _ _).mpr ⟨hb, hx⟩

section Step
variable {fuel : Nat}

theorem Multiplies.productF_succ (h : Multiplies S fuel) {es : List Expr}
    (hes : ∀ e ∈ es, S.Supplies e) : S.Supplies (Expr.productF (fuel + 1) es) := by
  have hrest : ∀ e ∈ es.filter (· ≠ one), S.Supplies e := fun e he =>
    hes e (List.mem_filter.mp he).1
  unfold Expr.productF
  generalize es.filter (· ≠ one) = fs at *
  dsimp only
  split
  · exact supplies_one
  · exact hrest _ List.mem_cons_self
  · -- of two factors, one that is an exact number comes first
    rename_i a b
    have hswap : ∀ p, (if b.isExact then (b, a) else (a, b)) = p →
        S.Supplies p.1 ∧ S.Supplies p.2 := by grind
    generalize (if b.isExact then (b, a) else (a, b)) = p at hswap ⊢
    obtain ⟨ha, hb⟩ := hswap p rfl
    have hpair : S.Supplies (Expr.productGeneral fuel [p.1, p.2]) := h.productGeneral (by grind)
    have htail := supplies_splitCoeff hb
    have hspread (q : Scalar) := supplies_distribute (c := q) htail
    split
    · rename_i q hq
      rw [hq] at hpair
      grind
    · exact hpair
  · exact h.productGeneral hrest

theorem Multiplies.joinFixed_succ (h : Multiplies S fuel) {met es : List Expr}
    (hmet : ∀ e ∈ met, S.Supplies e) (hes : ∀ e ∈ es, S.Supplies e) :
    ∀ e ∈ Expr.joinFixed (fuel + 1) met es, S.Supplies e := by
  cases es with
  | nil =>
    rw [Expr.joinFixed]
    · grind
    · exact Nat.succ_ne_zero fuel
  | cons e es =>
    obtain ⟨he, hes⟩ := List.forall_mem_cons.mp hes
    cases met with
    | nil =>
      rw [Expr.joinFixed]
      exact h.joinFixed (List.forall_mem_singleton.mpr he) hes
    | cons m met =>
      obtain ⟨hm, hmet'⟩ := List.forall_mem_cons.mp hmet
      have hb := supplies_baseExponent hm
      have hc := supplies_baseExponent he
      have hsum : S.Supplies (sumOf [m.baseExponent.2, e.baseExponent.2]) :=
        supplies_sumOf (List.forall_mem_cons.mpr ⟨hb.2, List.forall_mem_singleton.mpr hc.2⟩)
      have hpower := h.powerF hb.1 hsum
      rw [Expr.joinFixed]
      dsimp only
      split
      · split
        · exact h.joinFixed hmet' hes
        · exact h.joinFixed hmet' (List.forall_mem_cons.mpr ⟨hpower, hes⟩)
      · exact h.joinFixed (List.forall_mem_cons.mpr ⟨he, hmet⟩) hes

theorem Multiplies.gatherExponents_succ (h : Multiplies S fuel) {ps : List (Expr × Expr)}
    (hps : ∀ p ∈ ps, S.Supplies p.1 ∧ S.Supplies p.2) :
    ∀ p ∈ Expr.gatherExponents (fuel + 1) ps, S.Supplies p.1 ∧ S.Supplies p.2 := by
  -- exponents are kept by their bases, each with its number in front of it
  have htable : ∀ p ∈ ps.foldl (fun (t : Powers) p => addExponent p.1 p.2 t) [],
      S.Supplies p.1 ∧ ∀ q ∈ p.2, S.Supplies q.1 :=
    List.foldlRecOn ps _ (motive := fun t : Powers =>
        ∀ p ∈ t, S.Supplies p.1 ∧ ∀ q ∈ p.2, S.Supplies q.1) (by simp)
      fun _ ht p hp => supplies_addExponent (hps p hp).1 (hps p hp).2 ht
  intro p hp
  unfold Expr.gatherExponents at hp
  obtain ⟨t, ht, hp⟩ := List.mem_flatMap.mp hp
  obtain ⟨q, hq, rfl⟩ := List.mem_map.mp hp
  have hq := (htable t ht).2 q hq
  have hscaled : S.Supplies (Expr.productF fuel [.scalar q.2, q.1]) := h.productF (by grind)
  refine ⟨(htable t ht).1, ?_⟩
  grind

theorem Multiplies.collectPowers_succ (h : Multiplies S fuel) {rounds : Nat}
    {number : Option Scalar} {ps : List (Expr × Expr)}
    (hps : ∀ p ∈ ps, S.Supplies p.1 ∧ S.Supplies p.2) :
    ∀ e ∈ (Expr.collectPowers (fuel + 1) rounds number ps).2, S.Supplies e := by
  cases rounds with
  | zero =>
    rw [Expr.collectPowers]
    · exact supplies_rawPowers hps
    · exact Nat.succ_ne_zero fuel
  | succ rounds =>
    have hkept : ∀ p ∈ (Expr.gatherExponents fuel ps).filter (fun p => !p.2.facts.zero),
        S.Supplies p.1 ∧ S.Supplies p.2 :=
      fun p hp => h.gatherExponents hps p (List.mem_filter.mp hp).1
    rw [Expr.collectPowers]
    generalize (Expr.gatherExponents fuel ps).filter (fun p => !p.2.facts.zero) = qs at hkept ⊢
    have htaken : ∀ p ∈ qs, S.Supplies (Expr.powerF fuel p.1 p.2) :=
      fun p hp => h.powerF (hkept p hp).1 (hkept p hp).2
    dsimp only
    split
    · refine h.collectPowers fun p hp => ?_
      obtain ⟨o, ho, rfl⟩ := List.mem_map.mp hp
      obtain ⟨q, hq, rfl⟩ := List.mem_map.mp ho
      have hparts := supplies_baseExponent (htaken q hq)
      grind
    · intro e he
      obtain ⟨o, ho, rfl⟩ := List.mem_map.mp (List.mem_filter.mp he).1
      obtain ⟨q, hq, rfl⟩ := List.mem_map.mp ho
      grind

theorem Multiplies.finishProduct_succ (h : Multiplies S fuel) {number : Option Scalar}
    {parts fixed : List Expr} (hparts : ∀ e ∈ parts, S.Supplies e)
    (hfixed : ∀ e ∈ fixed, S.Supplies e) :
    S.Supplies (Expr.finishProduct (fuel + 1) number parts fixed) := by
  unfold Expr.finishProduct
  split
  · exact supplies_rawProduct (by grind)
  · rename_i n
    split
    · grind
    · -- an infinity takes the factors of known sign
      have hleft : ∀ p, (if n.isInfinite then besideInfinity parts else (parts, false)) = p →
          ∀ e ∈ p.1, S.Supplies e := by
        rintro p rfl e he
        split at he
        · exact hparts e (mem_of_mem_besideInfinity he)
        · exact hparts e he
      generalize (if n.isInfinite then besideInfinity parts else (parts, false)) = p at hleft ⊢
      have hleft := hleft p rfl
      dsimp only
      have hsorted : ∀ e ∈ sortCanonical (p.1.filter (!·.isScalar)), S.Supplies e := by grind
      generalize sortCanonical (p.1.filter (!·.isScalar)) = es at hsorted ⊢
      generalize List.foldl _ _ p.1 = k
      split
      · exact supplies_nan
      · split
        · exact supplies_rawProduct (by grind)
        · split
          · rename_i ts
            have hts := (supplies_sum ts).mp (hsorted _ List.mem_cons_self)
            split
            · refine supplies_sumOf fun t ht => ?_
              obtain ⟨u, hu, rfl⟩ := List.mem_map.mp ht
              exact h.productF (by grind)
            · grind
          · exact supplies_rawProduct (by grind)

theorem Multiplies.powerF_succ (h : Multiplies S fuel) {b x : Expr} (hb : S.Supplies b)
    (hx : S.Supplies x) : S.Supplies (Expr.powerF (fuel + 1) b x) := by
  have hneg := supplies_negateTerm hb
  have hsame := h.powerOf hb hx
  have hopposite := h.powerOf hneg hx
  have hturned := supplies_negateTerm (h.powerF hneg hx)
  unfold Expr.powerF
  grind

theorem Multiplies.powerOf_succ (h : Multiplies S fuel) {b x : Expr} (hb : S.Supplies b)
    (hx : S.Supplies x) : S.Supplies (Expr.powerOf (fuel + 1) b x) := by
  have hpower : S.Supplies (.power b x) := (supplies_power b x).mpr ⟨hb, hx⟩
  unfold Expr.powerOf
  split
  · exact hb
  · split
    · rename_i s t _
      cases hs : scalarPower s t with
      | none => exact hpower
      | some r => exact supplies_scalarPower s t r hs
    · grind
    · grind
    · rename_i fs t _
      have hfs := (supplies_product fs).mp hb
      dsimp only
      split
      · refine h.productF ?_
        grind
      · split
        · exact hpower
        · split
          · -- factors that are not negative are raised one by one, the others together
            have hsplit := List.forall_mem_append.mp (supplies_nonnegFactors hfs)
            refine h.productF (List.forall_mem_append.mpr ⟨fun f hf => ?_, ?_⟩)
            · obtain ⟨g, hg, rfl⟩ := List.mem_map.mp hf
              exact h.powerF (hsplit.1 g hg) hx
            · have := h.productF hsplit.2
              grind
          · exact hpower
    · rename_i x' c y
      obtain ⟨hc, hy⟩ := (supplies_power c y).mp hb
      have hproduct : S.Supplies (Expr.productF fuel [y, x]) := h.productF (by grind)
      have hjoined := h.powerF hc hproduct
      grind
    · rename_i ts t _
      have hts := (supplies_sum ts).mp hb
      split
      · split
        · -- the largest coefficient is taken out of the sum
          rename_i big _
          refine h.productF (List.forall_mem_cons.mpr ⟨h.powerF (supplies_scalar _) hx,
            List.forall_mem_singleton.mpr (h.powerF (supplies_sumOf fun u hu => ?_) hx)⟩)
          obtain ⟨v, hv, rfl⟩ := List.mem_map.mp hu
          have htail := supplies_splitCoeff (hts v hv)
          exact h.productF (by grind)
        · exact hpower
      · exact hpower
    · exact hpower

/-- Bases put together by their exponents. -/
theorem supplies_groupBases {ps : List (Expr × Expr)}
    (h : ∀ p ∈ ps, S.Supplies p.1 ∧ S.Supplies p.2) :
    ∀ q ∈ ps.foldl (fun (acc : List (Expr × List Expr)) p =>
        if acc.any (·.1 = p.2) then acc.map (fun q => if q.1 = p.2 then (q.1, q.2 ++ [p.1]) else q)
        else acc ++ [(p.2, [p.1])]) [],
      S.Supplies q.1 ∧ ∀ e ∈ q.2, S.Supplies e := by
  refine List.foldlRecOn ps _ (motive := fun acc : List (Expr × List Expr) =>
    ∀ q ∈ acc, S.Supplies q.1 ∧ ∀ e ∈ q.2, S.Supplies e) (by simp) fun acc hacc p hp => ?_
  have := h p hp
  split
  · intro q hq
    obtain ⟨r, hr, rfl⟩ := List.mem_map.mp hq
    have := hacc r hr
    split <;> grind
  · exact List.forall_mem_append.mpr ⟨hacc, by grind⟩

theorem Multiplies.productGeneral_succ (h : Multiplies S fuel) {es : List Expr}
    (hes : ∀ e ∈ es, S.Supplies e) : S.Supplies (Expr.productGeneral (fuel + 1) es) := by
  have hspread := supplies_spreadFactors (sizeList es) hes
  rw [Expr.productGeneral]
  generalize spreadFactors (sizeList es) es = fs at hspread ⊢
  have hfixed : ∀ e ∈ Expr.joinFixed fuel [] (fs.filter (!·.commutes)), S.Supplies e :=
    h.joinFixed (by simp) (by grind)
  generalize Expr.joinFixed fuel [] (fs.filter (!·.commutes)) = fixed at hfixed ⊢
  dsimp only
  split
  · exact supplies_nan
  · rename_i g hg
    have hwithin : g.Within S :=
      foldlM_keeps (P := Gathered.Within S) (fun _ _ e he hd => hd.mul (by grind))
        ⟨by simp, by simp⟩ hg
    have hparts : ∀ e ∈ (Expr.collectPowers fuel 2 g.number g.powers).2, S.Supplies e :=
      h.collectPowers hwithin.1
    have hbases := supplies_groupBases (h.gatherExponents hwithin.2)
    refine h.finishProduct ?_ (by grind)
    simp only [List.forall_mem_append]
    refine ⟨⟨⟨hparts, fun e he => ?_⟩, by grind⟩, ?_⟩
    · obtain ⟨p, hp, rfl⟩ := List.mem_map.mp he
      have hp := hbases p (List.mem_filter.mp hp).1
      exact h.powerF (h.productF hp.2) hp.1
    · -- the roots left over are powers of numbers
      refine List.foldlRecOn g.roots _ (motive := fun acc : Option Scalar × List Expr =>
        ∀ e ∈ acc.2, S.Supplies e) (by simp) fun acc hacc p _ => ?_
      split
      · exact hacc
      · exact List.forall_mem_append.mpr ⟨hacc, by grind⟩

end Step

/-- Products and powers are made of what their parts are made of. -/
theorem multiplies (fuel : Nat) : Multiplies S fuel := by
  induction fuel with
  | zero => exact multiplies_zero
  | succ fuel ih =>
    exact {
      productF := ih.productF_succ
      productGeneral := ih.productGeneral_succ
      joinFixed := ih.joinFixed_succ
      finishProduct := ih.finishProduct_succ
      gatherExponents := ih.gatherExponents_succ
      collectPowers := ih.collectPowers_succ
      powerF := ih.powerF_succ
      powerOf := ih.powerOf_succ }

@[grind .] theorem supplies_productOf {es : List Expr} (h : ∀ e ∈ es, S.Supplies e) :
    S.Supplies (productOf es) := (multiplies _).productF h

@[grind .] theorem supplies_pow {b x : Expr} (hb : S.Supplies b) (hx : S.Supplies x) :
    S.Supplies (pow b x) := (multiplies _).powerF hb hx

@[grind .] theorem supplies_mul {a b : Expr} (ha : S.Supplies a) (hb : S.Supplies b) :
    S.Supplies (mul a b) := by
  unfold mul
  grind

@[grind .] theorem supplies_neg {e : Expr} (h : S.Supplies e) : S.Supplies (neg e) := by
  unfold neg
  grind

@[grind .] theorem supplies_div {a b : Expr} (ha : S.Supplies a) (hb : S.Supplies b) :
    S.Supplies (div a b) := by
  unfold div
  grind

end Expr

end FactorPlan
