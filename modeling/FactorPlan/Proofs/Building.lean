import FactorPlan.Proofs.Arithmetic
import FactorPlan.Proofs.Stock

/-!
What applied functions are made of, and with them every node that is built again. Logarithms,
relations, connectives, largest and smallest are made of parts of their arguments; so are
absolute values, which first bring sums to one sign.

Main statements: building a node over new arguments brings in nothing that is not in them, for
any provision (`rebuilds_rebuild`, `bringsNothing_build`). Bringing sums to one sign changes the
arguments of functions as well, so it needs what a provision says of those. Nodes of every other
kind take their functions from the arguments as they stand there (`mem_of_mem_build`).
-/

namespace FactorPlan

namespace Expr

open Palette Provision

variable {P : Palette}

@[simp, grind =] theorem mem_sortBySize {es : List Expr} {e : Expr} :
    e ∈ sortBySize es ↔ e ∈ es := by
  simp [sortBySize]

/-- Lists made of each expression in turn. -/
theorem supplies_flatMap {g : Expr → List Expr} {es : List Expr} (h : ∀ e ∈ es, P.Supplies e)
    (hg : ∀ e, P.Supplies e → ∀ a ∈ g e, P.Supplies a) : ∀ a ∈ es.flatMap g, P.Supplies a := by
  intro a ha
  obtain ⟨e, he, ha⟩ := List.mem_flatMap.mp ha
  exact hg e (h e he) a ha

/-! ## Logarithms, relations and connectives -/

theorem supplies_positiveLog (q : Rat) : P.Supplies (logOf.positiveLog q) := by
  unfold logOf.positiveLog
  repeat' split
  · exact supplies_zero
  · exact supplies_neg (by simp)
  · simp

theorem supplies_logOf {e : Expr} (h : P.Supplies e) : P.Supplies (logOf e) := by
  have hturn : P.Supplies (productOf [.constant .pi, .constant .imaginary]) := by grind
  have hneg : P.Supplies (.apply .log [neg e]) := by simpa using supplies_neg h
  unfold logOf
  split
  · grind [supplies_positiveLog]
  · exact supplies_undirected
  · split
    · grind
    · simpa using h

theorem supplies_relation {r : Rel} {a b e : Expr} (ha : P.Supplies a) (hb : P.Supplies b)
    (h : relation r a b = .ok e) : P.Supplies e := by
  have happly (r : Rel) (o : Option Bool) :
      P.Supplies (o.elim (.apply (.rel r) [a, b]) .truth) := by
    cases o <;> simp [ha, hb]
  unfold relation at h
  split at h
  · cases h; exact happly .eq _
  · cases h; exact happly .ne _
  · split at h <;> cases h
    exact happly _ _

theorem supplies_negatedRelation {e : Expr} (h : P.Supplies e) :
    P.Supplies (negatedRelation e) := by
  unfold negatedRelation
  split
  · simpa using h
  · exact h

theorem mem_of_mem_mergeRelations {seen es fs : List Expr} (h : mergeRelations seen es = some fs) :
    ∀ e ∈ fs, e ∈ es := by
  induction es generalizing seen fs with
  | nil => cases h; simp
  | cons e es ih =>
    have hkept {seen : List Expr} (hk : (mergeRelations seen es).map (e :: ·) = some fs) :
        ∀ x ∈ fs, x ∈ e :: es := by
      obtain ⟨gs, hgs, rfl⟩ := Option.map_eq_some_iff.mp hk
      exact List.forall_mem_cons.mpr ⟨List.mem_cons_self,
        fun x hx => List.mem_cons_of_mem e (ih hgs x hx)⟩
    unfold mergeRelations at h
    dsimp only at h
    split at h
    · split at h
      · exact fun x hx => List.mem_cons_of_mem e (ih h x hx)
      · split at h
        · cases h
        · exact hkept h
    · exact hkept h

theorem supplies_asTruth {es : List Expr} (h : ∀ e ∈ es, P.Supplies e) :
    ∀ e ∈ es.map asTruth, P.Supplies e := by
  intro t ht
  obtain ⟨e, he, rfl⟩ := List.mem_map.mp ht
  unfold asTruth
  split
  · exact supplies_truth _
  · split
    · exact supplies_truth _
    · exact h e he

theorem supplies_connect {f : Func} (hf : ∀ as, P.Admits (.apply f as)) (unit : Bool)
    {es : List Expr} (h : ∀ e ∈ es, P.Supplies e) : P.Supplies (connect f unit es) := by
  unfold connect
  dsimp only
  generalize hopened : List.flatMap _ es = fs
  have hfs : ∀ e ∈ fs, P.Supplies e := by
    rw [← hopened]
    refine supplies_flatMap h fun e he => ?_
    split <;> grind
  split
  · exact supplies_truth _
  · generalize hmerge : mergeRelations _ _ = o
    have ho : ∀ gs, o = some gs → ∀ e ∈ gs, P.Supplies e := by
      intro gs hgs e he
      have hmem := mem_of_mem_mergeRelations (hmerge.trans hgs) e he
      rw [apply_ite (e ∈ ·), mem_sortBySize, ite_self, List.mem_eraseDups, List.mem_filter] at hmem
      exact hfs e hmem.1
    split
    · exact supplies_truth _
    · exact supplies_truth _
    · exact ho _ rfl _ List.mem_cons_self
    · refine (supplies_apply _ _).mpr ⟨hf _, ?_⟩
      grind

theorem supplies_notOf {e : Expr} (h : P.Supplies e) : P.Supplies (notOf e) := by
  unfold notOf
  split
  · simp
  · simpa using h
  · split
    · exact supplies_negatedRelation h
    · simpa using h

theorem supplies_toggle {es : List Expr} {e : Expr} (h : ∀ a ∈ es, P.Supplies a)
    (he : P.Supplies e) : ∀ a ∈ toggle es e, P.Supplies a := by
  unfold toggle
  split
  · exact fun a ha => h a (List.mem_of_mem_erase ha)
  · grind

theorem supplies_xorOf {es : List Expr} (h : ∀ e ∈ es, P.Supplies e) : P.Supplies (xorOf es) := by
  unfold xorOf
  dsimp only
  generalize hopened : List.flatMap _ es = fs
  have hfs : ∀ e ∈ fs, P.Supplies e := by
    rw [← hopened]
    refine supplies_flatMap h fun e he => ?_
    split <;> grind
  have hleft : ∀ e ∈ (fs.filter (· ≠ .truth false)).foldl toggle [], P.Supplies e :=
    List.foldlRecOn _ _ (motive := fun gs => ∀ e ∈ gs, P.Supplies e) (by simp)
      fun gs hgs e he => supplies_toggle hgs (hfs e (List.mem_filter.mp he).1)
  generalize (fs.filter (· ≠ .truth false)).foldl toggle [] = gs at hleft ⊢
  have hkept : ∀ e ∈ gs.filter (· ≠ .truth true), P.Supplies e :=
    fun e he => hleft e (List.mem_filter.mp he).1
  generalize gs.filter (· ≠ .truth true) = ks at hkept ⊢
  split
  · exact supplies_truth _
  · have := hkept _ List.mem_cons_self
    split
    · exact supplies_notOf this
    · exact this
  · split <;> simpa using hkept

/-! ## Largest and smallest -/

theorem mem_of_mem_extremes (larger : Bool) (es : List Expr) :
    ∀ e ∈ extremes larger es, e ∈ es := by
  unfold extremes
  refine List.foldlRecOn es _ (motive := fun zs => ∀ e ∈ zs, e ∈ es) (by simp) fun zs hzs v hv => ?_
  -- what is kept was there before, and only the new value is added
  have hkept (p : Expr × Connection → Bool) :
      ∀ e ∈ ((zs.map fun z => (z, connection v z)).filter p).map (·.1), e ∈ es := by
    intro e he
    simp only [List.mem_map, List.mem_filter] at he
    obtain ⟨_, ⟨⟨z, hz, rfl⟩, -⟩, rfl⟩ := he
    exact hzs z hz
  have hadded {ys : List Expr} (hys : ∀ e ∈ ys, e ∈ es) : ∀ e ∈ ys ++ [v], e ∈ es :=
    List.forall_mem_append.mpr ⟨hys, List.forall_mem_singleton.mpr hv⟩
  dsimp only
  generalize (if larger then Connection.larger else Connection.smaller) = won
  split
  · exact hzs
  · split
    · split
      · exact hadded (hkept _)
      · exact hkept _
    · exact hadded hzs

theorem supplies_absorb {f : Func} {a : Expr} (ha : P.Supplies a) (fuel : Nat) {e : Expr}
    (he : P.Supplies e) : P.Supplies (absorb f a fuel e) := by
  induction fuel generalizing e with
  | zero => exact he
  | succ fuel ih =>
    unfold absorb
    split
    · rename_i g as
      have has := ((supplies_apply g as).mp he).2
      split
      · rename_i hg
        have hadmits (bs : List Expr) : P.Admits (.apply g bs) := by
          rcases hg with rfl | rfl <;> trivial
        have hbelow (bs : List Expr) (hbs : ∀ b ∈ bs, b ∈ as) :
            ∀ b ∈ bs.map (absorb f a fuel), P.Supplies b := by
          intro b hb
          obtain ⟨c, hc, rfl⟩ := List.mem_map.mp hb
          exact ih (has c (hbs c hc))
        split
        · exact (supplies_apply _ _).mpr ⟨hadmits _, hbelow as fun _ => id⟩
        · split
          · have hrest := hbelow (as.filter (· ≠ a)) fun b hb => (List.mem_filter.mp hb).1
            generalize (as.filter (· ≠ a)).map (absorb f a fuel) = bs at hrest ⊢
            split
            · exact hrest _ List.mem_cons_self
            · exact (supplies_apply _ _).mpr ⟨hadmits _, hrest⟩
          · exact ha
      · exact he
    · exact he

theorem supplies_absorbAll {f : Func} (fuel : Nat) {es : List Expr} (h : ∀ e ∈ es, P.Supplies e) :
    ∀ e ∈ absorbAll f fuel es, P.Supplies e := by
  induction fuel generalizing es with
  | zero => unfold absorbAll; exact h
  | succ fuel ih =>
    cases es with
    | nil => simp [absorbAll]
    | cons a es =>
      obtain ⟨ha, hes⟩ := List.forall_mem_cons.mp h
      unfold absorbAll
      refine List.forall_mem_cons.mpr ⟨ha, ih fun e he => ?_⟩
      obtain ⟨b, hb, rfl⟩ := List.mem_map.mp he
      exact supplies_absorb ha _ (hes b hb)

theorem mem_of_mem_dropDecided {f : Func} {es : List Expr} {e : Expr} (h : e ∈ dropDecided f es) :
    e ∈ es := by
  unfold dropDecided at h
  split at h
  · exact h
  · exact (List.mem_filter.mp h).1

theorem supplies_factorExtremes {f : Func} (hf : f = .max ∨ f = .min) {es : List Expr}
    (h : ∀ e ∈ es, P.Supplies e) : ∀ e ∈ factorExtremes f es, P.Supplies e := by
  have hadmits (bs : List Expr) : P.Admits (.apply f bs) := by
    rcases hf with rfl | rfl <;> trivial
  have hother (bs : List Expr) : P.Admits (.apply (otherExtreme f) bs) := by
    rcases hf with rfl | rfl <;> trivial
  have hargs : ∀ e ∈ es, ∀ a ∈ e.args, P.Supplies a := fun e he => (supplies_iff.mp (h e he)).2
  unfold factorExtremes
  dsimp only
  split
  · rename_i o p ps ho
    have hothers : ∀ q ∈ o :: p :: ps, ∀ a ∈ q.args, P.Supplies a := fun q hq =>
      hargs q (List.mem_filter.mp (ho ▸ hq)).1
    rw [ho]
    generalize hcommon : List.filter _ o.args = common
    have hc : ∀ a ∈ common, P.Supplies a := fun a ha =>
      hothers o List.mem_cons_self a (List.mem_filter.mp (hcommon ▸ ha)).1
    split
    · exact h
    · -- what is common stands once, over what the others have beside it
      generalize hdiffs : List.map (fun p : Expr => p.args.filter _) (o :: p :: ps) = diffs
      have hd : ∀ d ∈ diffs, ∀ a ∈ d, P.Supplies a := by
        intro d hd a ha
        rw [← hdiffs] at hd
        obtain ⟨q, hq, rfl⟩ := List.mem_map.mp hd
        exact hothers q hq a (List.mem_filter.mp ha).1
      generalize hjoined : List.map _ diffs = joined
      have hj : ∀ e ∈ joined, P.Supplies e := by
        intro e he
        rw [← hjoined] at he
        obtain ⟨d, hd', rfl⟩ := List.mem_map.mp he
        have := hd d hd'
        split
        · exact this _ List.mem_cons_self
        · exact (supplies_apply _ _).mpr ⟨hother _, by simpa using this⟩
      refine List.forall_mem_append.mpr ⟨fun e he => h e (List.mem_filter.mp he).1,
        List.forall_mem_singleton.mpr ?_⟩
      generalize hparts : (if diffs.all (!·.isEmpty) then common ++ _ else common) = parts
      have hp : ∀ e ∈ parts, P.Supplies e := by
        rw [← hparts]
        split
        · refine List.forall_mem_append.mpr ⟨hc, List.forall_mem_singleton.mpr ?_⟩
          exact (supplies_apply _ _).mpr ⟨hadmits _, by simpa using hj⟩
        · exact hc
      split
      · exact hp _ List.mem_cons_self
      · exact (supplies_apply _ _).mpr ⟨hother _, by simpa using hp⟩
  · exact h

theorem supplies_extremum {f : Func} (hf : f = .max ∨ f = .min) {es : List Expr} {e : Expr}
    (h : ∀ e ∈ es, P.Supplies e) (he : extremum f es = .ok e) : P.Supplies e := by
  unfold extremum at he
  dsimp only at he
  split at he
  · cases he
  · split at he
    · cases he; exact supplies_scalar _
    · generalize hopened : List.flatMap _ _ = fs at he
      have hfs : ∀ e ∈ fs, P.Supplies e := by
        rw [← hopened]
        refine supplies_flatMap (fun e he => h e (List.mem_filter.mp he).1) fun e he => ?_
        split <;> grind
      have hdropped : ∀ e ∈ dropDecided f (sortBySize fs.eraseDups), P.Supplies e := by
        intro e he
        have := mem_of_mem_dropDecided he
        rw [mem_sortBySize, List.mem_eraseDups] at this
        exact hfs e this
      generalize dropDecided f (sortBySize fs.eraseDups) = gs at he hdropped
      have hfactored := supplies_factorExtremes hf (supplies_absorbAll (f := f) gs.length hdropped)
      have hlast : ∀ e ∈ (extremes (f == .max)
          (factorExtremes f (absorbAll f gs.length gs))).eraseDups, P.Supplies e := fun e he =>
        hfactored e (mem_of_mem_extremes _ _ e (List.mem_eraseDups.mp he))
      generalize (extremes (f == .max)
        (factorExtremes f (absorbAll f gs.length gs))).eraseDups = ks at he hlast
      split at he <;> cases he
      · exact supplies_scalar _
      · exact hlast _ List.mem_cons_self
      · refine (supplies_apply _ _).mpr ⟨?_, by simpa using hlast⟩
        rcases hf with rfl | rfl <;> trivial

/-! ## Absolute values and rebuilding -/

theorem supplies_splitReciprocals {e : Expr} (h : P.Supplies e) :
    (∀ f ∈ (splitReciprocals e).1, P.Supplies f) ∧ ∀ f ∈ (splitReciprocals e).2, P.Supplies f := by
  unfold splitReciprocals
  refine List.foldlRecOn e.factors _ (motive := fun acc : List Expr × List Expr =>
    (∀ f ∈ acc.1, P.Supplies f) ∧ ∀ f ∈ acc.2, P.Supplies f) (by simp) fun acc hacc f hf => ?_
  have := supplies_factors h f hf
  split
  · rename_i b x
    have hx := supplies_neg ((supplies_power b x).mp this).2
    split
    · refine ⟨hacc.1, List.forall_mem_append.mpr ⟨hacc.2, ?_⟩⟩
      grind
    · exact ⟨List.forall_mem_append.mpr ⟨hacc.1, by grind⟩, hacc.2⟩
  · refine ⟨List.forall_mem_append.mpr ⟨hacc.1, by grind⟩, ?_⟩
    split
    · exact hacc.2
    · exact List.forall_mem_append.mpr ⟨hacc.2, by grind⟩
  · exact ⟨List.forall_mem_append.mpr ⟨hacc.1, by grind⟩, hacc.2⟩

theorem supplies_floorOf {e : Expr} (h : P.Supplies e) : P.Supplies (floorOf e) := by
  have hterms := supplies_terms h
  unfold floorOf
  dsimp only
  have hwhole : ∀ t ∈ e.terms.filter (·.isInteger), P.Supplies t := fun t ht =>
    hterms t (List.mem_filter.mp ht).1
  have hrest : ∀ t ∈ e.terms.filter (!·.isInteger), P.Supplies t := fun t ht =>
    hterms t (List.mem_filter.mp ht).1
  generalize e.terms.filter (·.isInteger) = ws at *
  generalize e.terms.filter (!·.isInteger) = rs at *
  split
  · exact h
  · have hinner := supplies_sumOf hrest
    split
    · exact supplies_sumOf (by grind)
    · refine supplies_sumOf (List.forall_mem_append.mpr ⟨hwhole, ?_⟩)
      simpa using hinner

theorem supplies_modOf {a b : Expr} (ha : P.Supplies a) (hb : P.Supplies b) :
    P.Supplies (modOf a b) := by
  unfold modOf
  repeat' split
  all_goals simp [*]

theorem supplies_unmarked? {e : Expr} (h : P.Supplies e) : ∀ r ∈ unmarked? e, P.Supplies r := by
  unfold unmarked?
  split
  · split
    · rename_i a b rest _
      intro r hr
      cases hr
      refine supplies_neg (supplies_rawProduct fun f hf => (supplies_product _).mp h f ?_)
      exact List.mem_cons_of_mem _ (List.mem_cons_of_mem _ hf)
    · simp
  · simp

/-- Nodes that are built, absolute values apart, are made of what the plain nodes are made of. -/
theorem supplies_rebuildF {fuel : Nat} {e : Expr} {us : List Expr} (hus : P.Supplies (e.withArgs us))
    (habs : ∀ as a, e = .apply .abs as → us = [a] → P.Supplies (absF fuel a)) :
    P.Supplies (rebuildF (fuel + 1) e us) := by
  have hargs : ∀ f as, e = .apply f as → ∀ u ∈ us, P.Supplies u := by
    rintro f as rfl
    exact ((supplies_apply f us).mp hus).2
  unfold rebuildF
  split
  · exact supplies_sumOf ((supplies_sum us).mp hus)
  · exact supplies_productOf ((supplies_product us).mp hus)
  · exact supplies_pow ((supplies_power _ _).mp hus).1 ((supplies_power _ _).mp hus).2
  · exact habs _ _ rfl rfl
  · exact supplies_logOf (by simpa using hargs _ _ rfl)
  · exact supplies_floorOf (by simpa using hargs _ _ rfl)
  · have := hargs _ _ rfl
    exact supplies_modOf (by grind) (by grind)
  · cases hmax : extremum .max us with
    | error x => exact hus
    | ok r => exact supplies_extremum (.inl rfl) (hargs _ _ rfl) hmax
  · cases hmin : extremum .min us with
    | error x => exact hus
    | ok r => exact supplies_extremum (.inr rfl) (hargs _ _ rfl) hmin
  · exact supplies_connect (f := .and) (fun _ => trivial) true (supplies_asTruth (hargs _ _ rfl))
  · exact supplies_connect (f := .or) (fun _ => trivial) false (supplies_asTruth (hargs _ _ rfl))
  · exact supplies_xorOf (hargs _ _ rfl)
  · exact supplies_notOf (by simpa using hargs _ _ rfl)
  · rename_i r _ a b
    have := hargs _ _ rfl
    cases hrel : relation r a b with
    | error x => exact hus
    | ok e => exact supplies_relation (by grind) (by grind) hrel
  · exact hus

/-! ## Absolute values -/

variable {S : Provision}

theorem supplies_abs {e : Expr} (h : S.Supplies e) : S.Supplies (.apply .abs [e]) :=
  (supplies_apply _ _).mpr ⟨S.absolute_any _, by simpa using h⟩

theorem follows_markMinus {rebuild : Rebuild} (hr : S.Rebuilds rebuild) (e : Expr) :
    S.Follows (markMinus rebuild e) e := by
  have hsum {x : Expr} (hx : x.isSum = true) {r : Expr} (h : S.Supplies (neg x) → S.Supplies r) :
      S.Follows r x := by
    refine .of_supplies ?_ fun hx => h (supplies_neg hx)
    cases x <;> simp_all [isSum, isAtom]
  refine (follows_replaceWith hr ?_ _).trans (follows_replaceWith hr ?_ e)
  · intro x r hx
    split at hx
    · rename_i hm
      cases hx
      refine hsum (Bool.and_eq_true_iff.mp hm).1 fun h => ?_
      split <;> simpa using h
    · cases hx
  · intro x r hx
    split at hx
    · rename_i hm
      cases hx
      exact hsum (Bool.and_eq_true_iff.mp hm).1 fun h => by simpa using h
    · cases hx

theorem follows_unmarkMinus {rebuild : Rebuild} (hr : S.Rebuilds rebuild) (e : Expr) :
    S.Follows (unmarkMinus rebuild e) e := by
  unfold unmarkMinus
  refine List.foldlRecOn _ _ (motive := fun d => S.Follows d e) (.refl e) fun d hd n _ => ?_
  refine (follows_replaceWith hr ?_ d).trans hd
  intro x r hx
  split at hx
  · rename_i hxn
    subst hxn
    refine .of_supplies ?_ fun h => supplies_unmarked? h r hx
    cases x <;> simp_all [unmarked?, isAtom]
  · cases hx

/-- What taking absolute values, bringing sums to a sign and building nodes within some steps makes
of expressions of the provision. -/
structure Builds (S : Provision) (fuel : Nat) : Prop where
  absF : ∀ {e}, S.Supplies e → S.Supplies (absF fuel e)
  signF : ∀ {evaluate e}, S.Supplies e → S.Supplies (signF fuel evaluate e)
  rebuildF : S.Rebuilds (rebuildF fuel)

theorem builds_zero : Builds S 0 where
  absF h := by rw [Expr.absF]; exact supplies_abs h
  signF h := by rw [Expr.signF]; exact h
  rebuildF e us h := by rw [Expr.rebuildF]; exact h

section Step
variable {fuel : Nat}

theorem Builds.signF_succ (h : Builds S fuel) {evaluate : Bool} {e : Expr} (he : S.Supplies e) :
    S.Supplies (Expr.signF (fuel + 1) evaluate e) := by
  -- opening products with a minus sign changes no symbol, so it goes through at every node
  have hsettle (x : Expr) : S.Follows
      (mapBottomUp (Expr.rebuildF fuel) (fun x => if isOpenNegative x then neg (neg x) else x) x)
      x := by
    refine follows_mapBottomUp h.rebuildF (fun x => ?_) x
    split
    · rename_i hx
      refine .of_supplies ?_ fun h => supplies_neg (supplies_neg h)
      cases x <;> simp_all [isOpenNegative, isProduct, isAtom]
    · exact .refl x
  rw [Expr.signF]
  split
  · exact he
  · dsimp only
    generalize hmarked : unmarkMinus _ _ = d
    have hd : S.Supplies d := by
      rw [← hmarked]
      exact ((follows_unmarkMinus h.rebuildF _).trans ((follows_markMinus h.rebuildF _).trans
        (hsettle e))).1 he
    split
    · rename_i ts
      have hr : S.Supplies (sumOf (ts.map (Expr.signF fuel true))) := by
        refine supplies_sumOf fun t ht => ?_
        obtain ⟨u, hu, rfl⟩ := List.mem_map.mp ht
        exact h.signF ((supplies_sum ts).mp hd u hu)
      split
      · simpa using supplies_neg hr
      · exact hr
    · split
      · exact (hsettle d).1 hd
      · exact hd

theorem Builds.powerAbs (h : Builds S fuel) {e b x : Expr} (he : S.Supplies e) (hb : S.Supplies b)
    (hx : S.Supplies x) : S.Supplies (Expr.powerAbs (Expr.absF fuel) e b x) := by
  have habs := supplies_abs he
  have hpow := supplies_pow (h.absF hb) hx
  unfold Expr.powerAbs
  grind

theorem Builds.known (h : Builds S fuel) {f : Expr} (hf : S.Supplies f) :
    S.Supplies (Expr.knownAbs (Expr.absF fuel) f).1 := by
  have := h.absF hf
  unfold Expr.knownAbs
  split
  · exact hf
  · exact this

theorem Builds.absF_succ (h : Builds S fuel) {e : Expr} (he : S.Supplies e) :
    S.Supplies (Expr.absF (fuel + 1) e) := by
  have hs : S.Supplies (Expr.signF fuel false e) := h.signF he
  have habs := supplies_abs he
  rw [Expr.absF]
  generalize Expr.signF fuel false e = s at hs ⊢
  have hsplit := supplies_splitReciprocals hs
  dsimp only
  split
  · rename_i fs
    split
    · exact supplies_div (h.absF (supplies_productOf hsplit.1))
        (h.absF (supplies_productOf hsplit.2))
    · -- the factors one by one: those of unknown sign stay together within one absolute value
      generalize hparts : List.map _ fs = parts
      have hp : ∀ p ∈ parts, S.Supplies p.1 := by
        intro p hp
        rw [← hparts] at hp
        obtain ⟨f, hf, rfl⟩ := List.mem_map.mp hp
        have hf := (supplies_product fs).mp hs f hf
        split
        · have hb := h.absF ((supplies_power _ _).mp hf).1
          split
          · split
            · exact hf
            · exact supplies_pow hb (supplies_ofRat _)
          · exact h.known hf
        · exact h.known hf
      have hsome (w : Expr × Bool → Bool) :
          S.Supplies (productOf ((parts.filter w).map (·.1))) := by
        refine supplies_productOf fun f hf => ?_
        obtain ⟨p, hp', rfl⟩ := List.mem_map.mp hf
        exact hp p (List.mem_filter.mp hp').1
      split
      · exact hsome _
      · exact supplies_mul (hsome _) (supplies_abs (hsome _))
  · exact supplies_scalar _
  · exact supplies_scalar _
  · exact supplies_one
  · rename_i b x
    obtain ⟨hb, hx⟩ := (supplies_power b x).mp hs
    split
    · split
      · exact supplies_div supplies_one (h.absF (supplies_productOf hsplit.2))
      · exact h.powerAbs he hb hx
    · exact h.powerAbs he hb hx
  · repeat' split
    · exact supplies_zero
    · exact hs
    · exact supplies_neg hs
    · exact habs

theorem Builds.rebuildF_succ (h : Builds S fuel) : S.Rebuilds (Expr.rebuildF (fuel + 1)) :=
  fun e us hus => supplies_rebuildF hus fun as a heq hua => by
    subst heq hua
    exact h.absF (((supplies_apply _ _).mp hus).2 a List.mem_cons_self)

end Step

theorem builds (fuel : Nat) : Builds S fuel := by
  induction fuel with
  | zero => exact builds_zero
  | succ fuel ih => exact ⟨ih.absF_succ, ih.signF_succ, ih.rebuildF_succ⟩

/-- **Building brings nothing in.** The evaluated node over new arguments is made of what the plain
node over them is made of. -/
theorem rebuilds_rebuild : S.Rebuilds rebuild := fun e us => (builds _).rebuildF e us

/-- A node that can be built is the evaluated one. -/
theorem eq_rebuild_of_build {e d : Expr} {us : List Expr} (h : build e us = .ok d) :
    d = rebuild e us := by
  unfold build at h
  split at h
  · cases h
  · exact (Except.ok.inj h).symm

/-- A node without a name is made of what its arguments are made of, absolute values apart. -/
theorem supplies_withArgs {e : Expr} {us : List Expr} (hnode : e.isAtom = false) (hname : e.name? = none)
    (habs : ∀ as, e ≠ .apply .abs as) (hlen : us.length = e.args.length) (h : ∀ u ∈ us, P.Supplies u) :
    P.Supplies (e.withArgs us) := by
  cases e with
  | sum ts => exact (supplies_sum us).mpr h
  | product fs => exact (supplies_product us).mpr h
  | power b x =>
    obtain ⟨c, y, rfl⟩ := List.length_eq_two.mp hlen
    simpa [withArgs] using h
  | apply f as =>
    refine (supplies_apply f us).mpr ⟨?_, h⟩
    cases f with
    | named g => cases hname
    | abs => exact absurd rfl (habs as)
    | _ => trivial
  | _ => cases hnode

/-- **Building takes functions as they are.** Other than for absolute values, a node without a name
has no symbol and no named function or absolute value over its arguments that is not in them. -/
theorem mem_of_mem_build {e d x : Expr} {us : List Expr} (hnode : e.isAtom = false)
    (hname : e.name? = none) (habs : ∀ as, e ≠ .apply .abs as) (hlen : us.length = e.args.length)
    (hd : build e us = .ok d) (hx : x ∈ d.nodes) (hkind : x.name? ≠ none ∨ ∃ as, x = .apply .abs as) :
    ∃ u ∈ us, x ∈ u.nodes := by
  let within : Palette :=
    { symbol := fun n => ∃ u ∈ us, .symbol n ∈ u.nodes
      function := fun f as => ∃ u ∈ us, .apply (.named f) as ∈ u.nodes
      absolute := fun as => ∃ u ∈ us, .apply .abs as ∈ u.nodes }
  have hadmits : ∀ u ∈ us, ∀ y ∈ u.nodes, within.Admits y := by
    intro u hu y hy
    cases y with
    | symbol n => exact ⟨u, hu, hy⟩
    | apply f as =>
      cases f with
      | named g => exact ⟨u, hu, hy⟩
      | abs => exact ⟨u, hu, hy⟩
      | _ => trivial
    | _ => trivial
  have hsupplies : within.Supplies d := by
    rw [eq_rebuild_of_build hd, rebuild, buildBudget, Nat.add_comm]
    exact supplies_rebuildF (supplies_withArgs hnode hname habs hlen hadmits) fun as _ heq => absurd heq (habs as)
  have hadmitted := hsupplies x hx
  cases x with
  | symbol n => exact hadmitted
  | apply f as =>
    cases f with
    | named g => exact hadmitted
    | abs => exact hadmitted
    | _ => simp [name?] at hkind
  | _ => simp [name?] at hkind

/-- The evaluated node is made of what the plain node is made of. -/
theorem bringsNothing_build : BringsNothing build := by
  intro S e us d hd hus
  rw [eq_rebuild_of_build hd]
  exact Stock.supplies_provision.mp (rebuilds_rebuild e us (Stock.supplies_provision.mpr hus))

end Expr

end FactorPlan
