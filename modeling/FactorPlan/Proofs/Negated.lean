import FactorPlan.Proofs.Kinds

/-!
Columns that are minus another column. The second merging pass puts into a listed column `-x`
what nothing else uses, so that it is computed as `x` is and takes its label (`labelAfter`). It
looks at all columns that the listed one depends on, though, not only at `x`: once `x` is
inlined, also at columns that `x` is computed from, and these may be grouped in another way
(`Overreaches`). Where no visit goes that far, all kinds are kept (`mergeNegated_kinded`).

So the middle of a plan mixes no groups but by such a visit (`middle_keeps_kinds`); and such
a visit can mix them (`mixed_by_negation`).
-/

namespace FactorPlan

namespace Expr

/-- The symbol that the expression is minus. -/
def negatedSymbol? : Expr → Option String
  | .product [a, .symbol x] => if a.isValue (-1) then some x else none
  | _ => none

theorem symbols_of_isNegatedLeaf {e : Expr} (h : e.isNegatedLeaf = true) :
    ∀ x ∈ e.symbols, e.negatedSymbol? = some x := by
  unfold isNegatedLeaf at h
  split at h
  · rename_i a b
    rw [Bool.and_eq_true] at h
    have ha : a.symbols = [] := by
      cases a with
      | scalar s => rfl
      | _ => cases h.1
    cases b with
    | symbol n => simp [symbols, symbolsList, ha, negatedSymbol?, h.1]
    | scalar s => simp [symbols, symbolsList, ha]
    | constant c => simp [symbols, symbolsList, ha]
    | truth t => simp [symbols, symbolsList, ha]
    | _ => cases h.2
  · cases h

end Expr

namespace Plan

open Grouping

variable {s : Setting} {given : String → Prop}

/-- Minus a leaf is of every kind. -/
theorem supplies_kindStock_of_isNegatedLeaf {e : Expr} (h : e.isNegatedLeaf = true)
    (keys : Key → Prop) : (kindStock s given keys).Supplies e := by
  unfold Expr.isNegatedLeaf at h
  split at h
  · rename_i a b
    rw [Bool.and_eq_true] at h
    have hatom : ∀ a : Expr, a.isAtom = true → (kindStock s given keys).Supplies a := by
      intro a ha
      cases a with
      | symbol n => exact (Stock.supplies_symbol n).mpr trivial
      | scalar s => exact Stock.supplies_scalar s
      | constant c => exact Stock.supplies_constant c
      | truth t => exact Stock.supplies_truth t
      | _ => cases ha
    simpa using ⟨hatom a (Expr.isAtom_of_isValue h.1), hatom b h.2⟩
  · cases h

namespace Graph

open Formula (Value)

variable {bs : List (Slot × Value)} {g g' : Graph} {label : String → Key} {r : String → Nat}

/-! ## One visit -/

/-- The expression of `b` names `a`. -/
def Names (g : Graph) (a b : String) : Prop := ∃ e, g.exprOf b = some e ∧ a ∈ e.symbols

/-- The column that the listed one is minus, if the visit inlines it. -/
def takenBy (build : Build) (g : Graph) (v : String) : Option String :=
  ((g.exprOf v).bind Expr.negatedSymbol?).filter fun x =>
    decide (x ∈ g.vertices ∧ x ∉ (mergeNegatedAt build g v).1.vertices)

/-- The labels after a visit: what is minus a column that is inlined takes its label. -/
def labelAfter (build : Build) (label : String → Key) (g : Graph) (v : String) : String → Key :=
  match takenBy build g v with
  | some x => Function.update label v (label x)
  | none => label

/-- The visit inlines, besides the column that the listed one is minus, one that it is computed from
and that is grouped in another way. -/
def Overreaches (build : Build) (label : String → Key) (g : Graph) (v : String) : Prop :=
  ∃ x p, takenBy build g v = some x ∧ Relation.TransGen (Names g) p x ∧
    p ∈ g.vertices ∧ p ∉ (mergeNegatedAt build g v).1.vertices ∧
    label p ≠ Key.plain ∧ label p ≠ label x

theorem takenBy_eq_some_iff {build : Build} {v x : String} : takenBy build g v = some x ↔
    (g.exprOf v).bind Expr.negatedSymbol? = some x ∧ x ∈ g.vertices ∧
      x ∉ (mergeNegatedAt build g v).1.vertices := by
  rw [takenBy, Option.filter_eq_some_iff, decide_eq_true_eq]

theorem labelAfter_of_ne {build : Build} {v w : String} (hw : w ≠ v) :
    labelAfter build label g v w = label w := by
  unfold labelAfter
  cases takenBy build g v with
  | some x => exact Function.update_of_ne hw _ _
  | none => rfl

theorem labelAfter_self {build : Build} {v x : String} (hx : takenBy build g v = some x) :
    labelAfter build label g v v = label x := by
  unfold labelAfter
  rw [hx]
  exact Function.update_self v _ _

/-- A visit changes nothing, or it goes through the predecessors of a column that is minus a
leaf. -/
theorem mergeNegatedAt_cases (build : Build) (g : Graph) (v : String) :
    (mergeNegatedAt build g v).1 = g ∨ ∃ d, g.exprOf v = some d ∧ d.isNegatedLeaf = true ∧
      mergeNegatedAt build g v = forEach (inlineUnshared build) g (g.pred v) := by
  unfold mergeNegatedAt
  split
  · exact Or.inl rfl
  · rename_i c hc
    split
    · rename_i hn
      obtain ⟨col, hcol, hx⟩ := Option.bind_eq_some_iff.mp hc
      cases c with
      | several ns => cases hn
      | expr d => exact Or.inr ⟨d, (exprOf_eq_some_iff g v d).mpr ⟨col, hcol, hx⟩, hn, rfl⟩
    · exact Or.inl rfl

/-- What holds all along a visit: other columns are as they were, and what the visited one names is
the column that it was minus or, once that is inlined, columns that it is computed from. -/
structure Visit (rebuild : Rebuild) (g : Graph) (v : String) (g' : Graph) : Prop where
  vertices : ∀ w ∈ g'.vertices, w ∈ g.vertices
  others : ∀ w e, w ≠ v → g'.exprOf w = some e → g.exprOf w = some e
  named : ∀ d q, g'.exprOf v = some d → q ∈ d.symbols →
    (g.exprOf v).bind Expr.negatedSymbol? = some q ∨
      ∃ x, takenBy rebuild.always g v = some x ∧ Relation.TransGen (Names g) q x

theorem Visit.refl {rebuild : Rebuild} {v : String} {d : Expr} (hd : g.exprOf v = some d)
    (hn : d.isNegatedLeaf = true) : Visit rebuild g v g := by
  refine ⟨fun _ hw => hw, fun _ _ _ he => he, fun d' q hd' hq => Or.inl ?_⟩
  rw [hd] at hd' ⊢
  cases hd'
  exact Expr.symbols_of_isNegatedLeaf hn q hq

section Step
variable {rebuild : Rebuild} {v p : String} {e : Expr} {g₁ g₂ : Graph}

/-- A column that a visit inlines was there, and is not there in the end. -/
theorem Visit.gone (h : Visit rebuild g v g₁) (hg : Planned g₁) (hi : Inlined rebuild g₁ p e g₂)
    (hlast : ∀ w ∈ (mergeNegatedAt rebuild.always g v).1.vertices, w ∈ g₂.vertices) :
    p ∈ g.vertices ∧ p ∉ (mergeNegatedAt rebuild.always g v).1.vertices := by
  obtain ⟨u, hu⟩ := Digraph.exists_mem_of_pred_ne_nil hi.pred_ne_nil
  exact ⟨h.vertices p (hg.wellFormed.snd_mem _ hu),
    fun hp => ((hi.vertices p).mp (hlast p hp)).2 rfl⟩

theorem Visit.inlined (hb : Expr.BringsNone rebuild.always) (h : Visit rebuild g v g₁) (hg : Planned g₁)
    (hi : Inlined rebuild g₁ p e g₂) (hpv : p ≠ v) (hsucc : g₁.succ p = [v])
    (hlast : ∀ w ∈ (mergeNegatedAt rebuild.always g v).1.vertices, w ∈ g₂.vertices) :
    Visit rebuild g v g₂ := by
  refine ⟨fun w hw => h.vertices w ((hi.vertices w).mp hw).1, fun w d' hwv hd' => ?_,
    fun d' q hd' hq => ?_⟩
  · obtain ⟨hw, hne⟩ := (hi.vertices w).mp (mem_vertices_of_exprOf hd')
    obtain ⟨d, hd⟩ := hg.exprOf w hw
    rw [hi.exprOf hne hd, hsucc, if_neg (by simpa using hwv)] at hd'
    cases hd'
    exact h.others w _ hwv hd
  · obtain ⟨d, hd⟩ := hg.exprOf v ((hi.vertices v).mp (mem_vertices_of_exprOf hd')).1
    rw [hi.exprOf hpv.symm hd, hsucc, if_pos (List.mem_singleton_self v)] at hd'
    cases hd'
    rcases Expr.symbols_putFor hb p e d q hq with ⟨hq, _⟩ | ⟨hq, hp⟩
    · exact h.named d q hd hq
    · -- the name came with the expression of `p`, which `v` named before
      have hstep : Names g q p := ⟨e, h.others p e hpv hi.expr, hq⟩
      rcases h.named d p hd hp with hx | ⟨x, hx, hpath⟩
      · exact Or.inr ⟨p, takenBy_eq_some_iff.mpr ⟨hx, h.gone hg hi hlast⟩, .single hstep⟩
      · exact Or.inr ⟨x, hx, .head hstep hpath⟩

end Step

/-- A column of every kind may be labelled as one likes. -/
theorem Kinded.relabel (h : Kinded s given (kindsOf label) g) {v : String} {k : Key}
    (hv : ∀ e, g.exprOf v = some e → (kindStock s given (· = k)).Supplies e) :
    Kinded s given (kindsOf (Function.update label v k)) g := by
  refine ⟨h.planned, h.computed, fun w e he => ?_⟩
  by_cases hw : w = v
  · subst hw
    have hself : kindsOf (Function.update label w k) w = (· = k) := by
      funext j
      rw [kindsOf, Function.update_self]
    exact hself ▸ hv e he
  · have hother : kindsOf (Function.update label v k) w = kindsOf label w := by
      funext j
      rw [kindsOf, Function.update_of_ne hw]
    exact hother ▸ h.kind w e he

/-- A visit that does not reach too far keeps all kinds. -/
theorem mergeNegatedAt_kinded {rebuild : Rebuild} (hb : Expr.BringsNothing rebuild.always)
    (hr : g.Ranked r) (h : Kinded s given (kindsOf label) g) {v : String}
    (hclear : ¬ Overreaches rebuild.always label g v) :
    Kinded s given (kindsOf (labelAfter rebuild.always label g v))
      (mergeNegatedAt rebuild.always g v).1 := by
  rcases mergeNegatedAt_cases rebuild.always g v with hsame | ⟨d, hd, hn, hrun⟩
  · -- nothing is inlined, so no label changes
    have hnone : takenBy rebuild.always g v = none := by
      cases ht : takenBy rebuild.always g v with
      | none => rfl
      | some x =>
        obtain ⟨_, hx, hgone⟩ := takenBy_eq_some_iff.mp ht
        exact absurd (hsame.symm ▸ hx) hgone
    rw [hsame, labelAfter, hnone]
    exact h
  · -- the new label is right from the start, since minus a leaf is of every kind
    have hstart : Kinded s given (kindsOf (labelAfter rebuild.always label g v)) g := by
      unfold labelAfter
      split
      · refine h.relabel fun d' hd' => ?_
        rw [hd] at hd'
        cases hd'
        exact supplies_kindStock_of_isNegatedLeaf hn _
      · exact h
    have hlast : (forEach (inlineUnshared rebuild.always) g (g.pred v)).1 =
        (mergeNegatedAt rebuild.always g v).1 := by rw [hrun]
    refine (forEach_takesIn (r := r) (inlineUnshared_takesIn rebuild) (v := v)
      (fun g₁ => Kinded s given (kindsOf (labelAfter rebuild.always label g v)) g₁ ∧
        Visit rebuild g v g₁) ?_ (h.planned.wellFormed.nodup_pred v)
      (fun p hp => (Digraph.mem_pred g p v).mp hp) h.planned hr ⟨hstart, .refl hd hn⟩ hlast).1
    rintro g₁ p e g₂ hg₁ hr₁ ⟨hk₁, hv₁⟩ hi hsucc _ hlast
    have hpv : p ≠ v := by
      rintro rfl
      refine Nat.lt_irrefl _ (hr₁ (p, p) ((Digraph.mem_succ g₁ p p).mp ?_))
      rw [hsucc]
      exact List.mem_singleton_self p
    refine ⟨hk₁.inlined hb hi fun w hw d' hd' hp => kindsOf_le ?_,
      hv₁.inlined hb.bringsNone hg₁ hi hpv hsucc hlast⟩
    rw [hsucc, List.mem_singleton] at hw
    subst hw
    obtain ⟨hpg, hgone⟩ := hv₁.gone hg₁ hi hlast
    rw [labelAfter_of_ne hpv]
    rcases hv₁.named d' p hd' hp with hx | ⟨x, hx, hpath⟩
    · exact Or.inr (labelAfter_self (takenBy_eq_some_iff.mpr ⟨hx, hpg, hgone⟩)).symm
    · rw [labelAfter_self hx]
      by_contra hne
      obtain ⟨hplain, hother⟩ := not_or.mp hne
      exact hclear ⟨x, p, hx, hpath, hpg, hgone, hplain, hother⟩

/-! ## The second pass -/

/-- The labels after visits to the listed columns. -/
def labelsAlong (build : Build) (label : String → Key) (g : Graph) : List String → String → Key
  | [] => label
  | v :: vs => labelsAlong build (labelAfter build label g v) (mergeNegatedAt build g v).1 vs

/-- None of the visits to the listed columns reaches too far. -/
def Clear (build : Build) (label : String → Key) (g : Graph) : List String → Prop
  | [] => True
  | v :: vs => ¬ Overreaches build label g v ∧
    Clear build (labelAfter build label g v) (mergeNegatedAt build g v).1 vs

theorem mergeNegated_kinded {rebuild : Rebuild} (hb : Expr.BringsNothing rebuild.always)
    (hr : g.Ranked r) (h : Kinded s given (kindsOf label) g)
    {names : List String} (hclear : Clear rebuild.always label g names)
    (hok : mergeNegated rebuild.always g names = (g', .ok ())) :
    Kinded s given (kindsOf (labelsAlong rebuild.always label g names)) g' := by
  unfold mergeNegated at hok
  induction names generalizing g label with
  | nil =>
    cases hok
    exact h
  | cons v vs ih =>
    have hvisit := mergeNegatedAt_kinded hb hr h hclear.1
    have hranked := (mergeNegatedAt_inlining rebuild h.planned v).ranked hr
    unfold forEach at hok
    split at hok
    · rename_i g₁ hm
      have hg₁ : (mergeNegatedAt rebuild.always g v).1 = g₁ := by rw [hm]
      rw [← hg₁] at hok
      exact ih hranked hvisit hclear.2 hok
    · cases hok

/-- Visits none of which is stopped are those of the completed building. -/
theorem along_complete {build : Build} {names : List String}
    (hok : mergeNegated build g names = (g', .ok ())) :
    labelsAlong build.complete.always label g names = labelsAlong build label g names ∧
      (Clear build label g names → Clear build.complete.always label g names) := by
  unfold mergeNegated at hok
  induction names generalizing g label with
  | nil => exact ⟨rfl, id⟩
  | cons v vs ih =>
    unfold forEach at hok
    split at hok
    · rename_i g₁ hm
      have hvisit : mergeNegatedAt build.complete.always g v = mergeNegatedAt build g v := by
        rcases mergeNegatedAt_complete build g v with hsame | hstop
        · exact hsame.symm
        · rw [hm] at hstop
          exact absurd hstop (not_refused_ok build)
      have hlabel : labelAfter build.complete.always label g v = labelAfter build label g v := by
        unfold labelAfter takenBy
        rw [hvisit]
      have hover : Overreaches build.complete.always label g v ↔ Overreaches build label g v := by
        unfold Overreaches takenBy
        rw [hvisit]
      have hg₁ : (mergeNegatedAt build g v).1 = g₁ := by rw [hm]
      rw [labelsAlong, labelsAlong, Clear, Clear, hvisit, hlabel, hover, hg₁]
      obtain ⟨hlabels, hclear⟩ := @ih _ (labelAfter build label g v) hok
      exact ⟨hlabels, fun h => ⟨h.1, hclear h.2⟩⟩
    · cases hok

/-- **Merging mixes no groups but by negation.** Let all columns of a started plan be of one kind,
with operators within groups grouped by given columns, and let building a node bring in nothing. The
first pass goes through or is stopped by a node that is refused, whatever is asked for and in
whatever order columns are merged. Where it goes through, finding the groups then would too, and
every column that is left would be of one kind and have its key, or that of whole columns where no
grouped operator is left. Where the second pass goes through as well and none of its visits reaches
too far, so does the whole middle, and the same holds, but that a column which is minus another one
takes the key of that with its expression. -/
theorem middle_keeps_kinds (build : Build) (hbuild : Expr.BringsNothing build)
    (order : List String → List String) (horder : ∀ vs v, v ∈ order vs ↔ v ∈ vs)
    (hstart : start s bs = .ok g) (hkind : ∀ v ∈ g.vertices, OneKind s g v)
    (hgrouped : ∀ v e, g.exprOf v = some e → GroupedBy s (· ∈ g.sources) e) (names : List String) :
    ((mergeColumns build order (g.keepOnly order names) names).2 = .ok () ∨
      Refused build (mergeColumns build order (g.keepOnly order names) names)) ∧
    ∀ g₁, mergeColumns build order (g.keepOnly order names) names = (g₁, .ok ()) →
      (∃ g', classifyAll s g₁ = (g', .ok ()) ∧ ∀ v ∈ g'.vertices, KeptKind s g.labelOf g' v) ∧
      ∀ g₂, mergeNegated build g₁ names = (g₂, .ok ()) → Clear build g.labelOf g₁ names →
        ∃ g', middle s build order g names = (g', .ok ()) ∧
          ∀ v ∈ g'.vertices, KeptKind s (labelsAlong build g.labelOf g₁ names) g' v := by
  have hs := start_started hstart
  have hkeeps := Digraph.keepOnly_keeps order names hs.wellFormed
  have hr := hkeeps.ranked (Digraph.level_ranked hs.wellFormed hs.layered)
  have hkept := (hs.kinded hkind hgrouped).keeps hkeeps
  have hlayered {g : Graph} (hg : Planned g) {r : String → Nat} (hr : g.Ranked r) :
      g.generations.2 = [] := Digraph.generations_rest_eq_nil hg.wellFormed hr
  have hfirst := mergeColumns_kinded hbuild.complete order hr hkept (hs.labelled.keeps hkeeps) names
  have hr₁ := (mergeColumns_inlining build.complete order hkept.planned names).ranked hr
  refine ⟨?_, fun g₁ hg₁ => ?_⟩
  · refine (mergeColumns_complete build order (g.keepOnly order names) names).imp_left fun hsame => ?_
    obtain ⟨g₁, hg₁⟩ := mergeColumns_ok build.complete horder hkept.planned
      (hlayered hkept.planned hr) names
    rw [hsame, hg₁]
  · have hcolumns : mergeColumns build.complete.always order (g.keepOnly order names) names =
        (g₁, .ok ()) := by
      rcases mergeColumns_complete build order (g.keepOnly order names) names with hsame | hstop
      · exact hsame.symm.trans hg₁
      · rw [hg₁] at hstop
        exact absurd hstop (not_refused_ok build)
    rw [hcolumns] at hfirst hr₁
    refine ⟨hfirst.classifyAll (hlayered hfirst.planned hr₁), fun g₂ hg₂ hclear => ?_⟩
    obtain ⟨hlabels, hclear'⟩ := along_complete hg₂
    have hnegated : mergeNegated build.complete.always g₁ names = (g₂, .ok ()) := by
      rcases mergeNegated_complete build g₁ names with hsame | hstop
      · exact hsame.symm.trans hg₂
      · rw [hg₂] at hstop
        exact absurd hstop (not_refused_ok build)
    have hsecond := mergeNegated_kinded hbuild.complete hr₁ hfirst (hclear' hclear) hnegated
    have hr₂ := (mergeNegated_inlining build.complete hfirst.planned names).ranked hr₁
    rw [hnegated] at hr₂
    obtain ⟨g', hg', hall⟩ := hsecond.classifyAll (hlayered hsecond.planned hr₂)
    refine ⟨g', ?_, hlabels ▸ hall⟩
    unfold middle
    dsimp only
    rw [hg₁]
    dsimp only
    rw [hg₂]
    exact hg'

/-- Minus a sum over a mean of a rank, and the rank of that rank within sectors. -/
def negatedSum : List (Slot × Value) :=
  [computed "r" "cs_rank" "OPEN", computed "m" "ts_mean" "r", computed "n" "ts_sum" "m",
    (.column "v", .expr (.product [.negOne, .symbol "n"])),
    (.column "w", .expr (.apply (.named "gp_rank") [.symbol "SECTOR", .symbol "r"]))]

/-- The mean is taken into the sum, and the sum into what is minus it, which is then computed over
time. -/
theorem middle_keeps_kinds_negatedSum : ∃ g g₁ g', start {} negatedSum = .ok g ∧
    mergeColumns Expr.build id (g.keepOnly id ["v", "w"]) ["v", "w"] = (g₁, .ok ()) ∧
    "m" ∉ g₁.vertices ∧ takenBy Expr.build g₁ "v" = some "n" ∧
    labelsAlong Expr.build g.labelOf g₁ ["v", "w"] "v" = Key.overTime "asset" "date" ∧
    middle {} Expr.build id g ["v", "w"] = (g', .ok ()) ∧
    ∀ v ∈ g'.vertices, KeptKind {} (labelsAlong Expr.build g.labelOf g₁ ["v", "w"]) g' v := by
  let g : Graph := (start {} negatedSum).toOption.getD {}
  have hg : start {} negatedSum = .ok g := rfl
  have hkind : ∀ v ∈ g.vertices, OneKind {} g v := by decide +kernel
  have hgrouped : ∀ v ∈ g.vertices, ∀ e ∈ g.exprOf v, GroupedBy {} (· ∈ g.sources) e := by
    decide +kernel
  let m : Graph := (mergeColumns Expr.build id (g.keepOnly id ["v", "w"]) ["v", "w"]).1
  have htaken : takenBy Expr.build m "v" = some "n" := by decide +kernel
  have hmean : "m" ∉ m.vertices := by decide +kernel
  have hlabel : labelsAlong Expr.build g.labelOf m ["v", "w"] "v" =
      Key.overTime "asset" "date" := by decide +kernel
  -- whatever is gone after the first visit is computed as the sum is
  have hgone : ∀ p ∈ m.vertices, p ∉ (mergeNegatedAt Expr.build m "v").1.vertices →
      g.labelOf p = g.labelOf "n" := by decide +kernel
  have hnone : takenBy Expr.build (mergeNegatedAt Expr.build m "v").1 "w" = none := by
    decide +kernel
  have hok : (mergeNegated Expr.build m ["v", "w"]).2 = .ok () := by decide +kernel
  have hfirst : (mergeColumns Expr.build id (g.keepOnly id ["v", "w"]) ["v", "w"]).2 = .ok () := by
    decide +kernel
  rcases hg₁ : mergeColumns Expr.build id (g.keepOnly id ["v", "w"]) ["v", "w"] with ⟨g₁, r₁⟩
  rw [hg₁] at hfirst
  cases (hfirst : r₁ = .ok ())
  obtain ⟨_, hall⟩ := (middle_keeps_kinds Expr.build Expr.bringsNothing_build id (fun _ _ => Iff.rfl)
    hg hkind (fun v e he => hgrouped v (mem_vertices_of_exprOf he) e he) ["v", "w"]).2 g₁ hg₁
  have hm : m = g₁ := congrArg Prod.fst hg₁
  clear_value m g
  subst hm
  rcases hn : mergeNegated Expr.build m ["v", "w"] with ⟨g₂, r⟩
  rw [hn] at hok
  cases (hok : r = .ok ())
  have hclear : Clear Expr.build g.labelOf m ["v", "w"] := by
    refine ⟨?_, ?_, trivial⟩
    · rintro ⟨x, p, hx, _, hp, hlost, _, hne⟩
      rw [htaken] at hx
      cases hx
      exact hne (hgone p hp hlost)
    · rintro ⟨x, _, hx, _⟩
      rw [hnone] at hx
      cases hx
  obtain ⟨g', hg', hkept⟩ := hall g₂ hn hclear
  exact ⟨g, m, g', hg, hg₁, hmean, htaken, hlabel, hg', hkept⟩

/-- A rank is added and taken away again, beside its mean. -/
def takenBack : List (Slot × Value) :=
  [computed "r" "cs_rank" "OPEN", computed "m" "ts_mean" "r", (.column "w", .expr (.symbol "r")),
    (.column "v", .expr (.sum [.product [.negOne, .symbol "m"], .product [.negOne, .symbol "r"],
      .symbol "w"]))]

/-- The plan of these columns. -/
def takenBackPlan : Graph where
  nodes := [grouped "r" (rankOf (.symbol "OPEN")) [Key.acrossMarket "date"] ["OPEN"] 1,
    grouped "OPEN" (.symbol "OPEN") [] ["OPEN"] 0,
    grouped "m" (meanOf (.symbol "r")) [Key.overTime "asset" "date"] ["r"] 2,
    grouped "w" (.symbol "r") [] ["r"] 2,
    grouped "v" (.sum [.product [.negOne, .symbol "m"], .product [.negOne, .symbol "r"],
      .symbol "w"]) [] ["m", "r", "w"] 3]
  edges := [("OPEN", "r"), ("r", "m"), ("r", "w"), ("m", "v"), ("r", "v"), ("w", "v")]

/-- Once the column by which the rank was added is inlined, the last one is minus the mean, with the
edge from the rank left over. So the mean is inlined, and then the rank, which nothing else uses any
more: a column over time has an operator across the market in it. -/
theorem mixed_by_negation : start {} takenBack = .ok takenBackPlan ∧
    (∀ v ∈ takenBackPlan.vertices, OneKind {} takenBackPlan v) ∧
    (∀ v ∈ takenBackPlan.vertices, ∀ e ∈ takenBackPlan.exprOf v,
      GroupedBy {} (· ∈ takenBackPlan.sources) e) ∧
    ∃ g', middle {} Expr.build id takenBackPlan ["v"] = (g', .ok ()) ∧
      g'.keyOf "v" = some (Key.overTime "asset" "date") ∧
      g'.exprOf "v" = some (.product [.negOne, meanOf (rankOf (.symbol "OPEN"))]) ∧
      ¬ OneKind {} g' "v" := by
  have hok : (middle {} Expr.build id takenBackPlan ["v"]).2 = .ok () := by decide +kernel
  exact ⟨rfl, by decide +kernel, by decide +kernel, (middle {} Expr.build id takenBackPlan ["v"]).1,
    Prod.ext rfl hok, by decide +kernel, by decide +kernel, by decide +kernel⟩

end Graph

end Plan

end FactorPlan
