import FactorPlan.Proofs.Merging

/-!
Runs that a refused node may stop. Putting an expression into a column builds nodes again, which can
be refused; the pass then stops with that refusal. A pass that is not stopped so did what it does
with the completed building, under which every node can be built (`mergeColumns_complete`,
`mergeNegated_complete`, `middle_complete`). So the lemmas on passes speak of building that always
succeeds, and what they say carries over to any building here.
-/

namespace FactorPlan

namespace Plan

namespace Graph

/-- The graph and the outcome of a run that ended in inlining a column, by a node that is refused. -/
def Refused (build : Build) (p : Graph × Except PlanError Unit) : Prop :=
  ∃ g v x, p = inline build g v ∧ p.2 = .error (.build x)

variable (build : Build) (order : List String → List String)

theorem not_refused_ok {g : Graph} : ¬ Refused build (g, .ok ()) := by
  rintro ⟨_, _, x, _, hx⟩
  cases hx

theorem Refused.eq {p : Graph × Except PlanError Unit} (h : Refused build p) :
    ∃ x, p = (p.1, .error x) := by
  obtain ⟨_, _, x, _, hx⟩ := h
  exact ⟨.build x, Prod.ext rfl hx⟩

/-- Where every step agrees with another one or is stopped, so does or is the run. -/
theorem forEach_agrees {α σ : Type} {f f' : σ → α → σ × Except PlanError Unit}
    (Stopped : σ × Except PlanError Unit → Prop)
    (hstopped : ∀ p, Stopped p → ∃ x, p = (p.1, .error x))
    (hstep : ∀ s a, f s a = f' s a ∨ Stopped (f s a)) (s : σ) (as : List α) :
    forEach f s as = forEach f' s as ∨ Stopped (forEach f s as) := by
  induction as generalizing s with
  | nil => exact Or.inl rfl
  | cons a as ih =>
    unfold forEach
    rcases hstep s a with hsame | hstop
    · rw [← hsame]
      split
      · exact ih _
      · exact Or.inl rfl
    · obtain ⟨x, hx⟩ := hstopped _ hstop
      rw [hx] at hstop ⊢
      exact Or.inr hstop

theorem forEach_complete {α : Type} {f f' : Graph → α → Graph × Except PlanError Unit}
    (hstep : ∀ g a, f g a = f' g a ∨ Refused build (f g a)) (g : Graph) (as : List α) :
    forEach f g as = forEach f' g as ∨ Refused build (forEach f g as) :=
  forEach_agrees (Refused build) (fun _ hp => hp.eq) hstep g as

theorem substitute_complete (x e d : Content) :
    substitute build x e d = substitute build.complete.always x e d ∨
      ∃ y, substitute build x e d = .error y := by
  rw [substitute_always]
  cases d with
  | several ns => exact Or.inl rfl
  | expr d =>
    cases x <;> cases e
    case expr.expr x e =>
      simp only [substitute, putIn]
      cases h : Expr.tryReplace build (fun y => if y = x then some e else none) d with
      | ok y =>
        rw [← Expr.tryReplace_complete h]
        exact Or.inl rfl
      | error y => exact Or.inr ⟨y, rfl⟩
    all_goals exact Or.inl rfl

theorem substituteAt_complete (x e : Content) (g : Graph) (v : String) :
    substituteAt build x e g v = substituteAt build.complete.always x e g v ∨
      ∃ y, (substituteAt build x e g v).2 = .error (.build y) := by
  unfold substituteAt
  split
  · exact Or.inl rfl
  · rename_i d _
    rcases substitute_complete build x e d with h | ⟨y, h⟩
    · rw [h]
      exact Or.inl rfl
    · rw [h]
      exact Or.inr ⟨y, rfl⟩

theorem inline_complete (g : Graph) (v : String) :
    inline build g v = inline build.complete.always g v ∨ Refused build (inline build g v) := by
  have hrefused : (∃ y, (inline build g v).2 = .error (.build y)) → Refused build (inline build g v) :=
    fun ⟨y, hy⟩ => ⟨g, v, y, rfl, hy⟩
  refine Or.imp_right hrefused ?_
  unfold inline
  split
  · exact Or.inl rfl
  dsimp only
  split
  · exact Or.inl rfl
  split
  · rename_i e x _ _
    rcases forEach_agrees (fun p => ∃ y, p.2 = .error (.build y))
      (fun p ⟨y, hy⟩ => ⟨.build y, Prod.ext rfl hy⟩) (substituteAt_complete build x e) g
      (Digraph.succ g v) with h | ⟨y, h⟩
    · rw [h]
      exact Or.inl rfl
    · rw [show forEach (substituteAt build x e) g (Digraph.succ g v) =
        ((forEach (substituteAt build x e) g (Digraph.succ g v)).1, .error (.build y)) from
          Prod.ext rfl h]
      exact Or.inr ⟨y, rfl⟩
  · exact Or.inl rfl

theorem absorb_complete (key : Key) (symbols : List String) (g : Graph) (p : String) :
    absorb build key symbols g p = absorb build.complete.always key symbols g p ∨
      Refused build (absorb build key symbols g p) := by
  unfold absorb
  split
  · exact Or.inl rfl
  split
  · exact Or.inl rfl
  split
  · split
    · exact inline_complete build g p
    · exact Or.inl rfl
  · exact Or.inl rfl

theorem mergeNode_complete (g : Graph) (v : String) :
    mergeNode build g v = mergeNode build.complete.always g v ∨
      Refused build ((mergeNode build g v).1, (mergeNode build g v).2.2) := by
  unfold mergeNode
  split
  · exact Or.inl rfl
  dsimp only
  split
  · exact Or.inl rfl
  split
  · rename_i key e symbols _ _ _
    split
    · split
      · rcases inline_complete build g v with h | h
        · rw [h]
          exact Or.inl rfl
        · exact Or.inr h
      · exact Or.inl rfl
    · rcases forEach_complete build (absorb_complete build key symbols) g (Digraph.pred g v) with
        h | h
      · rw [h]
        exact Or.inl rfl
      · exact Or.inr h
  · exact Or.inl rfl

theorem mergeRound_complete (g : Graph) (vs : List String) :
    mergeRound build g vs = mergeRound build.complete.always g vs ∨
      Refused build ((mergeRound build g vs).1, (mergeRound build g vs).2.2) := by
  induction vs generalizing g with
  | nil => exact Or.inl rfl
  | cons v vs ih =>
    unfold mergeRound
    rcases mergeNode_complete build g v with hsame | hstop
    · rw [← hsame]
      split
      · rename_i g₁ next _
        dsimp only
        rcases ih g₁ with h | h
        · rw [h]
          exact Or.inl rfl
        · exact Or.inr h
      · exact Or.inl rfl
    · obtain ⟨x, hx⟩ := hstop.eq
      rw [hx] at hstop
      rw [show mergeNode build g v =
        ((mergeNode build g v).1, (mergeNode build g v).2.1, .error x) from
          Prod.ext rfl (Prod.ext rfl (Prod.mk.inj hx).2)]
      exact Or.inr hstop

theorem mergeFrom_complete (fuel : Nat) (g : Graph) (current : List String) :
    mergeFrom build order fuel g current = mergeFrom build.complete.always order fuel g current ∨
      Refused build (mergeFrom build order fuel g current) := by
  induction fuel generalizing g current with
  | zero => exact Or.inl rfl
  | succ fuel ih =>
    unfold mergeFrom
    split
    · exact Or.inl rfl
    rcases mergeRound_complete build g current with hsame | hstop
    · rw [← hsame]
      split
      · exact ih _ _
      · exact Or.inl rfl
    · obtain ⟨x, hx⟩ := hstop.eq
      rw [hx] at hstop
      rw [show mergeRound build g current =
        ((mergeRound build g current).1, (mergeRound build g current).2.1, .error x) from
          Prod.ext rfl (Prod.ext rfl (Prod.mk.inj hx).2)]
      exact Or.inr hstop

/-- The first pass is stopped by a refused node, or it is that of the completed building. -/
theorem mergeColumns_complete (g : Graph) (starts : List String) :
    mergeColumns build order g starts = mergeColumns build.complete.always order g starts ∨
      Refused build (mergeColumns build order g starts) :=
  mergeFrom_complete build order _ g starts

theorem inlineUnshared_complete (g : Graph) (p : String) :
    inlineUnshared build g p = inlineUnshared build.complete.always g p ∨
      Refused build (inlineUnshared build g p) := by
  unfold inlineUnshared
  split
  · exact Or.inl rfl
  · exact inline_complete build g p

theorem mergeNegatedAt_complete (g : Graph) (v : String) :
    mergeNegatedAt build g v = mergeNegatedAt build.complete.always g v ∨
      Refused build (mergeNegatedAt build g v) := by
  unfold mergeNegatedAt
  split
  · exact Or.inl rfl
  split
  · exact forEach_complete build (inlineUnshared_complete build) g _
  · exact Or.inl rfl

/-- The second pass is stopped by a refused node, or it is that of the completed building. -/
theorem mergeNegated_complete (g : Graph) (starts : List String) :
    mergeNegated build g starts = mergeNegated build.complete.always g starts ∨
      Refused build (mergeNegated build g starts) :=
  forEach_complete build (mergeNegatedAt_complete build) g starts

/-- The middle is stopped by a refused node, or it is that of the completed building. -/
theorem middle_complete (s : Setting) (g : Graph) (names : List String) :
    middle s build order g names = middle s build.complete.always order g names ∨
      Refused build (middle s build order g names) := by
  unfold middle
  dsimp only
  rcases mergeColumns_complete build order (g.keepOnly order names) names with hsame | hstop
  · rw [← hsame]
    split
    · exact Or.inl rfl
    · rename_i g₁ _
      rcases mergeNegated_complete build g₁ names with hsame | hstop
      · rw [← hsame]
        exact Or.inl rfl
      · obtain ⟨x, hx⟩ := hstop.eq
        rw [hx] at hstop ⊢
        exact Or.inr hstop
  · obtain ⟨x, hx⟩ := hstop.eq
    rw [hx] at hstop ⊢
    exact Or.inr hstop

/-- A middle that returns is that of the completed building. -/
theorem middle_of_ok {build : Build} {order : List String → List String} {s : Setting}
    {g g' : Graph} {names : List String} (h : middle s build order g names = (g', .ok ())) :
    middle s build.complete.always order g names = (g', .ok ()) := by
  rcases middle_complete build order s g names with hsame | hstop
  · exact hsame.symm.trans h
  · rw [h] at hstop
    exact absurd hstop (not_refused_ok build)

end Graph

end Plan

end FactorPlan
