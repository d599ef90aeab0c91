import FactorPlan.Proofs.Inlining
import FactorPlan.Proofs.Generations

/-!
The merging passes. Whatever they are given, they inline columns one after the other
(`mergeColumns_inlining`, `mergeNegated_inlining`), so that the middle of a plan keeps a
part of the graph, inlines columns of it and finds groups (`middle_spec`).

On a graph in which no column depends on itself the first pass does not fail and needs
no more rounds than it has (`mergeColumns_ok`): along every round the ranks of the
columns to look at fall (`Ends`), whatever the order in which they are looked at. The second
one does not fail where the listed columns are used by nothing (`mergeNegated_ok`). What is
left is finding the groups (`middle_ok`).
-/

namespace FactorPlan

namespace Plan

namespace Graph

variable (build : Build) (rebuild : Rebuild) {order : List String → List String} {g : Graph} {r : String → Nat}

/-- Inlining keeps that a column is inlined after the other. -/
theorem inlining_step (h : Planned g) (g' : Graph) (v : String) (hg' : Inlining rebuild g g') :
    Inlining rebuild g (inline rebuild.always g' v).1 :=
  hg'.trans (inline_inlining rebuild (hg'.planned h) v)

/-- A step on columns that are there, which keeps what is known and loses at most its own column,
does not fail in a run over distinct columns. -/
theorem forEach_initialised_ok {f : Graph → String → Graph × Except PlanError Unit}
    (hok : ∀ g v, Initialised g → v ∈ g.vertices → ∃ g', f g v = (g', .ok ()) ∧ Initialised g' ∧
      ∀ w ∈ g.vertices, w ≠ v → w ∈ g'.vertices)
    (h : Initialised g) {vs : List String} (hnd : vs.Nodup) (hvs : ∀ v ∈ vs, v ∈ g.vertices) :
    ∃ g', forEach f g vs = (g', .ok ()) := by
  refine forEach_ok Initialised (fun v g => v ∈ g.vertices) ?_ hnd h hvs
  intro g₁ v hg₁ hv
  obtain ⟨g₂, hg₂, hknown, hothers⟩ := hok g₁ v hg₁ hv
  exact ⟨g₂, hg₂, hknown, fun w hne hw => hothers w hw hne⟩

/-! ## Merging with neighbours -/

section Kept
variable (P : Graph → Prop) (hinline : ∀ g v, P g → P (inline build g v).1)
include hinline

theorem absorb_keeps (key : Key) (symbols : List String) (h : P g) (p : String) :
    P (absorb build key symbols g p).1 := by
  unfold absorb
  split
  · exact h
  · split
    · exact h
    · split
      · split
        · exact hinline g p h
        · exact h
      · exact h

/-- What inlining keeps, merging a column keeps. -/
theorem mergeNode_keeps (h : P g) (v : String) : P (mergeNode build g v).1 := by
  unfold mergeNode
  split
  · exact h
  · dsimp only
    split
    · exact h
    · split
      · split
        · split
          · exact hinline g v h
          · exact h
        · exact forEach_keeps P (fun _ p hg => absorb_keeps build P hinline _ _ hg p) h _
      · exact h

end Kept

theorem absorb_ok (key : Key) (symbols : List String) (h : Initialised g) {p : String}
    (hp : p ∈ g.vertices) :
    ∃ g', absorb rebuild.always key symbols g p = (g', .ok ()) ∧ Initialised g' ∧
      ∀ w ∈ g.vertices, w ≠ p → w ∈ g'.vertices := by
  obtain ⟨c, e, k, ss, hc, hx, hk, _⟩ := h.known p hp
  have hstay : ∀ w ∈ g.vertices, w ≠ p → w ∈ g.vertices := fun w hw _ => hw
  unfold absorb
  by_cases hcount : 1 < symbols.count p
  · rw [if_pos hcount]; exact ⟨g, rfl, h, hstay⟩
  · simp only [if_neg hcount, hc, hk, hx]
    by_cases hmerge : key = k ∧ (Digraph.succ g p).length = 1
    · rw [if_pos hmerge]; exact inline_ok rebuild h hp
    · rw [if_neg hmerge]; exact ⟨g, rfl, h, hstay⟩

theorem mergeNode_inlining (h : Planned g) (v : String) :
    Inlining rebuild g (mergeNode rebuild.always g v).1 :=
  mergeNode_keeps rebuild.always _ (inlining_step rebuild h) Relation.ReflTransGen.refl v

/-- Inlining keeps what is known and all ranks. -/
theorem inline_ranked (g : Graph) (v : String) (h : Initialised g ∧ g.Ranked r) :
    Initialised (inline rebuild.always g v).1 ∧ (inline rebuild.always g v).1.Ranked r :=
  ⟨inline_initialised rebuild h.1 v, (inline_contracts rebuild.always h.1.wellFormed v).ranked r h.2⟩

theorem contracts_step (g' : Graph) (v : String) (h : Digraph.Contracts g g') :
    Digraph.Contracts g (inline build g' v).1 :=
  h.trans (inline_contracts build h.wellFormed v)

/-- Merging a column does not fail, and what is looked at next ranks below it. -/
theorem mergeNode_ok (h : Initialised g) (hr : g.Ranked r) (v : String) :
    ∃ g' next, mergeNode rebuild.always g v = (g', next, .ok ()) ∧
      ∀ u ∈ next, v ∈ g.vertices ∧ r u < r v := by
  by_cases hv : v ∈ g.vertices
  · obtain ⟨c, e, k, ss, hc, hx, hk, hss⟩ := h.known v hv
    have hpred : ∀ u ∈ g.pred v, v ∈ g.vertices ∧ r u < r v := fun u hu =>
      ⟨hv, hr (u, v) ((Digraph.mem_pred g u v).mp hu)⟩
    unfold mergeNode
    simp only [hc, hk, hx, hss]
    by_cases hsource : (Digraph.pred g v).isEmpty = true
    · rw [if_pos hsource]
      exact ⟨g, [], rfl, by simp⟩
    rw [if_neg hsource]
    by_cases hplain : k.head? = some "cl"
    · -- without grouping the column goes into what uses it
      rw [if_pos hplain]
      split
      · obtain ⟨g', hg', _⟩ := inline_ok rebuild h hv
        rw [hg']
        exact ⟨g', _, rfl, hpred⟩
      · exact ⟨g, _, rfl, hpred⟩
    · -- otherwise it takes in what it is computed from, and looks on from what is left
      rw [if_neg hplain]
      obtain ⟨g', hg'⟩ := forEach_initialised_ok (fun g p hg hp => absorb_ok rebuild k ss hg hp) h
        (h.wellFormed.nodup_pred v)
        (fun u hu => h.wellFormed.fst_mem (u, v) ((Digraph.mem_pred g u v).mp hu))
      have hrun := forEach_keeps (f := absorb rebuild.always k ss) (fun g => Initialised g ∧ g.Ranked r)
        (fun _ p hg => absorb_keeps rebuild.always _ (inline_ranked rebuild) k ss hg p) ⟨h, hr⟩ (g.pred v)
      rw [hg'] at hrun ⊢
      exact ⟨g', _, rfl, fun u hu => ⟨hv, hrun.2 (u, v) ((Digraph.mem_pred g' u v).mp hu)⟩⟩
  · -- a column that was inlined in the meantime is passed over
    unfold mergeNode
    rw [(Digraph.get?_eq_none_iff g v).mpr hv]
    exact ⟨g, [], rfl, by simp⟩

/-- What merging one column keeps, a round keeps. -/
theorem mergeRound_keeps (P : Graph → Prop) (hstep : ∀ g v, P g → P (mergeNode build g v).1)
    (h : P g) (vs : List String) : P (mergeRound build g vs).1 := by
  induction vs generalizing g with
  | nil => exact h
  | cons v vs ih =>
    have hv := hstep g v h
    unfold mergeRound
    split
    · rename_i hm
      rw [hm] at hv
      exact ih hv
    · rename_i hm
      rw [hm] at hv
      exact hv

theorem mergeRound_ok (h : Initialised g) (hr : g.Ranked r) (vs : List String) :
    ∃ g' next, mergeRound rebuild.always g vs = (g', next, .ok ()) ∧ Initialised g' ∧ g'.Ranked r ∧
      ∀ u ∈ next, ∃ v ∈ vs, v ∈ g.vertices ∧ r u < r v := by
  induction vs generalizing g with
  | nil => exact ⟨g, [], rfl, h, hr, by simp⟩
  | cons v vs ih =>
    obtain ⟨g₁, next, hm, hnext⟩ := mergeNode_ok rebuild h hr v
    have hknown := mergeNode_keeps rebuild.always _ (inline_ranked rebuild) ⟨h, hr⟩ v
    have hrun := mergeNode_keeps rebuild.always _ (contracts_step rebuild.always) (.refl h.wellFormed) v
    rw [hm] at hknown hrun
    obtain ⟨g₂, more, hrest, h₂, hr₂, hmore⟩ := ih hknown.1 hknown.2
    refine ⟨g₂, next ++ more, ?_, h₂, hr₂, ?_⟩
    · unfold mergeRound
      rw [hm]
      dsimp only
      rw [hrest]
    · intro u hu
      rcases List.mem_append.mp hu with hu | hu
      · exact ⟨v, by simp, hnext u hu⟩
      · obtain ⟨w, hw, hwg, hlt⟩ := hmore u hu
        exact ⟨w, by simp [hw], hrun.vertices w hwg, hlt⟩

/-- What merging one column keeps, the rounds keep. -/
theorem mergeFrom_keeps (P : Graph → Prop) (hstep : ∀ g v, P g → P (mergeNode build g v).1)
    (order : List String → List String) (h : P g) (fuel : Nat) (current : List String) :
    P (mergeFrom build order fuel g current).1 := by
  induction fuel generalizing g current with
  | zero => exact h
  | succ fuel ih =>
    have hround := mergeRound_keeps build P hstep h current
    unfold mergeFrom
    split
    · exact h
    · split
      · rename_i hm
        rw [hm] at hround
        exact ih hround _
      · rename_i hm
        rw [hm] at hround
        exact hround

/-- What merging one column keeps, the first pass keeps. -/
theorem mergeColumns_keeps (P : Graph → Prop) (hstep : ∀ g v, P g → P (mergeNode build g v).1)
    (order : List String → List String) (h : P g) (starts : List String) :
    P (mergeColumns build order g starts).1 :=
  mergeFrom_keeps build P hstep order h _ starts

/-- One round: the columns at hand are merged, and those to look at next are at hand in any order. -/
def MergesRound (s t : List String × Graph) : Prop :=
  s.1 ≠ [] ∧ ∃ next, mergeRound build s.2 s.1 = (t.2, next, .ok ()) ∧ ∀ v, v ∈ t.1 ↔ v ∈ next

/-- At most `n` rounds are left: the columns at hand that are still there rank low enough for one
round each on the way down, and one more to find that none is there. -/
structure Ends (r : String → Nat) (n : Nat) (s : List String × Graph) : Prop where
  initialised : Initialised s.2
  ranked : s.2.Ranked r
  left : ∀ v ∈ s.1, 0 < n ∧ (v ∈ s.2.vertices → r v + 1 < n)

/-- A round does not fail, and then there is one less. -/
theorem Ends.mergeRound {s : List String × Graph} {n : Nat} (h : Ends r (n + 1) s) :
    ∃ g' next, mergeRound rebuild.always s.2 s.1 = (g', next, .ok ()) ∧
      ∀ vs, (∀ v, v ∈ vs ↔ v ∈ next) → Ends r n (vs, g') := by
  obtain ⟨g', next, hround, h', hr', hnext⟩ := mergeRound_ok rebuild h.initialised h.ranked s.1
  refine ⟨g', next, hround, fun vs hvs => ⟨h', hr', fun u hu => ?_⟩⟩
  obtain ⟨v, hv, hvg, hlt⟩ := hnext u ((hvs u).mp hu)
  have := (h.left v hv).2 hvg
  omega

theorem Ends.eq_nil {s : List String × Graph} (h : Ends r 0 s) : s.1 = [] :=
  List.eq_nil_iff_forall_not_mem.mpr fun v hv => Nat.lt_irrefl _ (h.left v hv).1

theorem Ends.step {s t : List String × Graph} {n : Nat} (h : Ends r (n + 1) s)
    (hst : MergesRound rebuild.always s t) : Ends r n t := by
  obtain ⟨_, next, hround, hall⟩ := hst
  obtain ⟨g', next', hround', hends⟩ := h.mergeRound rebuild
  rw [hround] at hround'
  cases hround'
  exact hends t.1 hall

/-- With one round more than are left the rounds go on until no column is at hand. -/
theorem mergeFrom_ok (horder : ∀ vs v, v ∈ order vs ↔ v ∈ vs) (n : Nat) {fuel : Nat}
    (hfuel : n < fuel) {current : List String} (h : Ends r n (current, g)) :
    ∃ g', mergeFrom rebuild.always order fuel g current = (g', .ok ()) := by
  induction n generalizing g current fuel with
  | zero =>
    obtain ⟨fuel, rfl⟩ := Nat.exists_eq_add_of_lt hfuel
    have hc : current = [] := h.eq_nil
    subst hc
    exact ⟨g, rfl⟩
  | succ n ih =>
    obtain ⟨fuel, rfl⟩ := Nat.exists_eq_add_of_lt hfuel
    unfold mergeFrom
    split
    · exact ⟨g, rfl⟩
    · obtain ⟨g₁, next, hround, hends⟩ := h.mergeRound rebuild
      rw [hround]
      exact ih (Nat.lt_of_lt_of_le (Nat.lt_succ_self n) (Nat.le_add_right _ fuel))
        (hends (order next) (horder next))

/-- The first pass goes round by round. -/
theorem rounds_of_mergeFrom (horder : ∀ vs v, v ∈ order vs ↔ v ∈ vs) {fuel : Nat} {g' : Graph}
    {current : List String} (h : mergeFrom build order fuel g current = (g', .ok ())) :
    Relation.ReflTransGen (MergesRound build) (current, g) ([], g') := by
  induction fuel generalizing g current with
  | zero => cases h
  | succ fuel ih =>
    unfold mergeFrom at h
    split at h
    · rename_i hc
      cases h
      exact List.isEmpty_iff.mp hc ▸ .refl
    · rename_i hc
      split at h
      · rename_i g₁ next hround
        exact .head ⟨fun hnil => hc (List.isEmpty_iff.mpr hnil), next, hround, horder next⟩ (ih h)
      · cases h

/-- A graph with ranks below the number of its columns needs one round more than it has columns. -/
theorem ends_of_ranked (h : Initialised g) (hr : g.Ranked r)
    (hlt : ∀ v ∈ g.vertices, r v < g.vertices.length) (starts : List String) :
    Ends r (g.vertices.length + 1) (starts, g) :=
  ⟨h, hr, fun v _ => ⟨Nat.succ_pos _, fun hv => Nat.succ_lt_succ (hlt v hv)⟩⟩

theorem mergeColumns_inlining (order : List String → List String) (h : Planned g)
    (starts : List String) :
    Inlining rebuild g (mergeColumns rebuild.always order g starts).1 :=
  mergeColumns_keeps rebuild.always (Inlining rebuild g)
    (fun _ v hg' => hg'.trans (mergeNode_inlining rebuild (hg'.planned h) v)) order
    Relation.ReflTransGen.refl starts

/-- Merging columns does not fail where no column depends on itself. -/
theorem mergeColumns_ok (horder : ∀ vs v, v ∈ order vs ↔ v ∈ vs) (h : Planned g)
    (hlayered : g.generations.2 = []) (starts : List String) :
    ∃ g', mergeColumns rebuild.always order g starts = (g', .ok ()) := by
  have hends := ends_of_ranked h.initialised (Digraph.level_ranked h.wellFormed hlayered)
    (fun v hv => Digraph.level_lt h.wellFormed hlayered hv) starts
  rw [Digraph.length_vertices] at hends
  exact mergeFrom_ok rebuild horder _ (Nat.lt_succ_self _) hends

/-! ## Merging what is minus a leaf -/

section Kept
variable (P : Graph → Prop) (hinline : ∀ g v, P g → P (inline build g v).1)
include hinline

theorem inlineUnshared_keeps (h : P g) (p : String) : P (inlineUnshared build g p).1 := by
  unfold inlineUnshared
  split
  · exact h
  · exact hinline g p h

theorem mergeNegatedAt_keeps (h : P g) (v : String) : P (mergeNegatedAt build g v).1 := by
  unfold mergeNegatedAt
  split
  · exact h
  · split
    · exact forEach_keeps P (fun _ p hg => inlineUnshared_keeps build P hinline hg p) h _
    · exact h

/-- What inlining keeps, the second pass keeps. -/
theorem mergeNegated_keeps (h : P g) (starts : List String) : P (mergeNegated build g starts).1 :=
  forEach_keeps P (fun _ v hg => mergeNegatedAt_keeps build P hinline hg v) h starts

end Kept

theorem inlineUnshared_ok (h : Initialised g) {p : String} (hp : p ∈ g.vertices) :
    ∃ g', inlineUnshared rebuild.always g p = (g', .ok ()) ∧ Initialised g' ∧
      ∀ w ∈ g.vertices, w ≠ p → w ∈ g'.vertices := by
  unfold inlineUnshared
  split
  · exact ⟨g, rfl, h, fun w hw _ => hw⟩
  · exact inline_ok rebuild h hp

theorem mergeNegatedAt_inlining (h : Planned g) (v : String) :
    Inlining rebuild g (mergeNegatedAt rebuild.always g v).1 :=
  mergeNegatedAt_keeps rebuild.always _ (inlining_step rebuild h) Relation.ReflTransGen.refl v

theorem mergeNegatedAt_ok (h : Planned g) {v : String} (hv : v ∈ g.vertices) :
    ∃ g', mergeNegatedAt rebuild.always g v = (g', .ok ()) := by
  obtain ⟨e, he⟩ := h.content hv
  unfold mergeNegatedAt
  rw [he]
  dsimp only
  split
  · exact forEach_initialised_ok (fun g p hg hp => inlineUnshared_ok rebuild hg hp) h.initialised
      (h.wellFormed.nodup_pred v)
      (fun u hu => h.wellFormed.fst_mem (u, v) ((Digraph.mem_pred g u v).mp hu))
  · exact ⟨g, rfl⟩

theorem mergeNegated_inlining (h : Planned g) (starts : List String) :
    Inlining rebuild g (mergeNegated rebuild.always g starts).1 :=
  mergeNegated_keeps rebuild.always _ (inlining_step rebuild h) Relation.ReflTransGen.refl starts

/-- Listed columns that nothing uses are not inlined into one another, and all are found. -/
theorem mergeNegated_ok (h : Planned g) {starts : List String}
    (hstarts : ∀ v ∈ starts, v ∈ g.vertices ∧ g.succ v = []) :
    ∃ g', mergeNegated rebuild.always g starts = (g', .ok ()) := by
  unfold mergeNegated
  induction starts generalizing g with
  | nil => exact ⟨g, rfl⟩
  | cons v vs ih =>
    obtain ⟨g₁, hg₁⟩ := mergeNegatedAt_ok rebuild h (hstarts v (by simp)).1
    have hrun := mergeNegatedAt_inlining rebuild h v
    rw [hg₁] at hrun
    unfold forEach
    rw [hg₁]
    refine ih (hrun.planned h) fun w hw => ?_
    obtain ⟨hwg, hws⟩ := hstarts w (by simp [hw])
    exact hrun.sink hwg hws

/-! ## The middle of a plan -/

/-- The middle keeps a part of the graph, inlines columns of it and finds groups. -/
theorem middle_spec (s : Setting) (order : List String → List String) (h : Planned g)
    (names : List String) :
    ∃ g₁, Inlining rebuild (g.keepOnly order names) g₁ ∧
      SameContent g₁ (middle s rebuild.always order g names).1 ∧
      ((middle s rebuild.always order g names).2 = .ok () →
        middle s rebuild.always order g names = classifyAll s g₁) := by
  have hk := h.keeps (Digraph.keepOnly_keeps order names h.wellFormed)
  have hm := mergeColumns_inlining rebuild order hk names
  unfold middle
  dsimp only
  split
  · rename_i hc
    rw [hc] at hm
    exact ⟨_, hm, SameContent.refl _, fun hok => by cases hok⟩
  · rename_i g₁ hc
    rw [hc] at hm
    have hn := hm.trans (mergeNegated_inlining rebuild (hm.planned hk) names)
    split
    · rename_i hc
      rw [hc] at hn
      exact ⟨_, hn, SameContent.refl _, fun hok => by cases hok⟩
    · rename_i g₂ hc
      rw [hc] at hn
      exact ⟨g₂, hn, classifyAll_sameContent s g₂, fun _ => rfl⟩

/-- Where the listed columns are used by nothing, the middle fails at most in finding groups. -/
theorem middle_ok (s : Setting) (horder : ∀ vs v, v ∈ order vs ↔ v ∈ vs) (h : Planned g)
    (hr : g.Ranked r) {names : List String}
    (hnames : ∀ v ∈ names, v ∈ g.vertices ∧ g.succ v = []) :
    ∃ g₁, Inlining rebuild (g.keepOnly order names) g₁ ∧
      middle s rebuild.always order g names = classifyAll s g₁ := by
  have hkeeps := Digraph.keepOnly_keeps order names h.wellFormed
  have hk := h.keeps hkeeps
  have hsinks : ∀ v ∈ names, v ∈ (g.keepOnly order names).vertices ∧
      (g.keepOnly order names).succ v = [] := fun v hv =>
    have hmem := Digraph.mem_keepOnly_of_sink horder names h.wellFormed (hnames v hv).1
      (hnames v hv).2 hv
    ⟨hmem, (Digraph.succ_eq_nil_iff _ v).mpr fun b hb =>
      (Digraph.succ_eq_nil_iff g v).mp (hnames v hv).2 b ((hkeeps.edges (v, b)).mp hb).1⟩
  obtain ⟨g₁, hg₁⟩ := mergeColumns_ok rebuild horder hk
    (Digraph.generations_rest_eq_nil hk.wellFormed (hkeeps.ranked hr)) names
  have hm := mergeColumns_inlining rebuild order hk names
  rw [hg₁] at hm
  obtain ⟨g₂, hg₂⟩ := mergeNegated_ok rebuild (hm.planned hk)
    (fun v hv => hm.sink (hsinks v hv).1 (hsinks v hv).2)
  have hn := hm.trans (mergeNegated_inlining rebuild (hm.planned hk) names)
  rw [hg₂] at hn
  refine ⟨g₂, hn, ?_⟩
  unfold middle
  dsimp only
  rw [hg₁]
  dsimp only
  rw [hg₂]

end Graph

end Plan

end FactorPlan
