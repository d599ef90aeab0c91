import FactorPlan.Proofs.Completion

/-!
Merging as contraction. Inlining a column is bridging it in the dependency graph, so merging
contracts the graph: what is left depends on what it did, the sources stay, and no cycles come
about (`SameDependencies`).

The rounds of the first pass look at the columns from which the merged ones are computed, and
each round may take them in an order of its own. They end nevertheless (`rounds_left`), because
edges that are added when a column is inlined lead up in rank as those did that they replace.
`merging_contracts` puts the two together.
-/

namespace FactorPlan

namespace Plan

namespace Graph

variable (build : Build) {g : Graph} {r : String → Nat}

/-- What is left of an acyclic graph depends as it did: `g'` has no cycles, it has the sources of
`g`, and one of its vertices leads to another where it did in `g`. -/
def SameDependencies (g g' : Graph) : Prop :=
  g'.Acyclic ∧ (∀ v, v ∈ g'.sources ↔ v ∈ g.sources) ∧
    ∀ u ∈ g'.vertices, ∀ v ∈ g'.vertices, (g'.Reaches u v ↔ g.Reaches u v)

theorem sameDependencies_of_contracts {g' : Graph} (h : Digraph.Contracts g g')
    (hacyclic : g.Acyclic) : SameDependencies g g' :=
  ⟨h.acyclic hacyclic, h.mem_sources_iff hacyclic, h.reaches_iff⟩

/-! ## Rounds in any order -/

theorem MergesRound.contracts {s t : List String × Graph} (h : MergesRound build s t)
    (hg : Digraph.Contracts g s.2) : Digraph.Contracts g t.2 := by
  obtain ⟨_, next, hround, _⟩ := h
  have hkept := mergeRound_keeps build (Digraph.Contracts g)
    (fun _ v hg' => mergeNode_keeps build _ (contracts_step build) hg' v) hg s.1
  rw [hround] at hkept
  exact hkept

/-- A round in which no node is refused is one of the completed building. -/
theorem MergesRound.complete {s t : List String × Graph} (h : MergesRound build s t) :
    MergesRound build.complete.always s t := by
  obtain ⟨hne, next, hround, hall⟩ := h
  rcases mergeRound_complete build s.2 s.1 with hsame | hstop
  · exact ⟨hne, next, hsame ▸ hround, hall⟩
  · rw [hround] at hstop
    exact absurd hstop (not_refused_ok build)

/-- After `n` rounds, each in its own order, there are `n` rounds less to come. -/
theorem rounds_left {m : Nat} {run : Nat → List String × Graph} (h : Ends r m (run 0)) (n : Nat)
    (hrun : ∀ i < n, MergesRound build (run i) (run (i + 1))) : n ≤ m ∧ Ends r (m - n) (run n) := by
  induction n with
  | zero => exact ⟨Nat.zero_le m, h⟩
  | succ n ih =>
    obtain ⟨hn, hends⟩ := ih fun i hi => hrun i (Nat.lt_succ_of_lt hi)
    have hlast := hrun n (Nat.lt_succ_self n)
    cases hm : m - n with
    | zero =>
      -- no round is left, but a round needs a column at hand
      rw [hm] at hends
      exact absurd hends.eq_nil hlast.1
    | succ k =>
      rw [hm] at hends
      have hk : m - (n + 1) = k := by omega
      exact ⟨by omega, hk ▸ hends.step build.complete (hlast.complete build)⟩

theorem rounds_contract {run : Nat → List String × Graph} (h : Digraph.Contracts g (run 0).2) (n : Nat)
    (hrun : ∀ i < n, MergesRound build (run i) (run (i + 1))) : Digraph.Contracts g (run n).2 := by
  induction n with
  | zero => exact h
  | succ n ih =>
    exact (hrun n (Nat.lt_succ_self n)).contracts build (ih fun i hi => hrun i (Nat.lt_succ_of_lt hi))

/-! ## Both passes -/

/-- **Merging ends and keeps all dependencies.** In an acyclic graph about whose columns everything
is known, from any listed columns:
  1. whichever order each round takes, there are at most as many rounds as columns and one more,
     no round fails but where a node cannot be built again, and at any time, and after the second
     pass from there, what is left depends on what it did;
  2. so the first pass ends, for any order, where its rounds end or where a node cannot be built
     again;
  3. inlining or bridging a column, in any graph, keeps all paths between the others. -/
theorem merging_contracts (h : Initialised g) (hacyclic : g.Acyclic) (starts : List String) :
    (∀ (n : Nat) (run : Nat → List String × Graph), run 0 = (starts, g) →
      (∀ i < n, MergesRound build (run i) (run (i + 1))) →
        n ≤ g.vertices.length + 1 ∧
        ((run n).1 ≠ [] → (∃ t, MergesRound build (run n) t) ∨
          Refused build ((mergeRound build (run n).2 (run n).1).1,
            (mergeRound build (run n).2 (run n).1).2.2)) ∧
        SameDependencies g (run n).2 ∧
        ∀ names, SameDependencies g (mergeNegated build (run n).2 names).1) ∧
    (∀ order : List String → List String, (∀ vs v, v ∈ order vs ↔ v ∈ vs) →
      ∃ g₁ r, mergeColumns build order g starts = (g₁, r) ∧
        (r = .ok () ∧ Relation.ReflTransGen (MergesRound build) (starts, g) ([], g₁) ∨
          Refused build (g₁, r)) ∧
        SameDependencies g g₁ ∧ ∀ names, SameDependencies g (mergeNegated build g₁ names).1) ∧
    (∀ (d : Graph) (v : String), d.WellFormed →
      ∀ u ∈ (inline build d v).1.vertices, ∀ w ∈ (inline build d v).1.vertices,
        ((inline build d v).1.Reaches u w ↔ d.Reaches u w)) ∧
    ∀ (V α : Type) [DecidableEq V] [Inhabited α] (d d' : Digraph V α) (v : V), d.WellFormed →
      d.skip v = .ok d' → ∀ u ∈ d'.vertices, ∀ w ∈ d'.vertices, (d'.Reaches u w ↔ d.Reaches u w) := by
  have hends := ends_of_ranked h (hacyclic.ranked_height h.wellFormed)
    (fun v hv => hacyclic.height_lt hv) starts
  have hsecond {g' : Graph} (hg' : Digraph.Contracts g g') (names : List String) :
      SameDependencies g (mergeNegated build g' names).1 :=
    sameDependencies_of_contracts
      (mergeNegated_keeps build _ (contracts_step build) hg' names) hacyclic
  refine ⟨fun n run hstart hrun => ?_, fun order horder => ?_, fun d v hd => ?_, ?_⟩
  · rw [← hstart] at hends
    obtain ⟨hn, hleft⟩ := rounds_left build hends n hrun
    have hc : Digraph.Contracts g (run n).2 :=
      rounds_contract build (by rw [hstart]; exact .refl h.wellFormed) n hrun
    refine ⟨hn, fun hne => ?_, sameDependencies_of_contracts hc hacyclic, hsecond hc⟩
    cases hm : g.vertices.length + 1 - n with
    | zero =>
      rw [hm] at hleft
      exact absurd hleft.eq_nil hne
    | succ k =>
      rw [hm] at hleft
      obtain ⟨g', next, hround, _⟩ := hleft.mergeRound build.complete
      refine (mergeRound_complete build (run n).2 (run n).1).imp_left fun hsame => ?_
      exact ⟨(next, g'), hne, next, hsame.trans hround, fun _ => Iff.rfl⟩
  · have hc : Digraph.Contracts g (mergeColumns build order g starts).1 :=
      mergeColumns_keeps build (Digraph.Contracts g)
        (fun _ v hg' => mergeNode_keeps build _ (contracts_step build) hg' v) order
        (.refl h.wellFormed) starts
    refine ⟨(mergeColumns build order g starts).1, (mergeColumns build order g starts).2, rfl, ?_,
      sameDependencies_of_contracts hc hacyclic, hsecond hc⟩
    refine (mergeColumns_complete build order g starts).imp_left fun hsame => ?_
    obtain ⟨g₁, hg₁⟩ := mergeFrom_ok build.complete horder _ (Nat.lt_succ_self _) hends
    rw [Digraph.length_vertices] at hg₁
    have hrun : mergeColumns build order g starts = (g₁, .ok ()) := hsame.trans hg₁
    rw [hrun]
    exact ⟨rfl, rounds_of_mergeFrom build horder hrun⟩
  · exact (inline_contracts build hd v).reaches_iff
  · intro V α _ _ d d' v hd hskip
    exact (Digraph.skip_contracts hd hskip).reaches_iff

/-- Minus a sum over the mean of a sum of two columns. -/
def negatedMean : List (Slot × Formula.Value) :=
  [(.column "a", .expr (.sum [.symbol "OPEN", .symbol "CLOSE"])),
    (.column "m", .expr (.apply (.named "ts_mean") [.symbol "a"])),
    (.column "n", .expr (.apply (.named "ts_sum") [.symbol "m"])),
    (.column "v", .expr (.product [.negOne, .symbol "n"]))]

/-- The mean goes into the sum over it, then the sum of columns does, and at last that sum goes into
what is minus it, which depends on the two given columns as before. -/
theorem merging_contracts_negatedMean : ∃ g g₁, start {} negatedMean = .ok g ∧ Initialised g ∧
    g.Acyclic ∧ mergeColumns .unevaluated List.reverse g ["v"] = (g₁, .ok ()) ∧
    g₁.vertices = ["OPEN", "CLOSE", "n", "v"] ∧ SameDependencies g g₁ ∧
    (mergeNegated .unevaluated g₁ ["v"]).1.vertices = ["OPEN", "CLOSE", "v"] ∧
    SameDependencies g (mergeNegated .unevaluated g₁ ["v"]).1 ∧ g.Reaches "OPEN" "v" := by
  let g : Graph := (start {} negatedMean).toOption.getD {}
  have hg : start {} negatedMean = .ok g := rfl
  have hs := start_started hg
  have hacyclic : g.Acyclic := Digraph.acyclic_of_ranked (Digraph.level_ranked hs.wellFormed hs.layered)
  obtain ⟨_, hfirst, _, _⟩ := merging_contracts .unevaluated hs.planned.initialised hacyclic ["v"]
  obtain ⟨g₁, r, hg₁, _, hsame, hsecond⟩ := hfirst List.reverse fun _ _ => List.mem_reverse
  have heq : g₁ = (mergeColumns .unevaluated List.reverse g ["v"]).1 := (congrArg Prod.fst hg₁).symm
  have hok : (mergeColumns .unevaluated List.reverse g ["v"]).2 = .ok () := by decide +kernel
  rw [hg₁] at hok
  rw [show r = .ok () from hok] at hg₁
  have hlast := hsecond ["v"]
  have hleft : (mergeNegated .unevaluated g₁ ["v"]).1.vertices = ["OPEN", "CLOSE", "v"] := by
    rw [heq]
    decide +kernel
  refine ⟨g, g₁, hg, hs.planned.initialised, hacyclic, hg₁, ?_, hsame, hleft, hlast, ?_⟩
  · rw [heq]
    decide +kernel
  · refine (hlast.2.2 "OPEN" (by simp [hleft]) "v" (by simp [hleft])).mp (.single ?_)
    rw [heq]
    decide +kernel

end Graph

end Plan

end FactorPlan
