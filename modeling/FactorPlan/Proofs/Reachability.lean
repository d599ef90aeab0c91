import FactorPlan.Proofs.Removal
import Mathlib.Data.Fintype.Order
import Mathlib.Logic.Relation

/-!
Reachability and dangling paths. `Reaches g u v` says that edges lead from `u` to `v`, and
`Acyclic g` that no edges lead from a vertex back to it.

Removing the paths to some vertices takes away sinks only, so it keeps whatever leads to a
sink that stays (`Keeps.mem_of_reaches`). In an acyclic graph every vertex leads to a sink
(`Acyclic.exists_sink`), and no sink is left that is a listed one or that was none before. So
what stays is what leads to a sink that is not listed, in whatever order the vertices are
visited (`removePaths_exact`). The rounds end by themselves (`rounds_end`): a round that leaves
something to look at has removed a vertex.
-/

namespace FactorPlan

namespace Digraph

variable {V α : Type} [DecidableEq V]

/-- Edges lead from one vertex to another; a vertex reaches itself. -/
def Reaches (g : Digraph V α) : V → V → Prop := Relation.ReflTransGen (fun u v => (u, v) ∈ g.edges)

/-- No vertex is reached from itself along edges. -/
def Acyclic (g : Digraph V α) : Prop := ∀ v, ¬ Relation.TransGen (fun u v => (u, v) ∈ g.edges) v v

section Reach
variable {g g' : Digraph V α} {u v : V}

omit [DecidableEq V] in
theorem acyclic_of_ranked {r : V → Nat} (hr : g.Ranked r) : g.Acyclic := by
  have hgrows : ∀ {u v}, Relation.TransGen (fun u v => (u, v) ∈ g.edges) u v → r u < r v := by
    intro u v h
    induction h with
    | single he => exact hr _ he
    | tail _ he ih => exact Nat.lt_trans ih (hr _ he)
  exact fun v h => Nat.lt_irrefl _ (hgrows h)

omit [DecidableEq V] in
theorem Reaches.mem_vertices (h : g.Reaches u v) (hg : g.WellFormed) (hu : u ∈ g.vertices) :
    v ∈ g.vertices := by
  induction h with
  | refl => exact hu
  | tail _ he _ => exact hg.snd_mem _ he

omit [DecidableEq V] in
theorem Reaches.mono (hsub : ∀ e ∈ g'.edges, e ∈ g.edges) (h : g'.Reaches u v) : g.Reaches u v :=
  Relation.ReflTransGen.mono (fun _ _ he => hsub _ he) u v h

/-- In an acyclic graph every vertex leads to a sink. -/
theorem Acyclic.exists_sink (h : g.Acyclic) (hg : g.WellFormed) (hv : v ∈ g.vertices) :
    ∃ s ∈ g.vertices, g.Reaches v s ∧ g.succ s = [] := by
  -- there are finitely many vertices, so that going on along edges ends
  let after (a b : { v // v ∈ g.vertices }) : Prop :=
    Relation.TransGen (fun u v => (u, v) ∈ g.edges) b.1 a.1
  have : IsTrans _ after := ⟨fun _ _ _ hab hbc => hbc.trans hab⟩
  have : Std.Irrefl after := ⟨fun a ha => h a.1 ha⟩
  have hwf : WellFounded after := Finite.wellFounded_of_trans_of_irrefl after
  have hall : ∀ a : { v // v ∈ g.vertices }, ∃ s ∈ g.vertices, g.Reaches a.1 s ∧ g.succ s = [] := by
    intro a
    induction a using hwf.induction with
    | _ a ih =>
      by_cases ha : g.succ a.1 = []
      · exact ⟨a.1, a.2, .refl, ha⟩
      · obtain ⟨w, hw⟩ := List.exists_mem_of_ne_nil _ ha
        have hedge := (mem_succ g a.1 w).mp hw
        obtain ⟨s, hs, hreach, hsink⟩ := ih ⟨w, hg.snd_mem _ hedge⟩ (.single hedge)
        exact ⟨s, hs, .head hedge hreach, hsink⟩
  exact hall ⟨v, hv⟩

/-- What leads to a vertex that is kept is kept. -/
theorem Keeps.mem_of_reaches (h : Keeps g g') (hreach : g.Reaches u v) (hv : v ∈ g'.vertices) :
    u ∈ g'.vertices := by
  induction hreach using Relation.ReflTransGen.head_induction_on with
  | refl => exact hv
  | head he _ ih => exact h.wellFormed.fst_mem _ ((h.edges _).mpr ⟨he, ih⟩)

theorem Keeps.reaches (h : Keeps g g') (hreach : g'.Reaches u v) : g.Reaches u v :=
  hreach.mono fun e he => ((h.edges e).mp he).1

theorem Keeps.acyclic (h : Keeps g g') (hg : g.Acyclic) : g'.Acyclic := fun v hv =>
  hg v (Relation.TransGen.mono (fun _ _ he => ((h.edges _).mp he).1) v v hv)

end Reach

/-! ## Rounds -/

/-- One round of removing sinks: the vertices to look at next, and the graph. -/
def removeRound (order : List V → List V) (s : List V × Digraph V α) : List V × Digraph V α :=
  (order (s.1.foldl removeSink (s.2, [])).2, (s.1.foldl removeSink (s.2, [])).1)

section Rounds
variable {order : List V → List V} (horder : ∀ vs v, v ∈ order vs ↔ v ∈ vs) {g : Digraph V α}
include horder

/-- With more rounds than vertices at hand, there is nothing left to look at in the end. -/
theorem rounds_end (fuel : Nat) (current : List V) (hg : g.WellFormed)
    (hf : g.vertices.length < fuel ∨ current = []) :
    ∃ n ≤ fuel, (removeRound order)^[n] (current, g) = ([], removePathsF order fuel current g) := by
  induction fuel generalizing current g with
  | zero =>
    have hc : current = [] := hf.resolve_left (by omega)
    exact ⟨0, Nat.le_refl _, by rw [hc]; rfl⟩
  | succ fuel ih =>
    by_cases hc : current = []
    · subst hc
      exact ⟨0, Nat.zero_le _, rfl⟩
    · have hk := removeSinks_keeps current (g, []) hg
      have hf' := removeRound_shrinks horder current hg (hf.resolve_right hc)
      obtain ⟨n, hn, hrun⟩ := ih _ hk.wellFormed hf'
      refine ⟨n + 1, by omega, ?_⟩
      have he : current.isEmpty = false := by simpa using hc
      simp only [removePathsF, he, Bool.false_eq_true, if_false]
      rw [Function.iterate_succ_apply]
      exact hrun

/-! ## What stays -/

/-- A vertex stays if it leads to a sink that is not listed. -/
theorem mem_removePaths_of_reaches (hg : g.WellFormed) {starts : List V} {v s : V} (hv : v ∈ g.vertices)
    (hreach : g.Reaches v s) (hsink : g.succ s = []) (hs : s ∉ starts) :
    v ∈ (removePaths order starts g).vertices :=
  (removePathsF_keeps order _ starts hg).mem_of_reaches hreach
    (mem_removePathsF_of_sink horder _ starts hg (hreach.mem_vertices hg hv) hsink hs)

/-- A vertex that stays leads to a sink that is not listed. -/
theorem exists_sink_of_mem_removePaths (hg : g.WellFormed) (hacyclic : g.Acyclic) {starts : List V} {v : V}
    (hv : v ∈ (removePaths order starts g).vertices) : ∃ s ∉ starts, g.Reaches v s ∧ g.succ s = [] := by
  have hk := removePathsF_keeps order (g.nodes.length + 1) starts hg
  have hlen : g.vertices.length < g.nodes.length + 1 := by
    rw [length_vertices]
    omega
  obtain ⟨s, hs, hreach, hsink⟩ := (hk.acyclic hacyclic).exists_sink hk.wellFormed hv
  obtain ⟨hold, hn⟩ := sink_of_removePathsF horder _ starts hg (Or.inl hlen) hs hsink
  exact ⟨s, hn, hk.reaches hreach, hold⟩

/-- **Dangling paths are removed exactly.** In an acyclic graph, for any listed vertices and any order in
which vertices are visited, the rounds end, and the vertices removed are those that lead to listed sinks
only. What stays keeps its attributes and the edges between its vertices. So keeping only what some sinks
need keeps the vertices that lead to one of them. -/
theorem removePaths_exact (hg : g.WellFormed) (hacyclic : g.Acyclic) :
    (∀ starts,
      (∃ n ≤ g.vertices.length + 1,
        (removeRound order)^[n] (starts, g) = ([], removePaths order starts g)) ∧
      (∀ v ∈ g.vertices, v ∉ (removePaths order starts g).vertices ↔
        ∀ s, g.Reaches v s → g.succ s = [] → s ∈ starts) ∧
      (∀ v ∈ (removePaths order starts g).vertices,
        v ∈ g.vertices ∧ (removePaths order starts g).get? v = g.get? v) ∧
      ∀ u v, (u, v) ∈ (removePaths order starts g).edges ↔ (u, v) ∈ g.edges ∧
        u ∈ (removePaths order starts g).vertices ∧ v ∈ (removePaths order starts g).vertices) ∧
    ∀ names, ∀ v ∈ g.vertices, v ∈ (g.keepOnly order names).vertices ↔
      ∃ s ∈ names, g.Reaches v s ∧ g.succ s = [] := by
  have hremoved : ∀ starts, ∀ v ∈ g.vertices, v ∈ (removePaths order starts g).vertices ↔
      ∃ s ∉ starts, g.Reaches v s ∧ g.succ s = [] := fun starts v hv =>
    ⟨exists_sink_of_mem_removePaths horder hg hacyclic,
      fun ⟨_, hs, hreach, hsink⟩ => mem_removePaths_of_reaches horder hg hv hreach hsink hs⟩
  refine ⟨fun starts => ⟨?_, fun v hv => ?_, fun v hv => ?_, fun u v => ?_⟩, fun names v hv => ?_⟩
  · rw [length_vertices]
    exact rounds_end horder _ starts hg (Or.inl (by rw [length_vertices]; omega))
  · rw [hremoved starts v hv]
    push Not
    exact ⟨fun h s hreach hsink => by_contra fun hs => h s hs hreach hsink,
      fun h s hs hreach hsink => hs (h s hreach hsink)⟩
  · have hk := removePathsF_keeps order (g.nodes.length + 1) starts hg
    exact ⟨hk.vertices v hv, hk.attributes v hv⟩
  · have hk := removePathsF_keeps order (g.nodes.length + 1) starts hg
    exact ⟨fun he => ⟨((hk.edges _).mp he).1, hk.wellFormed.fst_mem _ he, hk.wellFormed.snd_mem _ he⟩,
      fun he => (hk.edges _).mpr ⟨he.1, he.2.2⟩⟩
  · rw [keepOnly, hremoved _ v hv]
    constructor
    · rintro ⟨s, hs, hreach, hsink⟩
      refine ⟨s, ?_, hreach, hsink⟩
      by_contra hn
      refine hs ((horder _ s).mpr (List.mem_filter.mpr ⟨(g.mem_sinks s).mpr ⟨?_, hsink⟩, by simpa using hn⟩))
      exact hreach.mem_vertices hg hv
    · rintro ⟨s, hn, hreach, hsink⟩
      refine ⟨s, fun hs => ?_, hreach, hsink⟩
      simpa [hn] using (List.mem_filter.mp ((horder _ s).mp hs)).2

end Rounds

/-- From `a` one way leads to `d` only, the other to `d` and to `e`. -/
def forked : Digraph String Unit where
  nodes := [("a", ()), ("b", ()), ("c", ()), ("d", ()), ("e", ())]
  edges := [("a", "b"), ("a", "c"), ("b", "d"), ("c", "d"), ("c", "e")]

/-- The listed `c` is no sink and `z` no vertex: `b` goes with `d`, and `a` leads to `e` as well. -/
theorem removePaths_exact_forked :
    forked.WellFormed ∧ forked.Acyclic ∧
    (∀ s, forked.Reaches "b" s → forked.succ s = [] → s ∈ ["d", "c", "z"]) ∧
    (¬ ∀ s, forked.Reaches "a" s → forked.succ s = [] → s ∈ ["d", "c", "z"]) ∧
    ∃ s ∈ ["e"], forked.Reaches "a" s ∧ forked.succ s = [] := by
  have hg : forked.WellFormed := ⟨by decide, by decide, by decide, by decide⟩
  have hacyclic : forked.Acyclic :=
    acyclic_of_ranked (r := fun v => if v = "a" then 0 else if v = "b" ∨ v = "c" then 1 else 2)
      (by unfold Ranked; decide)
  have horder : ∀ (vs : List String) v, v ∈ vs.reverse ↔ v ∈ vs := fun _ _ => List.mem_reverse
  obtain ⟨hremoved, hkept⟩ := removePaths_exact horder hg hacyclic
  obtain ⟨-, hdangling, -, -⟩ := hremoved ["d", "c", "z"]
  exact ⟨hg, hacyclic, (hdangling "b" (by decide)).mp (by decide),
    fun h => absurd ((hdangling "a" (by decide)).mpr h) (by decide),
    (hkept ["e"] "a" (by decide)).mp (by decide)⟩

end Digraph

end FactorPlan
