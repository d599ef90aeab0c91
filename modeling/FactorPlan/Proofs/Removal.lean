import FactorPlan.Proofs.Digraph

/-!
Removing paths that lead nowhere. Only sinks are removed, so what is left is a part
of the graph that holds, with each vertex, all of its predecessors: `Keeps g g'`.

What is proved, for any order in which vertices are visited that loses none:
  1. `keepOnly_keeps`: the result is such a part of the graph.
  2. `mem_keepOnly_of_sink`: a listed sink is in it.
  3. `sink_of_keepOnly`: it has no other sinks, so that from each of its vertices a
     listed sink is reached. A listed vertex that is no sink is not protected
     (`not_mem_keepOnly`).
-/

namespace FactorPlan

namespace Digraph

variable {V α : Type} [DecidableEq V]

/-- `g'` is a part of `g` that holds all predecessors of its vertices. -/
structure Keeps (g g' : Digraph V α) : Prop where
  wellFormed : g'.WellFormed
  vertices : ∀ v ∈ g'.vertices, v ∈ g.vertices
  attributes : ∀ v ∈ g'.vertices, g'.get? v = g.get? v
  edges : ∀ e, e ∈ g'.edges ↔ e ∈ g.edges ∧ e.2 ∈ g'.vertices

namespace Keeps

theorem refl {g : Digraph V α} (h : g.WellFormed) : Keeps g g :=
  ⟨h, fun _ hv => hv, fun _ _ => rfl, fun e => ⟨fun he => ⟨he, h.snd_mem e he⟩, fun he => he.1⟩⟩

theorem trans {a b c : Digraph V α} (h₁ : Keeps a b) (h₂ : Keeps b c) : Keeps a c := by
  refine ⟨h₂.wellFormed, fun v hv => h₁.vertices v (h₂.vertices v hv), ?_, ?_⟩
  · intro v hv
    rw [h₂.attributes v hv, h₁.attributes v (h₂.vertices v hv)]
  · intro e
    rw [h₂.edges, h₁.edges]
    exact ⟨fun h => ⟨h.1.1, h.2⟩, fun h => ⟨⟨h.1, h₂.vertices _ h.2⟩, h.2⟩⟩

theorem removeNode {g : Digraph V α} (h : g.WellFormed) {v : V} (hv : g.succ v = []) :
    Keeps g (g.removeNode v) := by
  refine ⟨h.removeNode v, fun w hw => ((mem_vertices_removeNode g v w).mp hw).1, ?_, ?_⟩
  · intro w hw
    rw [get?_removeNode, if_neg ((mem_vertices_removeNode g v w).mp hw).2]
  · intro e
    rw [mem_edges_removeNode, mem_vertices_removeNode]
    have h1 : e ∈ g.edges → e.1 ≠ v := by
      rintro he rfl
      exact (succ_eq_nil_iff g e.1).mp hv e.2 he
    exact ⟨fun he => ⟨he.1, h.snd_mem e he.1, he.2.2⟩, fun he => ⟨he.1, h1 he.1, he.2.2⟩⟩

theorem mem_pred {g g' : Digraph V α} (h : Keeps g g') {u v : V} (hv : v ∈ g'.vertices) :
    u ∈ g'.pred v ↔ u ∈ g.pred v := by
  rw [Digraph.mem_pred, Digraph.mem_pred, h.edges]
  exact ⟨fun he => he.1, fun he => ⟨he, hv⟩⟩

theorem pred_ne_nil {g g' : Digraph V α} (h : Keeps g g') {v : V} (hv : v ∈ g'.vertices) :
    g'.pred v ≠ [] ↔ g.pred v ≠ [] := by
  rw [not_iff_not, List.eq_nil_iff_forall_not_mem, List.eq_nil_iff_forall_not_mem]
  exact forall_congr' fun u => not_congr (h.mem_pred hv)

theorem ranked {g g' : Digraph V α} (h : Keeps g g') {r : V → Nat} (hr : g.Ranked r) : g'.Ranked r :=
  fun e he => hr e ((h.edges e).mp he).1

end Keeps

/-! ## One sink, one round, all rounds -/

theorem removeSink_cases (acc : Digraph V α × List V) (v : V) :
    (v ∈ acc.1.vertices ∧ acc.1.succ v = [] ∧
      removeSink acc v = (acc.1.removeNode v, acc.2 ++ acc.1.pred v)) ∨
    ((v ∉ acc.1.vertices ∨ acc.1.succ v ≠ []) ∧ removeSink acc v = acc) := by
  unfold removeSink
  by_cases hv : v ∈ acc.1.vertices
  · have hc := (acc.1.contains_eq_true_iff v).mpr hv
    by_cases hs : acc.1.succ v = []
    · exact Or.inl ⟨hv, hs, by simp [hc, hs]⟩
    · exact Or.inr ⟨Or.inr hs, by simp [hs]⟩
  · have hc : acc.1.contains v = false := by
      rw [Bool.eq_false_iff]
      exact fun h => hv ((acc.1.contains_eq_true_iff v).mp h)
    exact Or.inr ⟨Or.inl hv, by simp [hc]⟩

theorem removeSinks_keeps (vs : List V) (acc : Digraph V α × List V) (hg : acc.1.WellFormed) :
    Keeps acc.1 (vs.foldl removeSink acc).1 := by
  induction vs generalizing acc with
  | nil => exact Keeps.refl hg
  | cons v vs ih =>
    rw [List.foldl_cons]
    rcases removeSink_cases acc v with ⟨_, hs, he⟩ | ⟨_, he⟩
    · rw [he]
      exact (Keeps.removeNode hg hs).trans
        (ih (acc.1.removeNode v, acc.2 ++ acc.1.pred v) (hg.removeNode v))
    · rw [he]; exact ih acc hg

/-- What is looked at next was there and had a successor. -/
theorem mem_removeSinks_next (vs : List V) (acc : Digraph V α × List V) (hg : acc.1.WellFormed)
    {u : V} (hu : u ∈ (vs.foldl removeSink acc).2) : u ∈ acc.2 ∨ acc.1.succ u ≠ [] := by
  induction vs generalizing acc with
  | nil => exact Or.inl hu
  | cons v vs ih =>
    rw [List.foldl_cons] at hu
    rcases removeSink_cases acc v with ⟨_, hs, he⟩ | ⟨_, he⟩
    · rw [he] at hu
      rcases ih _ (hg.removeNode v) hu with hu | hu
      · rcases List.mem_append.mp hu with hu | hu
        · exact Or.inl hu
        · exact Or.inr (succ_ne_nil_of_mem ((acc.1.mem_pred u v).mp hu))
      · obtain ⟨w, hw⟩ := List.exists_mem_of_ne_nil _ hu
        have hw := (mem_succ _ u w).mp hw
        exact Or.inr (succ_ne_nil_of_mem ((mem_edges_removeNode _ _ _).mp hw).1)
    · rw [he] at hu; exact ih acc hg hu

/-- What is looked at next is not forgotten. -/
theorem mem_removeSinks_of_mem (vs : List V) (acc : Digraph V α × List V) {u : V}
    (hu : u ∈ acc.2) : u ∈ (vs.foldl removeSink acc).2 := by
  induction vs generalizing acc with
  | nil => exact hu
  | cons v vs ih =>
    rw [List.foldl_cons]
    refine ih _ ?_
    rcases removeSink_cases acc v with ⟨_, _, he⟩ | ⟨_, he⟩
    · rw [he]; exact List.mem_append_left _ hu
    · rw [he]; exact hu

/-- A vertex that is not visited stays. -/
theorem mem_removeSinks_of_not_mem (vs : List V) (acc : Digraph V α × List V) {u : V}
    (hu : u ∈ acc.1.vertices) (hn : u ∉ vs) : u ∈ (vs.foldl removeSink acc).1.vertices := by
  induction vs generalizing acc with
  | nil => exact hu
  | cons v vs ih =>
    rw [List.mem_cons, not_or] at hn
    rw [List.foldl_cons]
    refine ih _ ?_ hn.2
    rcases removeSink_cases acc v with ⟨_, _, he⟩ | ⟨_, he⟩
    · rw [he]; exact (mem_vertices_removeNode _ _ _).mpr ⟨hu, hn.1⟩
    · rw [he]; exact hu

/-- After a round a sink was one before and was not visited, or it is looked at next. -/
theorem sink_of_removeSinks (vs : List V) (acc : Digraph V α × List V) (hg : acc.1.WellFormed)
    {u : V} (hu : u ∈ (vs.foldl removeSink acc).1.vertices)
    (hs : (vs.foldl removeSink acc).1.succ u = []) :
    (acc.1.succ u = [] ∧ u ∉ vs) ∨ u ∈ (vs.foldl removeSink acc).2 := by
  induction vs generalizing acc with
  | nil => exact Or.inl ⟨hs, by simp⟩
  | cons v vs ih =>
    rw [List.foldl_cons] at hu hs ⊢
    rcases removeSink_cases acc v with ⟨_, _, he⟩ | ⟨hn, he⟩
    · rw [he] at hu hs ⊢
      rcases ih _ (hg.removeNode v) hu hs with ⟨hsu, hm⟩ | hm
      · have huv : u ≠ v := by
          have hk := (removeSinks_keeps vs _ (hg.removeNode v)).vertices u hu
          exact ((mem_vertices_removeNode _ _ _).mp hk).2
        by_cases hold : acc.1.succ u = []
        · exact Or.inl ⟨hold, by simp [huv, hm]⟩
        · -- the last successor was the one removed, so `u` is among its predecessors
          obtain ⟨w, hw⟩ := List.exists_mem_of_ne_nil _ hold
          have hw := (mem_succ _ u w).mp hw
          have hwv : w = v := by
            by_contra hwv
            exact (succ_eq_nil_iff _ u).mp hsu w ((mem_edges_removeNode _ _ _).mpr ⟨hw, huv, hwv⟩)
          subst hwv
          exact Or.inr (mem_removeSinks_of_mem vs _ (List.mem_append_right _ ((mem_pred _ u w).mpr hw)))
      · exact Or.inr hm
    · rw [he] at hu hs ⊢
      rcases ih acc hg hu hs with ⟨hsu, hm⟩ | hm
      · have huv : u ≠ v := by
          rintro rfl
          rcases hn with hn | hn
          · exact hn ((removeSinks_keeps vs acc hg).vertices u hu)
          · exact hn hsu
        exact Or.inl ⟨hsu, by simp [huv, hm]⟩
      · exact Or.inr hm

/-- A round that leaves something to look at next has removed a vertex. -/
theorem length_removeSinks (vs : List V) (acc : Digraph V α × List V) (hg : acc.1.WellFormed) :
    (vs.foldl removeSink acc).1.vertices.length ≤ acc.1.vertices.length ∧
    ((vs.foldl removeSink acc).2 = acc.2 ∨
      (vs.foldl removeSink acc).1.vertices.length < acc.1.vertices.length) := by
  induction vs generalizing acc with
  | nil => exact ⟨Nat.le_refl _, Or.inl rfl⟩
  | cons v vs ih =>
    rw [List.foldl_cons]
    rcases removeSink_cases acc v with ⟨hv, _, he⟩ | ⟨_, he⟩
    · rw [he]
      have hlt : (acc.1.removeNode v).vertices.length < acc.1.vertices.length := by
        rw [vertices_removeNode]
        exact List.length_filter_lt_length_iff_exists.mpr ⟨v, hv, by simp⟩
      have := (ih (acc.1.removeNode v, acc.2 ++ acc.1.pred v) (hg.removeNode v)).1
      exact ⟨by simp only at this; omega, Or.inr (by simp only at this; omega)⟩
    · rw [he]; exact ih acc hg

section Rounds
variable {order : List V → List V} (horder : ∀ vs v, v ∈ order vs ↔ v ∈ vs)

theorem removePathsF_keeps (order : List V → List V) (fuel : Nat) (current : List V)
    {g : Digraph V α} (hg : g.WellFormed) : Keeps g (removePathsF order fuel current g) := by
  induction fuel generalizing current g with
  | zero => exact Keeps.refl hg
  | succ fuel ih =>
    by_cases hc : current = []
    · simpa [removePathsF, hc] using Keeps.refl hg
    · have he : current.isEmpty = false := by simpa using hc
      simp only [removePathsF, he, Bool.false_eq_true, if_false]
      have hk := removeSinks_keeps current (g, []) hg
      exact hk.trans (ih _ hk.wellFormed)

include horder

/-- A round removes a vertex or is the last. -/
theorem removeRound_shrinks {fuel : Nat} (current : List V) {g : Digraph V α} (hg : g.WellFormed)
    (hf : g.vertices.length < fuel + 1) :
    (current.foldl removeSink (g, [])).1.vertices.length < fuel ∨
      order (current.foldl removeSink (g, [])).2 = [] := by
  rcases (length_removeSinks current (g, []) hg).2 with hnil | hlt
  · refine Or.inr (List.eq_nil_iff_forall_not_mem.mpr fun v hv => ?_)
    rw [horder, hnil] at hv
    cases hv
  · exact Or.inl (by simp only at hlt; omega)

/-- With more rounds than vertices, every sink that is left was one before and was not
listed. -/
theorem sink_of_removePathsF (fuel : Nat) (current : List V) {g : Digraph V α} (hg : g.WellFormed)
    (hf : g.vertices.length < fuel ∨ current = []) {u : V}
    (hu : u ∈ (removePathsF order fuel current g).vertices)
    (hs : (removePathsF order fuel current g).succ u = []) : g.succ u = [] ∧ u ∉ current := by
  induction fuel generalizing current g with
  | zero =>
    have hc : current = [] := hf.resolve_left (by omega)
    subst hc
    exact ⟨hs, by simp⟩
  | succ fuel ih =>
    by_cases hc : current = []
    · subst hc
      exact ⟨by simpa [removePathsF] using hs, by simp⟩
    · have he : current.isEmpty = false := by simpa using hc
      simp only [removePathsF, he, Bool.false_eq_true, if_false] at hu hs
      have hk := removeSinks_keeps current (g, []) hg
      have hf' := removeRound_shrinks horder current hg (hf.resolve_right hc)
      obtain ⟨hs₁, hn⟩ := ih _ hk.wellFormed hf' hu hs
      have hu₁ := (removePathsF_keeps order fuel _ hk.wellFormed).vertices u hu
      rcases sink_of_removeSinks current (g, []) hg hu₁ hs₁ with h | h
      · exact h
      · exact absurd ((horder _ u).mpr h) hn

/-- A sink that is not listed stays. -/
theorem mem_removePathsF_of_sink (fuel : Nat) (current : List V) {g : Digraph V α}
    (hg : g.WellFormed) {u : V} (hu : u ∈ g.vertices) (hs : g.succ u = []) (hn : u ∉ current) :
    u ∈ (removePathsF order fuel current g).vertices := by
  induction fuel generalizing current g with
  | zero => exact hu
  | succ fuel ih =>
    by_cases hc : current = []
    · simpa [removePathsF, hc] using hu
    · have he : current.isEmpty = false := by simpa using hc
      simp only [removePathsF, he, Bool.false_eq_true, if_false]
      have hk := removeSinks_keeps current (g, []) hg
      refine ih _ hk.wellFormed (mem_removeSinks_of_not_mem current (g, []) hu hn) ?_ ?_
      · rw [succ_eq_nil_iff] at hs ⊢
        exact fun v hv => hs v ((hk.edges _).mp hv).1
      · rw [horder]
        intro hm
        rcases mem_removeSinks_next current (g, []) hg hm with h | h
        · cases h
        · exact h hs

/-! ## Keeping what the listed sinks need -/

omit horder in
theorem keepOnly_keeps (order : List V → List V) (names : List V) {g : Digraph V α}
    (hg : g.WellFormed) : Keeps g (g.keepOnly order names) :=
  removePathsF_keeps order _ _ hg

theorem mem_keepOnly_of_sink (names : List V) {g : Digraph V α} (hg : g.WellFormed) {u : V}
    (hu : u ∈ g.vertices) (hs : g.succ u = []) (hn : u ∈ names) :
    u ∈ (g.keepOnly order names).vertices := by
  refine mem_removePathsF_of_sink horder _ _ hg hu hs ?_
  rw [horder]
  intro hm
  simpa [hn] using (List.mem_filter.mp hm).2

theorem sink_of_keepOnly (names : List V) {g : Digraph V α} (hg : g.WellFormed) {u : V}
    (hu : u ∈ (g.keepOnly order names).vertices) (hs : (g.keepOnly order names).succ u = []) :
    g.succ u = [] ∧ u ∈ names := by
  have hlen : g.vertices.length < g.nodes.length + 1 := by simp [vertices, Table.keys]
  obtain ⟨hsu, hn⟩ := sink_of_removePathsF horder _ _ hg (Or.inl hlen) hu hs
  refine ⟨hsu, ?_⟩
  by_contra hu'
  refine hn ((horder _ u).mpr (List.mem_filter.mpr ⟨(g.mem_sinks u).mpr ⟨?_, hsu⟩, by simpa using hu'⟩))
  exact (keepOnly_keeps order names hg).vertices u hu

/-- In a ranked graph every vertex leads to a sink, and only listed sinks are left; so a
vertex from which no listed sink is reached is removed, also when it is listed. -/
theorem not_mem_keepOnly {names : List V} {g : Digraph V α} (hg : g.WellFormed) {r : V → Nat}
    (hr : g.Ranked r) {b : Nat} (hb : ∀ v ∈ g.vertices, r v < b)
    (hnames : ∀ v ∈ names, g.succ v ≠ []) (u : V) : u ∉ (g.keepOnly order names).vertices := by
  -- by induction on how far the rank of `u` is below the bound
  have hno : ∀ n u, u ∈ (g.keepOnly order names).vertices → b ≤ r u + n → False := by
    intro n
    induction n with
    | zero =>
      intro u hu hle
      have := hb u ((keepOnly_keeps order names hg).vertices u hu)
      omega
    | succ n ih =>
      intro u hu hle
      by_cases hs : (g.keepOnly order names).succ u = []
      · obtain ⟨hsu, hm⟩ := sink_of_keepOnly horder names hg hu hs
        exact hnames u hm hsu
      · obtain ⟨w, hw⟩ := List.exists_mem_of_ne_nil _ hs
        have hk := keepOnly_keeps order names hg
        have he := (mem_succ _ u w).mp hw
        have hlt := hr _ ((hk.edges _).mp he).1
        exact ih w (hk.wellFormed.snd_mem _ he) (by simp only at hlt; omega)
  exact fun hu => hno b u hu (by omega)

end Rounds

end Digraph

end FactorPlan
