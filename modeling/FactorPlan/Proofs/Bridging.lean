import FactorPlan.Proofs.Reachability
import Mathlib.Data.Finset.Card

/-!
Bridging a vertex. `Bridged g v g'` says that `v` is gone from `g'` and that its predecessors
are joined with its successors. What led from one of the other vertices to another by way of
`v` leads there still (`Bridged.reaches_iff`).

`Contracts g g'` collects what is kept where vertices are bridged one after the other: paths
between the vertices that are left, rankings and, in an acyclic graph, the sources. An acyclic
graph is ranked by the number of vertices that lead to a vertex (`Acyclic.ranked_height`).
-/

namespace FactorPlan

namespace Digraph

variable {V α : Type} [DecidableEq V] {g g₁ g' : Digraph V α} {u v w : V}

/-! ## Ranks of an acyclic graph -/

open Classical in
/-- How many vertices lead to a vertex along one edge or more. -/
noncomputable def height (g : Digraph V α) (v : V) : Nat :=
  (g.vertices.toFinset.filter (fun u => Relation.TransGen (fun u v => (u, v) ∈ g.edges) u v)).card

theorem Acyclic.ranked_height (h : g.Acyclic) (hg : g.WellFormed) : g.Ranked g.height := by
  classical
  rintro ⟨u, v⟩ huv
  refine Finset.card_lt_card ((Finset.ssubset_iff_of_subset ?_).mpr ⟨u, ?_, ?_⟩)
  · -- what leads to `u` leads to `v`
    intro w hw
    obtain ⟨hwg, hwu⟩ := Finset.mem_filter.mp hw
    exact Finset.mem_filter.mpr ⟨hwg, hwu.tail huv⟩
  · exact Finset.mem_filter.mpr ⟨List.mem_toFinset.mpr (hg.fst_mem _ huv), .single huv⟩
  · exact fun hu => h u (Finset.mem_filter.mp hu).2

theorem Acyclic.height_lt (h : g.Acyclic) (hv : v ∈ g.vertices) : g.height v < g.vertices.length := by
  classical
  refine Nat.lt_of_lt_of_le (Finset.card_lt_card ?_) (List.toFinset_card_le g.vertices)
  refine (Finset.ssubset_iff_of_subset (Finset.filter_subset _ _)).mpr ⟨v, List.mem_toFinset.mpr hv, ?_⟩
  exact fun hvv => h v (Finset.mem_filter.mp hvv).2

/-! ## One vertex -/

/-- The graph `g'` is `g` without `v`, which had predecessors, and these are joined with what came
after `v`. -/
structure Bridged (g : Digraph V α) (v : V) (g' : Digraph V α) : Prop where
  wellFormed : g'.WellFormed
  pred_ne_nil : g.pred v ≠ []
  vertices : ∀ w, w ∈ g'.vertices ↔ w ∈ g.vertices ∧ w ≠ v
  edges : ∀ a b, (a, b) ∈ g'.edges ↔
    ((a, b) ∈ g.edges ∨ ((a, v) ∈ g.edges ∧ (v, b) ∈ g.edges)) ∧ a ≠ v ∧ b ≠ v

omit [DecidableEq V] in
theorem mem_crossing {us vs : List V} {p : V × V} : p ∈ crossing us vs ↔ p.1 ∈ us ∧ p.2 ∈ vs := by
  obtain ⟨a, b⟩ := p
  simp [crossing]

section Joining
variable [Inhabited α] (hg : g.WellFormed) (hedges : g₁.edges = g.edges)
  (hvert : g₁.vertices = g.vertices)
include hg hvert

/-- Joining the neighbours of a vertex adds no vertices. -/
theorem mem_vertices_joined :
    w ∈ (g₁.addEdges (crossing (g.pred v) (g.succ v))).vertices ↔ w ∈ g.vertices := by
  rw [mem_vertices_addEdges, hvert]
  refine ⟨fun hw => hw.elim id ?_, Or.inl⟩
  rintro ⟨p, hp, rfl | rfl⟩
  · exact hg.fst_mem (p.1, v) ((mem_pred g p.1 v).mp (mem_crossing.mp hp).1)
  · exact hg.snd_mem (v, p.2) ((mem_succ g v p.2).mp (mem_crossing.mp hp).2)

/-- What is left keeps its attributes. -/
theorem get?_joined (hw : w ≠ v) :
    ((g₁.addEdges (crossing (g.pred v) (g.succ v))).removeNode v).get? w = g₁.get? w := by
  rw [get?_removeNode, if_neg hw]
  by_cases hwg : w ∈ g.vertices
  · exact get?_addEdges_of_mem _ _ (hvert ▸ hwg)
  · have hn : g₁.get? w = none := (get?_eq_none_iff g₁ w).mpr (hvert ▸ hwg)
    rw [hn, get?_eq_none_iff, mem_vertices_joined hg hvert]
    exact hwg

include hedges in
/-- Joining the neighbours of a vertex and removing it bridges it, whatever happened to the
attributes before. -/
theorem bridged_joined (hp : g.pred v ≠ []) :
    Bridged g v ((g₁.addEdges (crossing (g.pred v) (g.succ v))).removeNode v) := by
  refine ⟨((hg.congr hvert hedges).addEdges _).removeNode v, hp, fun w => ?_, fun a b => ?_⟩
  · rw [mem_vertices_removeNode, mem_vertices_joined hg hvert]
  · rw [mem_edges_removeNode, mem_edges_addEdges, hedges, mem_crossing]
    simp only [mem_pred, mem_succ]

end Joining

namespace Bridged

/-- An edge of the bridged graph is an edge, or two by way of the vertex that is gone. -/
theorem transGen_of_mem (h : Bridged g v g') (he : (u, w) ∈ g'.edges) :
    Relation.TransGen (fun u v => (u, v) ∈ g.edges) u w := by
  rcases ((h.edges u w).mp he).1 with he | ⟨huv, hvw⟩
  · exact .single he
  · exact .tail (.single huv) hvw

/-- A path to another vertex goes on without `v`: from where it starts or, if it starts at `v`,
from whatever leads there. -/
theorem reaches_of_reaches (h : Bridged g v g') (hreach : g.Reaches u w) (hw : w ≠ v) :
    (u ≠ v → g'.Reaches u w) ∧ (u = v → ∀ a, (a, v) ∈ g.edges → a ≠ v → g'.Reaches a w) := by
  induction hreach using Relation.ReflTransGen.head_induction_on with
  | refl => exact ⟨fun _ => .refl, fun hwv => absurd hwv hw⟩
  | @head u x hux _ ih =>
    by_cases hxv : x = v
    · subst hxv
      exact ⟨fun hu => ih.2 rfl u hux hu, fun _ => ih.2 rfl⟩
    · have hrest := ih.1 hxv
      refine ⟨fun hu => .head ((h.edges u x).mpr ⟨Or.inl hux, hu, hxv⟩) hrest, ?_⟩
      rintro rfl a hav hau
      exact .head ((h.edges a x).mpr ⟨Or.inr ⟨hav, hux⟩, hau, hxv⟩) hrest

theorem reaches_iff (h : Bridged g v g') (hu : u ≠ v) (hw : w ≠ v) :
    g'.Reaches u w ↔ g.Reaches u w := by
  refine ⟨fun hreach => ?_, fun hreach => (h.reaches_of_reaches hreach hw).1 hu⟩
  exact Relation.ReflTransGen.lift' id (fun _ _ he => (h.transGen_of_mem he).to_reflTransGen) _ _ hreach

theorem acyclic (h : Bridged g v g') (hacyclic : g.Acyclic) : g'.Acyclic := fun w hw =>
  hacyclic w (Relation.TransGen.closed (fun _ _ he => h.transGen_of_mem he) _ _ hw)

theorem ranked (h : Bridged g v g') {r : V → Nat} (hr : g.Ranked r) : g'.Ranked r := by
  rintro ⟨a, b⟩ hab
  rcases ((h.edges a b).mp hab).1 with hab | ⟨hav, hvb⟩
  · exact hr _ hab
  · exact Nat.lt_trans (hr (a, v) hav) (hr (v, b) hvb)

theorem pred_ne_nil_of (h : Bridged g v g') (hp : g'.pred w ≠ []) : g.pred w ≠ [] := by
  obtain ⟨u, hu⟩ := exists_mem_of_pred_ne_nil hp
  rcases ((h.edges u w).mp hu).1 with hu | ⟨_, hvw⟩
  · exact pred_ne_nil_of_mem hu
  · exact pred_ne_nil_of_mem hvw

/-- Where `v` was all that led to a vertex, what led to `v` does now. -/
theorem pred_ne_nil_iff (h : Bridged g v g') (hloop : (v, v) ∉ g.edges) (hw : w ≠ v) :
    g'.pred w ≠ [] ↔ g.pred w ≠ [] := by
  refine ⟨h.pred_ne_nil_of, fun hp => ?_⟩
  obtain ⟨u, hu⟩ := exists_mem_of_pred_ne_nil hp
  by_cases huv : u = v
  · subst huv
    obtain ⟨a, ha⟩ := exists_mem_of_pred_ne_nil h.pred_ne_nil
    have hau : a ≠ u := by
      rintro rfl
      exact hloop ha
    exact pred_ne_nil_of_mem ((h.edges a w).mpr ⟨Or.inr ⟨ha, hu⟩, hau, hw⟩)
  · exact pred_ne_nil_of_mem ((h.edges u w).mpr ⟨Or.inl hu, huv, hw⟩)

theorem mem_sources_iff (h : Bridged g v g') (hloop : (v, v) ∉ g.edges) :
    w ∈ g'.sources ↔ w ∈ g.sources := by
  rw [mem_sources, mem_sources, h.vertices]
  by_cases hw : w = v
  · subst hw
    exact ⟨fun hs => absurd rfl hs.1.2, fun hs => absurd hs.2 h.pred_ne_nil⟩
  · rw [not_iff_not.mp (h.pred_ne_nil_iff hloop hw)]
    exact ⟨fun hs => ⟨hs.1.1, hs.2⟩, fun hs => ⟨⟨hs.1, hw⟩, hs.2⟩⟩

end Bridged

/-! ## Several vertices -/

/-- What bridging vertices keeps: `g'` has some of the vertices of `g`, and one leads to another
exactly where it did. It has no cycles and no other sources if `g` has no cycles. -/
structure Contracts (g g' : Digraph V α) : Prop where
  wellFormed : g'.WellFormed
  vertices : ∀ v ∈ g'.vertices, v ∈ g.vertices
  reaches_iff : ∀ u ∈ g'.vertices, ∀ v ∈ g'.vertices, (g'.Reaches u v ↔ g.Reaches u v)
  ranked : ∀ r, g.Ranked r → g'.Ranked r
  acyclic : g.Acyclic → g'.Acyclic
  mem_sources_iff : g.Acyclic → ∀ v, v ∈ g'.sources ↔ v ∈ g.sources

theorem Bridged.contracts (h : Bridged g v g') : Contracts g g' where
  wellFormed := h.wellFormed
  vertices w hw := ((h.vertices w).mp hw).1
  reaches_iff u hu w hw := h.reaches_iff ((h.vertices u).mp hu).2 ((h.vertices w).mp hw).2
  ranked _ hr := h.ranked hr
  acyclic hacyclic := h.acyclic hacyclic
  mem_sources_iff hacyclic _ := h.mem_sources_iff fun hloop => hacyclic v (.single hloop)

namespace Contracts

/-- Changing attributes keeps all of this. -/
theorem of_eq (hg : g.WellFormed) (hv : g'.vertices = g.vertices) (he : g'.edges = g.edges) :
    Contracts g g' where
  wellFormed := hg.congr hv he
  vertices w hw := hv ▸ hw
  reaches_iff u _ w _ := by rw [Reaches, Reaches, he]
  ranked r hr := by rw [Ranked, he]; exact hr
  acyclic hacyclic := by rw [Acyclic, he]; exact hacyclic
  mem_sources_iff _ w := by rw [mem_sources, mem_sources, hv, pred_congr he]

theorem refl (hg : g.WellFormed) : Contracts g g := of_eq hg rfl rfl

theorem trans {a b c : Digraph V α} (h₁ : Contracts a b) (h₂ : Contracts b c) : Contracts a c where
  wellFormed := h₂.wellFormed
  vertices v hv := h₁.vertices v (h₂.vertices v hv)
  reaches_iff u hu v hv := (h₂.reaches_iff u hu v hv).trans
    (h₁.reaches_iff u (h₂.vertices u hu) v (h₂.vertices v hv))
  ranked r hr := h₂.ranked r (h₁.ranked r hr)
  acyclic hacyclic := h₂.acyclic (h₁.acyclic hacyclic)
  mem_sources_iff hacyclic v :=
    (h₂.mem_sources_iff (h₁.acyclic hacyclic) v).trans (h₁.mem_sources_iff hacyclic v)

end Contracts

/-- Bridging a vertex, which does nothing to one without predecessors or without successors. -/
theorem bridge_contracts [Inhabited α] (hg : g.WellFormed) (v : V) : Contracts g (g.bridge v) := by
  unfold bridge
  split
  · exact Contracts.refl hg
  · rename_i hn
    have hp : g.pred v ≠ [] := fun hp => hn (by simp [hp])
    exact (bridged_joined hg rfl rfl hp).contracts

theorem skip_contracts [Inhabited α] (hg : g.WellFormed) (h : g.skip v = .ok g') : Contracts g g' := by
  unfold skip at h
  split at h
  · cases h
    exact bridge_contracts hg v
  · cases h

end Digraph

end FactorPlan
