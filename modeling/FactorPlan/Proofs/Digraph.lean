import FactorPlan.Graph.Paths
import Mathlib.Data.List.Induction
import Mathlib.Data.List.Nodup

/-!
Tables and digraphs through their views. A table is seen through `get?` and `keys`,
a digraph through its vertices, the attributes of a vertex and its edges; each
operation has one lemma for each view, and later proofs use only these.

`WellFormed g` says that no vertex and no edge is listed twice and that edges join
vertices. `Ranked g r` says that `r` grows along every edge; a graph with such a
ranking has no cycles.
-/

namespace FactorPlan

namespace Table

variable {κ α : Type}

@[simp] theorem keys_nil : keys ([] : Table κ α) = [] := rfl

@[simp] theorem keys_cons (p : κ × α) (t : Table κ α) : keys (p :: t) = p.1 :: keys t := rfl

@[simp] theorem keys_append (s t : Table κ α) : keys (s ++ t) = keys s ++ keys t := by
  simp [keys]

variable [DecidableEq κ]

theorem contains_eq_true_iff (k : κ) (t : Table κ α) : contains k t = true ↔ k ∈ keys t := by
  simp [contains, keys]

theorem get?_eq_none_iff (k : κ) (t : Table κ α) : get? k t = none ↔ k ∉ keys t := by
  induction t with
  | nil => simp [get?]
  | cons p t ih =>
    by_cases h : p.1 = k
    · simp [get?, h]
    · simp [get?, h, ih, Ne.symm h]

theorem exists_get?_of_mem {k : κ} {t : Table κ α} (h : k ∈ keys t) : ∃ a, get? k t = some a := by
  cases hg : get? k t with
  | none => exact absurd h ((get?_eq_none_iff k t).mp hg)
  | some a => exact ⟨a, rfl⟩

theorem mem_keys_of_get? {k : κ} {t : Table κ α} {a : α} (h : get? k t = some a) : k ∈ keys t := by
  by_contra hk
  rw [(get?_eq_none_iff k t).mpr hk] at h
  cases h

theorem get?_map_of_mem (f : κ → α) {ks : List κ} {k : κ} (hk : k ∈ ks) :
    get? k (ks.map (fun j => (j, f j))) = some (f k) := by
  induction ks with
  | nil => cases hk
  | cons j ks ih =>
    simp only [List.map_cons, get?]
    by_cases hj : j = k
    · rw [if_pos hj, hj]
    · rw [if_neg hj]
      exact ih ((List.mem_cons.mp hk).resolve_left (fun h => hj h.symm))

/-- In a table without repeated keys the entries are the values found. -/
theorem mem_iff_get? {t : Table κ α} (h : (keys t).Nodup) (k : κ) (a : α) :
    (k, a) ∈ t ↔ get? k t = some a := by
  induction t with
  | nil => simp [get?]
  | cons p t ih =>
    obtain ⟨j, b⟩ := p
    simp only [keys_cons, List.nodup_cons] at h
    by_cases hj : j = k
    · subst hj
      have hn : (j, a) ∉ t := fun hm => h.1 (List.mem_map.mpr ⟨(j, a), hm, rfl⟩)
      simp [get?, hn, eq_comm]
    · simp [get?, hj, ih h.2, Ne.symm hj]

@[simp] theorem keys_update (k : κ) (f : α → α) (t : Table κ α) :
    keys (update k f t) = keys t := by
  simp only [keys, update, List.map_map]
  refine List.map_congr_left fun p _ => ?_
  by_cases h : p.1 = k <;> simp [h]

theorem get?_update (j k : κ) (f : α → α) (t : Table κ α) :
    get? j (update k f t) = if j = k then (get? j t).map f else get? j t := by
  induction t with
  | nil => simp [update, get?]
  | cons p t ih =>
    simp only [update, List.map_cons] at ih ⊢
    by_cases hp : p.1 = k <;> by_cases hj : p.1 = j
    · simp [get?, hj, hj ▸ hp]
    · have hjk : j ≠ k := fun h => hj (hp.trans h.symm)
      simp [get?, hp, Ne.symm hjk, hjk, ih]
    · have hjk : j ≠ k := fun h => hp (hj.trans h)
      simp [get?, hj, hjk]
    · simp [get?, hj, hp, ih]

@[simp] theorem keys_erase (k : κ) (t : Table κ α) :
    keys (erase k t) = (keys t).filter (fun j => j ≠ k) := by
  simp only [keys, erase, List.filter_map]
  rfl

theorem get?_erase (j k : κ) (t : Table κ α) :
    get? j (erase k t) = if j = k then none else get? j t := by
  induction t with
  | nil => simp [erase, get?]
  | cons p t ih =>
    simp only [erase, List.filter_cons, decide_eq_true_eq] at ih ⊢
    by_cases hp : p.1 = k
    · rw [if_neg (fun h => h hp), ih]
      by_cases hj : j = k
      · rw [if_pos hj, if_pos hj]
      · have hpj : p.1 ≠ j := fun h => hj (h.symm.trans hp)
        rw [if_neg hj, if_neg hj, get?, if_neg hpj]
    · rw [if_pos hp, get?, get?]
      by_cases hj : p.1 = j
      · rw [if_pos hj, if_pos hj, if_neg (fun h => hp (hj.trans h))]
      · rw [if_neg hj, if_neg hj, ih]

theorem get?_append (k : κ) (s t : Table κ α) :
    get? k (s ++ t) = (get? k s).or (get? k t) := by
  induction s with
  | nil => simp [get?]
  | cons p s ih => by_cases h : p.1 = k <;> simp [get?, h, ih]

theorem get?_set (j k : κ) (a : α) (t : Table κ α) :
    get? j (set k a t) = if j = k then some a else get? j t := by
  induction t with
  | nil => by_cases h : j = k <;> simp [set, get?, h, eq_comm]
  | cons p t ih =>
    by_cases hp : p.1 = k
    · by_cases hj : j = k
      · simp [set, get?, hp, hj]
      · simp [set, get?, hp, hj, Ne.symm hj]
    · by_cases hj : p.1 = j
      · have hjk : j ≠ k := fun h => hp (hj.trans h)
        simp [set, get?, hj, hjk]
      · simp [set, get?, hp, hj, ih]

theorem keys_set (k : κ) (a : α) (t : Table κ α) :
    keys (set k a t) = if k ∈ keys t then keys t else keys t ++ [k] := by
  induction t with
  | nil => simp [set, keys]
  | cons p t ih =>
    by_cases hp : p.1 = k
    · simp [set, hp]
    · simp only [set, hp, if_false, keys_cons, ih, List.mem_cons, Ne.symm hp, false_or]
      split <;> simp

theorem nodup_keys_set {k : κ} {a : α} {t : Table κ α} (h : (keys t).Nodup) :
    (keys (set k a t)).Nodup := by
  rw [keys_set]
  split
  · exact h
  · rename_i hk
    exact List.nodup_append.mpr ⟨h, by simp, by
      intro x hx y hy
      rw [List.mem_singleton.mp hy]
      exact fun he => hk (he ▸ hx)⟩

theorem ofList_concat (ps : List (κ × α)) (p : κ × α) :
    ofList (ps ++ [p]) = set p.1 p.2 (ofList ps) := by
  simp [ofList]

/-- The keys stand where they came first. -/
theorem keys_ofList (ps : List (κ × α)) : keys (ofList ps) = (ps.map (·.1)).eraseDups := by
  induction ps using List.reverseRecOn with
  | nil => rfl
  | append_singleton ps p ih =>
    rw [ofList_concat, keys_set, ih, List.map_append, List.eraseDups_append]
    by_cases hp : p.1 ∈ ps.map (·.1)
    · have hnone : List.removeAll [p.1] (ps.map (·.1)) = [] := by simpa [List.removeAll] using hp
      rw [if_pos (List.mem_eraseDups.mpr hp)]
      simp [hnone]
    · have hone : List.removeAll [p.1] (ps.map (·.1)) = [p.1] := by simpa [List.removeAll] using hp
      rw [if_neg (fun h => hp (List.mem_eraseDups.mp h))]
      simp [hone, List.eraseDups_cons]

/-- The value that came last counts. -/
theorem get?_ofList (k : κ) (ps : List (κ × α)) :
    get? k (ofList ps) = (ps.reverse.find? (fun p => p.1 = k)).map (·.2) := by
  induction ps using List.reverseRecOn with
  | nil => rfl
  | append_singleton ps p ih =>
    rw [ofList_concat, get?_set, ih, List.reverse_append, List.reverse_singleton, List.singleton_append,
      List.find?_cons]
    by_cases hp : p.1 = k
    · simp [hp]
    · simp [hp, Ne.symm hp]

theorem nodup_keys_ofList (ps : List (κ × α)) : (keys (ofList ps)).Nodup := by
  induction ps using List.reverseRecOn with
  | nil => exact List.nodup_nil
  | append_singleton ps p ih =>
    rw [ofList_concat]
    exact nodup_keys_set ih

theorem mem_of_mem_ofList {ps : List (κ × α)} {p : κ × α} (h : p ∈ ofList ps) : p ∈ ps := by
  have hget := (mem_iff_get? (nodup_keys_ofList ps) p.1 p.2).mp h
  rw [get?_ofList] at hget
  obtain ⟨q, hq, hvalue⟩ := Option.map_eq_some_iff.mp hget
  have hkey : q.1 = p.1 := by simpa using List.find?_some hq
  rw [show p = q from Prod.ext hkey.symm hvalue.symm]
  exact List.mem_reverse.mp (List.mem_of_find?_eq_some hq)

theorem set_of_notMem {k : κ} {t : Table κ α} (h : k ∉ keys t) (a : α) : set k a t = t ++ [(k, a)] := by
  induction t with
  | nil => rfl
  | cons p t ih =>
    rw [keys_cons, List.mem_cons, not_or] at h
    rw [set, if_neg (Ne.symm h.1), ih h.2, List.cons_append]

/-- Where no key is repeated, the table is the list. -/
theorem ofList_of_nodup {ps : List (κ × α)} (h : (ps.map (·.1)).Nodup) : ofList ps = ps := by
  induction ps using List.reverseRecOn with
  | nil => rfl
  | append_singleton ps p ih =>
    rw [List.map_append, List.nodup_append] at h
    have hnew : p.1 ∉ keys ps := fun hmem => h.2.2 p.1 hmem p.1 (by simp) rfl
    rw [ofList_concat, ih h.1, set_of_notMem hnew]

theorem length_ofList_le (ps : List (κ × α)) : (ofList ps).length ≤ ps.length := by
  induction ps using List.reverseRecOn with
  | nil => exact Nat.le_refl _
  | append_singleton ps p ih =>
    have hset := congrArg List.length (keys_set p.1 p.2 (ofList ps))
    rw [ofList_concat, List.length_append, List.length_singleton]
    split at hset <;> simp [keys] at hset <;> omega

/-- An entry is lost exactly where a key is repeated. -/
theorem length_ofList_eq_iff (ps : List (κ × α)) : (ofList ps).length = ps.length ↔ (ps.map (·.1)).Nodup := by
  refine ⟨fun h => ?_, fun h => by rw [ofList_of_nodup h]⟩
  induction ps using List.reverseRecOn with
  | nil => exact List.nodup_nil
  | append_singleton ps p ih =>
    have hle := length_ofList_le ps
    have hset := congrArg List.length (keys_set p.1 p.2 (ofList ps))
    rw [ofList_concat, List.length_append, List.length_singleton] at h
    split at hset
    · -- the key was there, so its entry was lost
      simp only [keys, List.length_map] at hset
      omega
    · rename_i hnew
      simp only [keys, List.length_map, List.length_append, List.length_singleton] at hset
      have hnew' : p.1 ∉ ps.map (·.1) := by rwa [keys_ofList, List.mem_eraseDups] at hnew
      rw [List.map_append, List.nodup_append]
      refine ⟨ih (by omega), by simp, fun x hx y hy heq => hnew' ?_⟩
      have hy' : y = p.1 := by simpa using hy
      rw [← hy', ← heq]
      exact hx

end Table

namespace Digraph

variable {V α : Type} [DecidableEq V]

/-! ## Vertices, edges and neighbours -/

omit [DecidableEq V] in
theorem length_vertices (g : Digraph V α) : g.vertices.length = g.nodes.length :=
  List.length_map _

theorem mem_vertices_iff (g : Digraph V α) (v : V) : v ∈ g.vertices ↔ ∃ a, g.get? v = some a :=
  ⟨Table.exists_get?_of_mem, fun ⟨_, h⟩ => Table.mem_keys_of_get? h⟩

theorem get?_eq_none_iff (g : Digraph V α) (v : V) : g.get? v = none ↔ v ∉ g.vertices :=
  Table.get?_eq_none_iff v g.nodes

theorem contains_eq_true_iff (g : Digraph V α) (v : V) : g.contains v = true ↔ v ∈ g.vertices :=
  Table.contains_eq_true_iff v g.nodes

@[simp] theorem mem_pred (g : Digraph V α) (u v : V) : u ∈ g.pred v ↔ (u, v) ∈ g.edges := by
  simp [pred]

@[simp] theorem mem_succ (g : Digraph V α) (u v : V) : v ∈ g.succ u ↔ (u, v) ∈ g.edges := by
  simp [succ]

theorem succ_eq_nil_iff (g : Digraph V α) (u : V) : g.succ u = [] ↔ ∀ v, (u, v) ∉ g.edges := by
  rw [List.eq_nil_iff_forall_not_mem]
  exact forall_congr' fun v => not_congr (g.mem_succ u v)

theorem pred_ne_nil_of_mem {g : Digraph V α} {u v : V} (h : (u, v) ∈ g.edges) : g.pred v ≠ [] :=
  List.ne_nil_of_mem ((g.mem_pred u v).mpr h)

theorem succ_ne_nil_of_mem {g : Digraph V α} {u v : V} (h : (u, v) ∈ g.edges) : g.succ u ≠ [] :=
  List.ne_nil_of_mem ((g.mem_succ u v).mpr h)

theorem exists_mem_of_pred_ne_nil {g : Digraph V α} {v : V} (h : g.pred v ≠ []) :
    ∃ u, (u, v) ∈ g.edges := by
  obtain ⟨u, hu⟩ := List.exists_mem_of_ne_nil _ h
  exact ⟨u, (g.mem_pred u v).mp hu⟩

theorem mem_sources (g : Digraph V α) (v : V) : v ∈ g.sources ↔ v ∈ g.vertices ∧ g.pred v = [] := by
  simp [sources]

theorem mem_sinks (g : Digraph V α) (v : V) : v ∈ g.sinks ↔ v ∈ g.vertices ∧ g.succ v = [] := by
  simp [sinks]

/-- Graphs with the same edges have the same predecessors. -/
theorem pred_congr {β : Type} {g : Digraph V α} {h : Digraph V β} (he : g.edges = h.edges) (v : V) :
    g.pred v = h.pred v := by
  rw [pred, pred, he]

theorem succ_congr {β : Type} {g : Digraph V α} {h : Digraph V β} (he : g.edges = h.edges) (v : V) :
    g.succ v = h.succ v := by
  rw [succ, succ, he]

/-! ## Changing attributes -/

@[simp] theorem edges_update (g : Digraph V α) (v : V) (f : α → α) :
    (g.update v f).edges = g.edges := rfl

@[simp] theorem vertices_update (g : Digraph V α) (v : V) (f : α → α) :
    (g.update v f).vertices = g.vertices := Table.keys_update v f g.nodes

@[simp] theorem pred_update (g : Digraph V α) (v : V) (f : α → α) (w : V) :
    (g.update v f).pred w = g.pred w := rfl

@[simp] theorem succ_update (g : Digraph V α) (v : V) (f : α → α) (w : V) :
    (g.update v f).succ w = g.succ w := rfl

theorem get?_update (g : Digraph V α) (v : V) (f : α → α) (w : V) :
    (g.update v f).get? w = if w = v then (g.get? w).map f else g.get? w :=
  Table.get?_update w v f g.nodes

/-! ## Adding nodes and edges -/

section Adding
variable [Inhabited α]

@[simp] theorem edges_addNode (g : Digraph V α) (v : V) (f : α → α) :
    (g.addNode v f).edges = g.edges := by
  unfold addNode
  split <;> rfl

theorem vertices_addNode (g : Digraph V α) (v : V) (f : α → α) :
    (g.addNode v f).vertices = if v ∈ g.vertices then g.vertices else g.vertices ++ [v] := by
  unfold addNode
  by_cases h : v ∈ g.vertices
  · rw [if_pos ((g.contains_eq_true_iff v).mpr h), if_pos h, vertices_update]
  · rw [if_neg (fun hc => h ((g.contains_eq_true_iff v).mp hc)), if_neg h]
    simp [vertices]

theorem mem_vertices_addNode (g : Digraph V α) (v : V) (f : α → α) (w : V) :
    w ∈ (g.addNode v f).vertices ↔ w ∈ g.vertices ∨ w = v := by
  rw [vertices_addNode]
  split
  · rename_i h
    exact ⟨Or.inl, fun hw => hw.elim id (fun he => he ▸ h)⟩
  · simp

theorem get?_addNode (g : Digraph V α) (v : V) (f : α → α) (w : V) :
    (g.addNode v f).get? w = if w = v then some (f ((g.get? v).getD default)) else g.get? w := by
  unfold addNode
  by_cases h : v ∈ g.vertices
  · obtain ⟨a, ha⟩ := (g.mem_vertices_iff v).mp h
    rw [if_pos ((g.contains_eq_true_iff v).mpr h), get?_update]
    by_cases hw : w = v
    · subst hw; simp [ha]
    · simp [hw]
  · have hn : g.get? v = none := (g.get?_eq_none_iff v).mpr h
    rw [if_neg (fun hc => h ((g.contains_eq_true_iff v).mp hc))]
    simp only [get?, Table.get?_append, Table.get?] at hn ⊢
    by_cases hw : w = v
    · subst hw; simp [hn]
    · simp [hw, Ne.symm hw]

theorem edges_addEdge (g : Digraph V α) (u v : V) :
    (g.addEdge u v).edges = if (u, v) ∈ g.edges then g.edges else g.edges ++ [(u, v)] := by
  unfold addEdge
  simp only [edges_addNode]
  split <;> simp

theorem mem_edges_addEdge (g : Digraph V α) (u v : V) (e : V × V) :
    e ∈ (g.addEdge u v).edges ↔ e ∈ g.edges ∨ e = (u, v) := by
  rw [edges_addEdge]
  split
  · rename_i h
    exact ⟨Or.inl, fun he => he.elim id (fun h' => h' ▸ h)⟩
  · simp

theorem nodes_addEdge (g : Digraph V α) (u v : V) :
    (g.addEdge u v).nodes = ((g.addNode u id).addNode v id).nodes := by
  unfold addEdge
  dsimp only
  split <;> rfl

theorem mem_vertices_addEdge (g : Digraph V α) (u v w : V) :
    w ∈ (g.addEdge u v).vertices ↔ w ∈ g.vertices ∨ w = u ∨ w = v := by
  rw [vertices, nodes_addEdge, ← vertices, mem_vertices_addNode, mem_vertices_addNode, or_assoc]

/-- An edge gives the nodes it needs default attributes and leaves the others as they are. -/
theorem get?_addEdge (g : Digraph V α) (u v w : V) :
    (g.addEdge u v).get? w = if w = u ∨ w = v then some ((g.get? w).getD default) else g.get? w := by
  rw [get?, nodes_addEdge, ← get?, get?_addNode, get?_addNode, get?_addNode]
  by_cases hv : w = v
  · subst hv
    by_cases hu : w = u
    · subst hu; simp
    · simp [hu]
  · by_cases hu : w = u
    · subst hu; simp [hv]
    · simp [hu, hv]

theorem addEdges_cons (g : Digraph V α) (e : V × V) (es : List (V × V)) :
    g.addEdges (e :: es) = (g.addEdge e.1 e.2).addEdges es := rfl

theorem mem_edges_addEdges (g : Digraph V α) (es : List (V × V)) (e : V × V) :
    e ∈ (g.addEdges es).edges ↔ e ∈ g.edges ∨ e ∈ es := by
  induction es generalizing g with
  | nil => simp [addEdges]
  | cons d es ih => rw [addEdges_cons, ih, mem_edges_addEdge, List.mem_cons, or_assoc]

theorem mem_vertices_addEdges (g : Digraph V α) (es : List (V × V)) (w : V) :
    w ∈ (g.addEdges es).vertices ↔ w ∈ g.vertices ∨ ∃ e ∈ es, w = e.1 ∨ w = e.2 := by
  induction es generalizing g with
  | nil => simp [addEdges]
  | cons d es ih => rw [addEdges_cons, ih, mem_vertices_addEdge, List.exists_mem_cons_iff, or_assoc]

theorem get?_addEdges_of_mem (g : Digraph V α) (es : List (V × V)) {w : V} (hw : w ∈ g.vertices) :
    (g.addEdges es).get? w = g.get? w := by
  induction es generalizing g with
  | nil => rfl
  | cons d es ih =>
    obtain ⟨a, ha⟩ := (g.mem_vertices_iff w).mp hw
    rw [addEdges_cons, ih _ ((mem_vertices_addEdge g d.1 d.2 w).mpr (Or.inl hw)), get?_addEdge, ha]
    simp

end Adding

/-! ## Removing nodes -/

theorem mem_edges_removeNode (g : Digraph V α) (v : V) (e : V × V) :
    e ∈ (g.removeNode v).edges ↔ e ∈ g.edges ∧ e.1 ≠ v ∧ e.2 ≠ v := by
  simp [removeNode]

theorem vertices_removeNode (g : Digraph V α) (v : V) :
    (g.removeNode v).vertices = g.vertices.filter (fun w => w ≠ v) := Table.keys_erase v g.nodes

theorem mem_vertices_removeNode (g : Digraph V α) (v w : V) :
    w ∈ (g.removeNode v).vertices ↔ w ∈ g.vertices ∧ w ≠ v := by
  rw [vertices_removeNode]
  simp

theorem get?_removeNode (g : Digraph V α) (v w : V) :
    (g.removeNode v).get? w = if w = v then none else g.get? w := Table.get?_erase w v g.nodes

/-! ## Well-formed and ranked graphs -/

/-- Nothing is listed twice, and edges join vertices. -/
structure WellFormed (g : Digraph V α) : Prop where
  nodup_vertices : g.vertices.Nodup
  nodup_edges : g.edges.Nodup
  fst_mem : ∀ e ∈ g.edges, e.1 ∈ g.vertices
  snd_mem : ∀ e ∈ g.edges, e.2 ∈ g.vertices

/-- `r` grows along every edge. -/
def Ranked (g : Digraph V α) (r : V → Nat) : Prop := ∀ e ∈ g.edges, r e.1 < r e.2

namespace WellFormed

omit [DecidableEq V] in
theorem nil : WellFormed ({} : Digraph V α) :=
  ⟨List.nodup_nil, List.nodup_nil, by simp, by simp⟩

omit [DecidableEq V] in
theorem congr {g g' : Digraph V α} (h : WellFormed g) (hv : g'.vertices = g.vertices)
    (he : g'.edges = g.edges) : WellFormed g' := by
  refine ⟨?_, ?_, ?_, ?_⟩
  · rw [hv]; exact h.nodup_vertices
  · rw [he]; exact h.nodup_edges
  · rw [he, hv]; exact h.fst_mem
  · rw [he, hv]; exact h.snd_mem

theorem nodup_pred {g : Digraph V α} (h : g.WellFormed) (v : V) : (g.pred v).Nodup := by
  refine List.Nodup.map_on ?_ (h.nodup_edges.filter _)
  intro x hx y hy hxy
  have hx2 : x.2 = v := by simpa using (List.mem_filter.mp hx).2
  have hy2 : y.2 = v := by simpa using (List.mem_filter.mp hy).2
  exact Prod.ext hxy (hx2.trans hy2.symm)

theorem nodup_succ {g : Digraph V α} (h : g.WellFormed) (v : V) : (g.succ v).Nodup := by
  refine List.Nodup.map_on ?_ (h.nodup_edges.filter _)
  intro x hx y hy hxy
  have hx1 : x.1 = v := by simpa using (List.mem_filter.mp hx).2
  have hy1 : y.1 = v := by simpa using (List.mem_filter.mp hy).2
  exact Prod.ext (hx1.trans hy1.symm) hxy

theorem update {g : Digraph V α} (h : g.WellFormed) (v : V) (f : α → α) :
    (g.update v f).WellFormed :=
  h.congr (vertices_update g v f) (edges_update g v f)

theorem addNode [Inhabited α] {g : Digraph V α} (h : g.WellFormed) (v : V) (f : α → α) :
    (g.addNode v f).WellFormed := by
  refine ⟨?_, ?_, ?_, ?_⟩
  · rw [vertices_addNode]
    split
    · exact h.nodup_vertices
    · rename_i hv
      exact List.nodup_append.mpr ⟨h.nodup_vertices, by simp, by
        intro x hx y hy
        rw [List.mem_singleton.mp hy]
        exact fun he => hv (he ▸ hx)⟩
  · rw [edges_addNode]; exact h.nodup_edges
  · intro e he
    rw [edges_addNode] at he
    exact (mem_vertices_addNode g v f _).mpr (Or.inl (h.fst_mem e he))
  · intro e he
    rw [edges_addNode] at he
    exact (mem_vertices_addNode g v f _).mpr (Or.inl (h.snd_mem e he))

theorem addEdge [Inhabited α] {g : Digraph V α} (h : g.WellFormed) (u v : V) :
    (g.addEdge u v).WellFormed := by
  have hn : (g.addEdge u v).vertices = ((g.addNode u id).addNode v id).vertices := by
    rw [vertices, nodes_addEdge, ← vertices]
  refine ⟨?_, ?_, ?_, ?_⟩
  · rw [hn]; exact ((h.addNode u id).addNode v id).nodup_vertices
  · rw [edges_addEdge]
    split
    · exact h.nodup_edges
    · rename_i he
      exact List.nodup_append.mpr ⟨h.nodup_edges, by simp, by
        intro x hx y hy
        rw [List.mem_singleton.mp hy]
        exact fun hxy => he (hxy ▸ hx)⟩
  · intro e he
    rw [mem_vertices_addEdge]
    rcases (mem_edges_addEdge g u v e).mp he with he | rfl
    · exact Or.inl (h.fst_mem e he)
    · exact Or.inr (Or.inl rfl)
  · intro e he
    rw [mem_vertices_addEdge]
    rcases (mem_edges_addEdge g u v e).mp he with he | rfl
    · exact Or.inl (h.snd_mem e he)
    · exact Or.inr (Or.inr rfl)

theorem addEdges [Inhabited α] {g : Digraph V α} (h : g.WellFormed) (es : List (V × V)) :
    (g.addEdges es).WellFormed := by
  induction es generalizing g with
  | nil => exact h
  | cons e es ih => exact ih (h.addEdge e.1 e.2)

theorem removeNode {g : Digraph V α} (h : g.WellFormed) (v : V) : (g.removeNode v).WellFormed := by
  refine ⟨?_, h.nodup_edges.filter _, ?_, ?_⟩
  · rw [vertices_removeNode]; exact h.nodup_vertices.filter _
  · intro e he
    obtain ⟨he, h1, _⟩ := (mem_edges_removeNode g v e).mp he
    exact (mem_vertices_removeNode g v _).mpr ⟨h.fst_mem e he, h1⟩
  · intro e he
    obtain ⟨he, _, h2⟩ := (mem_edges_removeNode g v e).mp he
    exact (mem_vertices_removeNode g v _).mpr ⟨h.snd_mem e he, h2⟩

end WellFormed

end Digraph

end FactorPlan
