import FactorPlan.Proofs.Digraph
import Mathlib.Data.List.Perm.Subperm

/-!
The generations of a graph. `Layered g done gs` says that every vertex of a
generation has all its predecessors in `done` or in earlier generations of `gs`.

What is proved of a well-formed graph:
  1. `generations_perm`: the generations and the rest hold every vertex once.
  2. `generations_layered`: the generations are layered.
  3. `generations_stuck`: a vertex of the rest has a predecessor in the rest, so
     that a ranked graph has no rest (`generations_rest_eq_nil`), and a graph
     without rest is ranked by its levels (`level_ranked`).

The loop counts, for each waiting vertex, its predecessors that are not done. The
invariant `Waits` says so, and one pass over the current generation keeps it.
-/

namespace FactorPlan

namespace Digraph

variable {V α : Type} [DecidableEq V]

/-! ## One pass over a list of released vertices -/

/-- What is left of the count of a vertex after `m` releases. -/
def remaining (m : Nat) : Option Nat → Option Nat
  | some n => if m < n then some (n - m) else none
  | none => none

theorem pos_of_remaining {m n : Nat} {o : Option Nat} (h : remaining m o = some n) : 0 < n := by
  cases o with
  | none => cases h
  | some k =>
    by_cases hk : m < k
    · simp only [remaining, hk, if_true, Option.some.injEq] at h; omega
    · simp [remaining, hk] at h

/-- A release takes one off the count of its vertex and off no other. -/
theorem get?_release (acc : Table V Nat × List V) (v w : V)
    (hpos : ∀ n, Table.get? w acc.1 = some n → 0 < n) :
    Table.get? w (release acc v).1 = remaining (if v = w then 1 else 0) (Table.get? w acc.1) := by
  unfold release
  by_cases h : v = w
  · subst h
    cases hv : Table.get? v acc.1 with
    | none => simp [hv, remaining]
    | some n =>
      have := hpos n hv
      by_cases hn : n ≤ 1
      · simp [hn, Table.get?_erase, remaining]
      · have h1 : 1 < n := by omega
        simp [hn, Table.get?_set, remaining, h1]
  · have hw : remaining 0 (Table.get? w acc.1) = Table.get? w acc.1 := by
      cases hg : Table.get? w acc.1 with
      | none => rfl
      | some n => simp [remaining, hpos n hg]
    rw [if_neg h, hw]
    cases hv : Table.get? v acc.1 with
    | none => rfl
    | some n =>
      dsimp only
      split
      · simp [Table.get?_erase, Ne.symm h]
      · simp [Table.get?_set, Ne.symm h]

theorem mem_release (acc : Table V Nat × List V) (v w : V) :
    w ∈ (release acc v).2 ↔ w ∈ acc.2 ∨ (v = w ∧ ∃ n, Table.get? w acc.1 = some n ∧ n ≤ 1) := by
  unfold release
  cases hv : Table.get? v acc.1 with
  | none =>
    refine ⟨Or.inl, fun h => h.elim id ?_⟩
    rintro ⟨rfl, n, hn, _⟩
    rw [hv] at hn; cases hn
  | some n =>
    dsimp only
    split
    · rename_i hn
      simp only [List.mem_append, List.mem_singleton]
      refine or_congr_right ⟨?_, ?_⟩
      · rintro rfl; exact ⟨rfl, n, hv, hn⟩
      · rintro ⟨rfl, _⟩; rfl
    · rename_i hn
      refine ⟨Or.inl, fun h => h.elim id ?_⟩
      rintro ⟨rfl, m, hm, hm1⟩
      rw [hv] at hm; cases hm; omega

theorem nodup_release {acc : Table V Nat × List V} (v : V)
    (h : (acc.2 ++ acc.1.keys).Nodup) : ((release acc v).2 ++ (release acc v).1.keys).Nodup := by
  unfold release
  cases hv : Table.get? v acc.1 with
  | none => exact h
  | some n =>
    obtain ⟨h2, h1, hd⟩ := List.nodup_append.mp h
    have hk : v ∈ acc.1.keys := Table.mem_keys_of_get? hv
    dsimp only
    split
    · -- the vertex moves from the waiting ones to the next generation
      rw [Table.keys_erase]
      refine List.nodup_append.mpr ⟨?_, h1.filter _, ?_⟩
      · refine List.nodup_append.mpr ⟨h2, by simp, ?_⟩
        intro x hx y hy
        rw [List.mem_singleton.mp hy]
        exact hd x hx v hk
      · intro x hx y hy
        obtain ⟨hy, hyv⟩ := List.mem_filter.mp hy
        rcases List.mem_append.mp hx with hx | hx
        · exact hd x hx y hy
        · rw [List.mem_singleton.mp hx]
          simpa using Ne.symm (of_decide_eq_true hyv)
    · rw [Table.keys_set, if_pos hk]; exact h

/-- The counts after a pass: each vertex has lost one for each of its releases. -/
theorem get?_foldl_release (vs : List V) (acc : Table V Nat × List V) (w : V)
    (hpos : ∀ n, Table.get? w acc.1 = some n → 0 < n) :
    Table.get? w (vs.foldl release acc).1 = remaining (vs.count w) (Table.get? w acc.1) := by
  induction vs generalizing acc with
  | nil =>
    cases hg : Table.get? w acc.1 with
    | none => simp [hg, remaining]
    | some n => simp [hg, remaining, hpos n hg]
  | cons v vs ih =>
    have hr := get?_release acc v w hpos
    rw [List.foldl_cons, ih, hr]
    · cases hg : Table.get? w acc.1 with
      | none => simp [remaining]
      | some n =>
        by_cases h : v = w
        · subst h
          simp only [if_true, remaining, List.count_cons_self]
          by_cases h1 : 1 < n
          · simp only [h1, if_true]
            by_cases h2 : vs.count v < n - 1
            · rw [if_pos h2, if_pos (by omega)]; congr 1; omega
            · rw [if_neg h2, if_neg (by omega)]
          · simp only [h1, if_false]; rw [if_neg (by omega)]
        · simp only [h, if_false, remaining, hpos n hg, if_true, Nat.sub_zero]
          rw [List.count_cons_of_ne h]
    · exact fun n hn => pos_of_remaining (hr ▸ hn)

/-- A pass moves exactly the vertices whose count is used up. -/
theorem mem_foldl_release (vs : List V) (acc : Table V Nat × List V) (w : V)
    (hpos : ∀ n, Table.get? w acc.1 = some n → 0 < n) :
    w ∈ (vs.foldl release acc).2 ↔
      w ∈ acc.2 ∨ ∃ n, Table.get? w acc.1 = some n ∧ n ≤ vs.count w := by
  induction vs generalizing acc with
  | nil =>
    refine ⟨Or.inl, fun h => h.elim id ?_⟩
    rintro ⟨n, hn, h0⟩
    have := hpos n hn
    simp at h0; omega
  | cons v vs ih =>
    have hr := get?_release acc v w hpos
    rw [List.foldl_cons, ih, mem_release, or_assoc]
    · refine or_congr_right ?_
      rw [hr]
      cases hg : Table.get? w acc.1 with
      | none => simp [remaining]
      | some n =>
        have hn := hpos n hg
        by_cases h : v = w
        · subst h
          simp only [if_true, remaining, List.count_cons_self, Option.some.injEq, true_and,
            exists_eq_left']
          -- `w` is released now if this is the last that it waits for
          by_cases h1 : 1 < n
          · simp only [h1, if_true, Option.some.injEq, exists_eq_left']; omega
          · simp only [h1, if_false]
            constructor
            · intro _; omega
            · intro _; exact Or.inl (by omega)
        · simp only [h, if_false, remaining, hn, if_true, Nat.sub_zero, false_and, false_or,
            List.count_cons_of_ne h]
    · exact fun n hn => pos_of_remaining (hr ▸ hn)

/-- A pass loses no vertex. -/
theorem mem_foldl_release_append (vs : List V) (waiting : Table V Nat) (w : V)
    (hpos : ∀ n, Table.get? w waiting = some n → 0 < n) :
    w ∈ (vs.foldl release (waiting, [])).2 ++ (vs.foldl release (waiting, [])).1.keys ↔
      w ∈ waiting.keys := by
  have hget := get?_foldl_release vs (waiting, []) w hpos
  rw [List.mem_append, mem_foldl_release vs (waiting, []) w hpos]
  constructor
  · rintro ((hw | ⟨n, hn, _⟩) | hw)
    · cases hw
    · exact Table.mem_keys_of_get? hn
    · obtain ⟨n, hn⟩ := Table.exists_get?_of_mem hw
      by_contra hk
      rw [hget, (Table.get?_eq_none_iff w waiting).mpr hk] at hn
      cases hn
  · intro hw
    obtain ⟨n, hn⟩ := Table.exists_get?_of_mem hw
    by_cases hlt : vs.count w < n
    · refine Or.inr (Table.mem_keys_of_get? (a := n - vs.count w) ?_)
      rw [hget, hn, remaining, if_pos hlt]
    · exact Or.inl (Or.inr ⟨n, hn, by omega⟩)

theorem nodup_foldl_release (vs : List V) (acc : Table V Nat × List V)
    (h : (acc.2 ++ acc.1.keys).Nodup) :
    ((vs.foldl release acc).2 ++ (vs.foldl release acc).1.keys).Nodup := by
  induction vs generalizing acc with
  | nil => exact h
  | cons v vs ih => exact ih _ (nodup_release v h)

/-! ## The loop -/

/-- Every vertex of a generation has its predecessors in `done` or in earlier generations. -/
def Layered (g : Digraph V α) : List V → List (List V) → Prop
  | _, [] => True
  | done, gen :: gens => (∀ v ∈ gen, ∀ u ∈ g.pred v, u ∈ done) ∧ Layered g (done ++ gen) gens

/-- The state of the loop: each vertex is done, current or waiting, the predecessors of
current ones are done, and the count of a waiting one is that of its predecessors that
are not. -/
structure Waits (g : Digraph V α) (done current : List V) (waiting : Table V Nat) : Prop where
  nodup : (done ++ (current ++ waiting.keys)).Nodup
  ready : ∀ v ∈ current, ∀ u ∈ g.pred v, u ∈ done
  pos : ∀ v n, Table.get? v waiting = some n → 0 < n
  count : ∀ v n, Table.get? v waiting = some n → n = (g.pred v).countP (fun u => u ∉ done)

/-- Releasing the successors of the current vertices releases a vertex once for each of
its predecessors among them. -/
theorem count_flatMap_succ {g : Digraph V α} (hg : g.WellFormed) {current : List V}
    (hc : current.Nodup) (v : V) :
    (current.flatMap g.succ).count v = (g.pred v).countP (fun u => u ∈ current) := by
  have h1 : ∀ u, (g.succ u).count v = if (u, v) ∈ g.edges then 1 else 0 := by
    intro u
    rw [(hg.nodup_succ u).count]
    simp
  have h2 : ∀ us : List V, (us.flatMap g.succ).count v = us.countP (fun u => (u, v) ∈ g.edges) := by
    intro us
    induction us with
    | nil => simp
    | cons u us ih =>
      rw [List.flatMap_cons, List.count_append, ih, h1, List.countP_cons, Nat.add_comm]
      simp
  -- both sides count the vertices that are current and have an edge to `v`
  have hp : (current.filter (fun u => (u, v) ∈ g.edges)).Perm
      ((g.pred v).filter (fun u => u ∈ current)) := by
    refine (List.perm_ext_iff_of_nodup (hc.filter _) ((hg.nodup_pred v).filter _)).mpr fun u => ?_
    simp [and_comm]
  rw [h2, List.countP_eq_length_filter, List.countP_eq_length_filter]
  exact hp.length_eq

theorem countP_not_mem_append {g : Digraph V α} {done current : List V} (v : V)
    (hd : ∀ u ∈ current, u ∉ done) :
    (g.pred v).countP (fun u => u ∉ done) =
      (g.pred v).countP (fun u => u ∉ done ++ current) +
        (g.pred v).countP (fun u => u ∈ current) := by
  induction g.pred v with
  | nil => simp
  | cons u us ih =>
    rw [List.countP_cons, List.countP_cons, List.countP_cons, ih]
    by_cases h1 : u ∈ done
    · have h2 : u ∉ current := fun h => hd u h h1
      simp [h1, h2]
    · by_cases h2 : u ∈ current
      · simp [h1, h2]; omega
      · simp [h1, h2]; omega

/-- One pass of the loop keeps its invariant. -/
theorem Waits.pass {g : Digraph V α} (hg : g.WellFormed) {done current : List V}
    {waiting : Table V Nat} (h : Waits g done current waiting) :
    Waits g (done ++ current) ((current.flatMap g.succ).foldl release (waiting, [])).2
      ((current.flatMap g.succ).foldl release (waiting, [])).1 := by
  obtain ⟨hdn, hcw, hdisj⟩ := List.nodup_append.mp h.nodup
  obtain ⟨hcn, hwn, hcwd⟩ := List.nodup_append.mp hcw
  have hcd : ∀ u ∈ current, u ∉ done := fun u hu hd =>
    hdisj u hd u (List.mem_append_left _ hu) rfl
  have hget := fun w => get?_foldl_release (current.flatMap g.succ) (waiting, []) w (h.pos w)
  have hmem := fun w => mem_foldl_release (current.flatMap g.succ) (waiting, []) w (h.pos w)
  have hold := fun w => (mem_foldl_release_append (current.flatMap g.succ) waiting w (h.pos w)).mp
  refine ⟨?_, ?_, ?_, ?_⟩
  · refine List.nodup_append.mpr ⟨?_, nodup_foldl_release _ (waiting, []) (by simpa using hwn), ?_⟩
    · exact List.nodup_append.mpr ⟨hdn, hcn, fun x hx y hy hxy => hcd y hy (hxy ▸ hx)⟩
    · intro x hx y hy
      rcases List.mem_append.mp hx with hx | hx
      · exact hdisj x hx y (List.mem_append_right _ (hold y hy))
      · exact hcwd x hx y (hold y hy)
  · intro v hv u hu
    rcases (hmem v).mp hv with hv | ⟨n, hn, hle⟩
    · cases hv
    · -- a vertex is released once all that it waits for has passed
      have hc := h.count v n hn
      rw [countP_not_mem_append v hcd, ← count_flatMap_succ hg hcn v] at hc
      have h0 : (g.pred v).countP (fun u => u ∉ done ++ current) = 0 := by omega
      by_contra hn
      exact List.countP_eq_zero.mp h0 u hu (decide_eq_true hn)
  · exact fun v n hn => pos_of_remaining ((hget v) ▸ hn)
  · intro v n hn
    rw [hget] at hn
    cases hw : Table.get? v waiting with
    | none => simp only [hw, remaining] at hn; cases hn
    | some m =>
      have hc := h.count v m hw
      rw [countP_not_mem_append v hcd, ← count_flatMap_succ hg hcn v] at hc
      by_cases hlt : (current.flatMap g.succ).count v < m
      · simp only [hw, remaining, hlt, if_true, Option.some.injEq] at hn; omega
      · simp [hw, remaining, hlt] at hn

/-- What the loop returns, from any state that keeps its invariant, if `fuel` is more than
the number of vertices that are not done. -/
theorem generationsFrom_spec {g : Digraph V α} (hg : g.WellFormed) (fuel : Nat) :
    ∀ (done current : List V) (waiting : Table V Nat), Waits g done current waiting →
      current.length + waiting.length < fuel →
      ((g.generationsFrom fuel waiting current).1.flatten ++
        (g.generationsFrom fuel waiting current).2).Perm (current ++ waiting.keys) ∧
      Layered g done (g.generationsFrom fuel waiting current).1 ∧
      (∀ gen ∈ (g.generationsFrom fuel waiting current).1, gen ≠ []) ∧
      (∀ v ∈ (g.generationsFrom fuel waiting current).2, ∃ u ∈ g.pred v,
        u ∉ done ++ (g.generationsFrom fuel waiting current).1.flatten) := by
  induction fuel with
  | zero => intro _ _ _ _ hf; omega
  | succ fuel ih =>
    intro done current waiting hw hf
    by_cases hc : current = []
    · subst hc
      simp only [generationsFrom, List.isEmpty_nil, if_true]
      refine ⟨by simp, trivial, by simp, ?_⟩
      -- what still waits counts a predecessor that was not reached
      intro v hv
      obtain ⟨n, hn⟩ := Table.exists_get?_of_mem hv
      have hpos := hw.pos v n hn
      rw [hw.count v n hn] at hpos
      obtain ⟨u, hu, hud⟩ := List.countP_pos_iff.mp hpos
      exact ⟨u, hu, by simpa using hud⟩
    · have hpass := hw.pass hg
      -- a pass splits what waits into what it releases and what waits on
      have hperm : (((current.flatMap g.succ).foldl release (waiting, [])).2 ++
          ((current.flatMap g.succ).foldl release (waiting, [])).1.keys).Perm waiting.keys := by
        obtain ⟨_, hcw, _⟩ := List.nodup_append.mp hw.nodup
        obtain ⟨_, hwn, _⟩ := List.nodup_append.mp hcw
        have hnd := nodup_foldl_release (current.flatMap g.succ) (waiting, [])
          (by simpa using hwn)
        refine (List.perm_ext_iff_of_nodup hnd hwn).mpr fun w => ?_
        exact mem_foldl_release_append _ waiting w (hw.pos w)
      have hlen : ((current.flatMap g.succ).foldl release (waiting, [])).2.length +
          ((current.flatMap g.succ).foldl release (waiting, [])).1.length = waiting.length := by
        simpa [Table.keys] using hperm.length_eq
      have hcl : 0 < current.length := List.length_pos_of_ne_nil hc
      obtain ⟨h1, h2, h3, h4⟩ := ih _ _ _ hpass (by omega)
      have hce : current.isEmpty = false := by simpa using hc
      simp only [generationsFrom, hce, Bool.false_eq_true, if_false]
      refine ⟨?_, ⟨hw.ready, h2⟩, ?_, ?_⟩
      · rw [List.flatten_cons, List.append_assoc]
        exact (h1.trans hperm).append_left current
      · intro gen hgen
        rcases List.mem_cons.mp hgen with rfl | hgen
        · exact hc
        · exact h3 gen hgen
      · intro v hv
        obtain ⟨u, hu, hud⟩ := h4 v hv
        exact ⟨u, hu, by simpa [List.flatten_cons, List.append_assoc] using hud⟩

/-! ## The generations -/

theorem waits_sources {g : Digraph V α} (hg : g.WellFormed) :
    Waits g [] g.sources
      ((g.vertices.map (fun v => (v, (g.pred v).length))).filter (fun p => 0 < p.2)) := by
  have hkeys : Table.keys ((g.vertices.map (fun v => (v, (g.pred v).length))).filter
      (fun p => 0 < p.2)) = g.vertices.filter (fun v => !(g.pred v).isEmpty) := by
    simp only [Table.keys, List.filter_map, List.map_map]
    rw [show (fun p : V × Nat => p.1) ∘ (fun v => (v, (g.pred v).length)) = id from rfl, List.map_id]
    refine List.filter_congr fun v _ => ?_
    cases hp : g.pred v <;> simp [hp]
  have hget : ∀ v n, Table.get? v ((g.vertices.map (fun v => (v, (g.pred v).length))).filter
      (fun p => 0 < p.2)) = some n → n = (g.pred v).length ∧ 0 < n := by
    intro v n hn
    have hnd := hkeys ▸ hg.nodup_vertices.filter (fun v => !(g.pred v).isEmpty)
    have hm := (Table.mem_iff_get? hnd v n).mpr hn
    obtain ⟨hm, h0⟩ := List.mem_filter.mp hm
    obtain ⟨w, _, hw⟩ := List.mem_map.mp hm
    cases hw
    exact ⟨rfl, by simpa using h0⟩
  refine ⟨?_, ?_, fun v n hn => (hget v n hn).2, ?_⟩
  · rw [List.nil_append, hkeys, sources]
    exact (List.filter_append_perm _ g.vertices).nodup_iff.mpr hg.nodup_vertices
  · intro v hv u hu
    rw [((g.mem_sources v).mp hv).2] at hu
    exact hu
  · intro v n hn
    rw [(hget v n hn).1]
    simp

theorem generations_spec {g : Digraph V α} (hg : g.WellFormed) :
    (g.generations.1.flatten ++ g.generations.2).Perm g.vertices ∧
    Layered g [] g.generations.1 ∧
    (∀ gen ∈ g.generations.1, gen ≠ []) ∧
    (∀ v ∈ g.generations.2, ∃ u ∈ g.pred v, u ∉ g.generations.1.flatten) := by
  have hw := waits_sources hg
  have hperm : (g.sources ++ Table.keys ((g.vertices.map (fun v => (v, (g.pred v).length))).filter
      (fun p => 0 < p.2))).Perm g.vertices := by
    refine (List.perm_ext_iff_of_nodup (by simpa using hw.nodup) hg.nodup_vertices).mpr fun v => ?_
    rw [List.mem_append, mem_sources]
    simp only [Table.keys, List.mem_map, List.mem_filter]
    constructor
    · rintro (⟨h, _⟩ | ⟨p, ⟨⟨w, hw, rfl⟩, _⟩, rfl⟩)
      · exact h
      · exact hw
    · intro hv
      by_cases hp : g.pred v = []
      · exact Or.inl ⟨hv, hp⟩
      · refine Or.inr ⟨(v, (g.pred v).length), ⟨⟨v, hv, rfl⟩, ?_⟩, rfl⟩
        simpa using List.length_pos_of_ne_nil hp
  have hlen := hperm.length_eq
  obtain ⟨h1, h2, h3, h4⟩ := generationsFrom_spec hg (g.nodes.length + 1) [] _ _ hw (by
    have hv : g.vertices.length = g.nodes.length := by simp [vertices, Table.keys]
    rw [List.length_append, Table.keys, List.length_map, hv] at hlen
    omega)
  exact ⟨h1.trans hperm, h2, h3, h4⟩

/-- The generations and the rest hold every vertex once. -/
theorem generations_perm {g : Digraph V α} (hg : g.WellFormed) :
    (g.generations.1.flatten ++ g.generations.2).Perm g.vertices := (generations_spec hg).1

theorem mem_vertices_of_generation {g : Digraph V α} (hg : g.WellFormed) {gen : List V}
    (h : gen ∈ g.generations.1) {v : V} (hv : v ∈ gen) : v ∈ g.vertices :=
  (generations_perm hg).mem_iff.mp (List.mem_append_left _ (List.mem_flatten.mpr ⟨gen, h, hv⟩))

theorem generations_layered {g : Digraph V α} (hg : g.WellFormed) :
    Layered g [] g.generations.1 := (generations_spec hg).2.1

/-- A vertex of the rest has a predecessor in the rest. -/
theorem generations_stuck {g : Digraph V α} (hg : g.WellFormed) {v : V}
    (hv : v ∈ g.generations.2) : ∃ u ∈ g.generations.2, (u, v) ∈ g.edges := by
  obtain ⟨u, hu, hn⟩ := (generations_spec hg).2.2.2 v hv
  have he := (g.mem_pred u v).mp hu
  have hmem := (generations_perm hg).mem_iff.mpr (hg.fst_mem _ he)
  exact ⟨u, (List.mem_append.mp hmem).resolve_left hn, he⟩

theorem generations_rest_eq_nil {g : Digraph V α} (hg : g.WellFormed) {r : V → Nat}
    (hr : g.Ranked r) : g.generations.2 = [] := by
  -- an element of least rank would have a predecessor of smaller rank
  have hno : ∀ n v, v ∈ g.generations.2 → r v < n → False := by
    intro n
    induction n with
    | zero => intro v _ h; omega
    | succ n ih =>
      intro v hv hlt
      obtain ⟨u, hu, he⟩ := generations_stuck hg hv
      exact ih u hu (by have := hr _ he; simp only at this; omega)
  exact List.eq_nil_iff_forall_not_mem.mpr fun v hv => hno (r v + 1) v hv (Nat.lt_succ_self _)

/-- The first generation is that of the sources; a graph without sources has none. -/
theorem generations_eq (g : Digraph V α) :
    (g.sources = [] ∧ g.generations.1 = []) ∨ ∃ later, g.generations.1 = g.sources :: later := by
  by_cases h : g.sources = []
  · refine Or.inl ⟨h, ?_⟩
    simp [generations, generationsFrom, h]
  · have he : g.sources.isEmpty = false := by simpa using h
    simp only [generations, generationsFrom, he, Bool.false_eq_true, if_false]
    exact Or.inr ⟨_, rfl⟩

/-- A vertex of a generation has its predecessors in earlier ones. -/
theorem Layered.pred_mem {g : Digraph V α} {done : List V} {gens : List (List V)}
    (h : Layered g done gens) {i : Nat} {gen : List V} (hi : gens[i]? = some gen) {u v : V}
    (hv : v ∈ gen) (hu : u ∈ g.pred v) : u ∈ done ∨ ∃ j gen', j < i ∧ gens[j]? = some gen' ∧ u ∈ gen' := by
  induction gens generalizing done i with
  | nil => simp at hi
  | cons first gens ih =>
    cases i with
    | zero =>
      simp only [List.getElem?_cons_zero, Option.some.injEq] at hi
      subst hi
      exact Or.inl (h.1 v hv u hu)
    | succ i =>
      rw [List.getElem?_cons_succ] at hi
      rcases ih h.2 hi with hd | ⟨j, gen', hj, hg, hm⟩
      · rcases List.mem_append.mp hd with hd | hd
        · exact Or.inl hd
        · exact Or.inr ⟨0, first, by omega, rfl, hd⟩
      · exact Or.inr ⟨j + 1, gen', by omega, by simpa using hg, hm⟩

theorem nodup_generations {g : Digraph V α} (hg : g.WellFormed) : g.generations.1.flatten.Nodup :=
  (List.nodup_append.mp ((generations_perm hg).nodup_iff.mpr hg.nodup_vertices)).1

/-- A vertex is in one generation only. -/
theorem generation_unique {g : Digraph V α} (hg : g.WellFormed) {i j : Nat} {a b : List V} {v : V}
    (hi : g.generations.1[i]? = some a) (hj : g.generations.1[j]? = some b) (ha : v ∈ a)
    (hb : v ∈ b) : i = j := by
  have hdisj := (List.nodup_flatten.mp (nodup_generations hg)).2
  rw [List.pairwise_iff_getElem] at hdisj
  obtain ⟨hil, rfl⟩ := List.getElem?_eq_some_iff.mp hi
  obtain ⟨hjl, rfl⟩ := List.getElem?_eq_some_iff.mp hj
  rcases Nat.lt_trichotomy i j with h | h | h
  · exact absurd hb (hdisj i j hil hjl h ha)
  · exact h
  · exact absurd ha (hdisj j i hjl hil h hb)

/-- The place of the generation of a vertex. -/
def level (g : Digraph V α) (v : V) : Nat :=
  g.generations.1.findIdx (fun gen => decide (v ∈ gen))

theorem level_eq {g : Digraph V α} (hg : g.WellFormed) {v : V} {i : Nat} {gen : List V}
    (hi : g.generations.1[i]? = some gen) (hv : v ∈ gen) : g.level v = i := by
  have hlt : g.generations.1.findIdx (fun gen => decide (v ∈ gen)) < g.generations.1.length :=
    List.findIdx_lt_length_of_exists ⟨gen, List.mem_of_getElem? hi, by simpa using hv⟩
  have hat := List.findIdx_getElem (w := hlt)
  exact generation_unique hg (List.getElem?_eq_getElem hlt) hi (by simpa using hat) hv

theorem exists_generation {g : Digraph V α} (hg : g.WellFormed) (hrest : g.generations.2 = [])
    {v : V} (hv : v ∈ g.vertices) :
    ∃ (i : Nat) (gen : List V), g.generations.1[i]? = some gen ∧ v ∈ gen := by
  have hperm := generations_perm hg
  rw [hrest, List.append_nil] at hperm
  obtain ⟨gen, hgen, hm⟩ := List.mem_flatten.mp (hperm.mem_iff.mpr hv)
  obtain ⟨i, hi⟩ := List.mem_iff_getElem?.mp hgen
  exact ⟨i, gen, hi, hm⟩

/-- In a graph in which every vertex has a generation, levels grow along edges. -/
theorem level_ranked {g : Digraph V α} (hg : g.WellFormed) (hrest : g.generations.2 = []) :
    g.Ranked g.level := by
  intro e he
  obtain ⟨i, gen, hi, hm⟩ := exists_generation hg hrest (hg.snd_mem e he)
  rcases (generations_layered hg).pred_mem hi hm ((g.mem_pred e.1 e.2).mpr he) with
    hd | ⟨j, gen', hj, hg', hm'⟩
  · cases hd
  · rw [level_eq hg hi hm, level_eq hg hg' hm']
    exact hj

/-- Only vertices without predecessors are in the first generation. -/
theorem level_eq_zero_iff {g : Digraph V α} (hg : g.WellFormed) (hrest : g.generations.2 = [])
    {v : V} (hv : v ∈ g.vertices) : g.level v = 0 ↔ g.pred v = [] := by
  rcases generations_eq g with ⟨_, hnil⟩ | ⟨later, hlater⟩
  · obtain ⟨i, gen, hi, _⟩ := exists_generation hg hrest hv
    rw [hnil] at hi
    cases hi
  · have hfirst : g.generations.1[0]? = some g.sources := by rw [hlater]; rfl
    constructor
    · intro hl
      obtain ⟨i, gen, hi, hm⟩ := exists_generation hg hrest hv
      obtain rfl : i = 0 := (level_eq hg hi hm).symm.trans hl
      rw [hfirst] at hi
      cases hi
      exact ((g.mem_sources v).mp hm).2
    · intro hp
      exact level_eq hg hfirst ((g.mem_sources v).mpr ⟨hv, hp⟩)

omit [DecidableEq V] in
theorem length_le_length_flatten {gens : List (List V)} (h : ∀ gen ∈ gens, gen ≠ []) :
    gens.length ≤ gens.flatten.length := by
  induction gens with
  | nil => simp
  | cons a gens ih =>
    have ha := List.length_pos_of_ne_nil (h a (by simp))
    have := ih (fun gen hgen => h gen (by simp [hgen]))
    simp only [List.length_cons, List.flatten_cons, List.length_append]
    omega

/-- No generation is empty, so there are no more levels than vertices. -/
theorem level_lt {g : Digraph V α} (hg : g.WellFormed) (hrest : g.generations.2 = []) {v : V}
    (hv : v ∈ g.vertices) : g.level v < g.vertices.length := by
  obtain ⟨i, gen, hi, hm⟩ := exists_generation hg hrest hv
  have hperm := generations_perm hg
  rw [hrest, List.append_nil] at hperm
  have hle := length_le_length_flatten (generations_spec hg).2.2.1
  have hlt := (List.getElem?_eq_some_iff.mp hi).1
  rw [level_eq hg hi hm, ← hperm.length_eq]
  omega

end Digraph

end FactorPlan
