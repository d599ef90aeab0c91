import FactorPlan.Graph.Layout
import FactorPlan.Proofs.Bridging
import Mathlib.Data.Rat.Cast.Order
import Mathlib.Tactic.FieldSimp
import Mathlib.Tactic.Linarith
import Mathlib.Tactic.Positivity
import Mathlib.Tactic.Ring

/-!
The layout of a tree of dependencies. In an acyclic graph a node is reached along several ways,
and each way is a visit (`visits`). Counting the levels and placing the nodes go through the same
visits in the same order (`countLevels_eq`, `place_eq`), so each visit takes a slot of its own
among those of its level (`Filled`). A node stays where its last visit puts it.

So positions belong to different visits, and different slots are apart: in `layout_apart` no two
nodes share a position, and all of them are within the bounds.
-/

namespace FactorPlan

namespace Digraph

variable {V α : Type} [DecidableEq V] {g : Digraph V α} {u v root : V}

/-! ## Visits -/

/-- The visits in order: each node that is met, with its level. A node is met once for each way
that leads from it to where the visits start. -/
def visits (g : Digraph V α) : Nat → Int → V → List (V × Int)
  | 0, _, _ => []
  | fuel + 1, depth, v => (v, depth) :: (g.pred v).flatMap (visits g fuel (depth + 1))

/-- How many of the visits are on a level. -/
def onLevel (d : Int) (vs : List (V × Int)) : Nat := vs.countP (fun w => w.2 = d)

omit [DecidableEq V] in
theorem onLevel_append (d : Int) (vs ws : List (V × Int)) :
    onLevel d (vs ++ ws) = onLevel d vs + onLevel d ws := List.countP_append

omit [DecidableEq V] in
theorem onLevel_cons_self (v : V) (d : Int) (vs : List (V × Int)) :
    onLevel d ((v, d) :: vs) = onLevel d vs + 1 := List.countP_cons_of_pos (by simp)

omit [DecidableEq V] in
theorem onLevel_pos {w : V × Int} {vs : List (V × Int)} (h : w ∈ vs) : 0 < onLevel w.2 vs :=
  List.countP_pos_iff.mpr ⟨w, h, by simp⟩

omit [DecidableEq V] in
/-- Two visits of one level with as many before them are the same visit. -/
theorem visit_unique {vs before before' after after' : List (V × Int)} {d : Int}
    (h : vs = before ++ (u, d) :: after) (h' : vs = before' ++ (v, d) :: after')
    (hn : onLevel d before = onLevel d before') : u = v := by
  have heq : before ++ (u, d) :: after = before' ++ (v, d) :: after' := h.symm.trans h'
  rcases List.append_eq_append_iff.mp heq with ⟨mid, hb, hm⟩ | ⟨mid, hb, hm⟩
  · cases mid with
    | nil => cases hm; rfl
    | cons w mid =>
      cases hm
      rw [hb, onLevel_append, onLevel_cons_self] at hn
      omega
  · cases mid with
    | nil => cases hm; rfl
    | cons w mid =>
      cases hm
      rw [hb, onLevel_append, onLevel_cons_self] at hn
      omega

theorem depth_le_of_mem_visits {fuel : Nat} {depth : Int} {w : V × Int}
    (h : w ∈ g.visits fuel depth v) : depth ≤ w.2 := by
  induction fuel generalizing depth v with
  | zero => cases h
  | succ fuel ih =>
    rcases List.mem_cons.mp h with rfl | h
    · exact Int.le_refl _
    · obtain ⟨p, _, hw⟩ := List.mem_flatMap.mp h
      have := ih hw
      omega

section Acyclic
variable (hg : g.WellFormed) (hacyclic : g.Acyclic)
include hg hacyclic

theorem height_pred_lt (h : (u, v) ∈ g.edges) : g.height u < g.height v :=
  hacyclic.ranked_height hg (u, v) h

/-- With enough steps at hand, the nodes visited are those from which the start is reached. -/
theorem mem_visits_iff {fuel : Nat} (depth : Int) (hfuel : g.height v < fuel) :
    (∃ d, (u, d) ∈ g.visits fuel depth v) ↔ g.Reaches u v := by
  induction fuel generalizing depth v with
  | zero => omega
  | succ fuel ih =>
    have hlower : ∀ p, (p, v) ∈ g.edges → g.height p < fuel := by
      intro p hp
      have := height_pred_lt hg hacyclic hp
      omega
    constructor
    · rintro ⟨d, hd⟩
      rcases List.mem_cons.mp hd with hd | hd
      · cases hd
        exact .refl
      · obtain ⟨p, hp, hd⟩ := List.mem_flatMap.mp hd
        have hpv := (g.mem_pred p v).mp hp
        exact .tail ((ih (depth + 1) (hlower p hpv)).mp ⟨d, hd⟩) hpv
    · intro h
      rcases Relation.ReflTransGen.cases_tail h with rfl | ⟨p, hup, hpv⟩
      · exact ⟨depth, List.mem_cons_self⟩
      · obtain ⟨d, hd⟩ := (ih (depth + 1) (hlower p hpv)).mpr hup
        exact ⟨d, List.mem_cons_of_mem _ (List.mem_flatMap.mpr ⟨p, (g.mem_pred p v).mpr hpv, hd⟩)⟩

omit hg in
/-- Where a node is reached from a successor, that is no predecessor: none is left out. -/
theorem filter_pred_eq {parent : Option V} (hparent : ∀ p, parent = some p → (v, p) ∈ g.edges) :
    (g.pred v).filter (fun u => some u ≠ parent) = g.pred v := by
  rw [List.filter_eq_self]
  intro u hu
  refine decide_eq_true fun heq => ?_
  exact hacyclic v (.tail (.single (hparent u heq.symm)) ((g.mem_pred u v).mp hu))

end Acyclic

/-! ## Going through the visits -/

/-- A run over a list, each element of which makes its steps, makes all steps in order. -/
theorem foldlM_flatMap {ι κ σ ε : Type} {f : σ → ι → Except ε σ} {step : σ → κ → σ}
    {steps : ι → List κ} (P : σ → Prop) (hkeep : ∀ s k, P s → P (step s k)) {as : List ι}
    (h : ∀ a ∈ as, ∀ s, P s → f s a = .ok ((steps a).foldl step s)) {s : σ} (hs : P s) :
    as.foldlM f s = .ok ((as.flatMap steps).foldl step s) := by
  induction as generalizing s with
  | nil => rfl
  | cons a as ih =>
    have hrun : P ((steps a).foldl step s) := by
      generalize steps a = ks
      induction ks generalizing s with
      | nil => exact hs
      | cons k ks ih => exact ih (hkeep s k hs)
    rw [List.foldlM_cons, h a List.mem_cons_self s hs, List.flatMap_cons, List.foldl_append]
    exact ih (fun b hb => h b (List.mem_cons_of_mem a hb)) hrun

/-- Counts one visit. -/
def count (levels : Table Int Level) (w : V × Int) : Table Int Level :=
  let old := (Table.get? w.2 levels).getD {}
  Table.set w.2 { old with total := old.total + 1 } levels

theorem countLevels_eq (hg : g.WellFormed) (hacyclic : g.Acyclic) (fuel : Nat) (parent : Option V)
    (hparent : ∀ p, parent = some p → (v, p) ∈ g.edges) (depth : Int) (hv : v ∈ g.vertices)
    (hfuel : g.height v < fuel) (levels : Table Int Level) :
    countLevels g fuel parent depth v levels = .ok ((g.visits fuel depth v).foldl count levels) := by
  induction fuel generalizing parent depth v levels with
  | zero => omega
  | succ fuel ih =>
    unfold countLevels visits
    rw [filter_pred_eq hacyclic hparent, if_pos ((g.contains_eq_true_iff v).mpr hv), List.foldl_cons]
    refine foldlM_flatMap (fun _ => True) (fun _ _ _ => trivial) (fun p hp levels _ => ?_) trivial
    have hpv := (g.mem_pred p v).mp hp
    have hlower : g.height p < fuel := by
      have := height_pred_lt hg hacyclic hpv
      omega
    exact ih _ (fun _ he => Option.some.inj he ▸ hpv) (depth + 1) (hg.fst_mem _ hpv) hlower levels

omit [DecidableEq V] in
/-- The counts of the levels: as many as there are visits, and no level without visits. -/
theorem get?_counted (d : Int) (vs : List (V × Int)) :
    Table.get? d (vs.foldl count []) =
      if onLevel d vs = 0 then none else some { total := onLevel d vs, placed := 0 } := by
  induction vs using List.reverseRecOn with
  | nil => rfl
  | append_singleton vs w ih =>
    rw [List.foldl_append, List.foldl_cons, List.foldl_nil, count, Table.get?_set]
    by_cases hd : d = w.2
    · subst hd
      rw [if_pos rfl, ih, onLevel_append]
      have hone : onLevel w.2 [w] = 1 := onLevel_cons_self w.1 w.2 []
      by_cases hz : onLevel w.2 vs = 0
      · simp [hz, hone]
      · simp [hz, hone]
    · have hnone : onLevel d [w] = 0 := by simp [onLevel, Ne.symm hd]
      rw [if_neg hd, ih, onLevel_append, hnone, Nat.add_zero]

/-- Where a visit puts its node: the slot `placed` of `total` slots of equal width. -/
def spot (width gap : ℚ) (total : Int) (placed : Nat) (depth : Int) : ℚ × ℚ :=
  ((2 * placed + 1) / (2 * total) * width, -(depth * gap))

/-- Places one visit. -/
def put (width gap : ℚ) (p : Placing V ℚ) (w : V × Int) : Placing V ℚ :=
  let l := (Table.get? w.2 p.levels).getD {}
  { levels := Table.set w.2 { l with placed := l.placed + 1 } p.levels
    positions := Table.set w.1 (spot width gap l.total l.placed w.2) p.positions }

/-- The levels of all visits have a count. -/
def Counted (vs : List (V × Int)) (levels : Table Int Level) : Prop :=
  ∀ w ∈ vs, ∃ l, Table.get? w.2 levels = some l ∧ l.total ≠ 0

theorem Counted.put {vs : List (V × Int)} {p : Placing V ℚ} (h : Counted vs p.levels)
    (width gap : ℚ) (w : V × Int) : Counted vs (Digraph.put width gap p w).levels := by
  intro x hx
  obtain ⟨l, hl, ht⟩ := h x hx
  rw [Digraph.put, Table.get?_set]
  by_cases hd : x.2 = w.2
  · rw [if_pos hd, ← hd, hl]
    exact ⟨_, rfl, ht⟩
  · exact ⟨l, by rw [if_neg hd, hl], ht⟩

theorem place_eq (hg : g.WellFormed) (hacyclic : g.Acyclic) (width gap : ℚ) {vs : List (V × Int)}
    (fuel : Nat) (parent : Option V) (hparent : ∀ p, parent = some p → (v, p) ∈ g.edges)
    (depth : Int) (hv : v ∈ g.vertices) (hfuel : g.height v < fuel)
    (hsub : ∀ w ∈ g.visits fuel depth v, w ∈ vs) {p : Placing V ℚ} (hp : Counted vs p.levels) :
    place g width gap fuel parent depth (-(depth * gap)) v p =
      .ok ((g.visits fuel depth v).foldl (put width gap) p) := by
  induction fuel generalizing parent depth v p with
  | zero => omega
  | succ fuel ih =>
    obtain ⟨l, hl, ht⟩ := hp (v, depth) (hsub _ List.mem_cons_self)
    have hspot : (((1 : Int) : ℚ) / l.total / ((2 : Int) : ℚ) + ((1 : Int) : ℚ) / l.total *
        ((l.placed : Int) : ℚ)) * width = (2 * l.placed + 1) / (2 * l.total) * width := by
      have : (l.total : ℚ) ≠ 0 := Int.cast_ne_zero.mpr ht
      push_cast
      field_simp
      ring
    have hput : put width gap p (v, depth) =
        { levels := Table.set depth { l with placed := l.placed + 1 } p.levels
          positions := Table.set v ((((1 : Int) : ℚ) / l.total / ((2 : Int) : ℚ) + ((1 : Int) : ℚ) / l.total *
            ((l.placed : Int) : ℚ)) * width, -(depth * gap)) p.positions } := by
      rw [put, hl, hspot]
      rfl
    -- the vertex goes to its spot, and then its predecessors are placed, one level down
    unfold place visits
    rw [hl]
    simp only [if_neg ht]
    rw [filter_pred_eq hacyclic hparent, if_pos ((g.contains_eq_true_iff v).mpr hv), List.foldl_cons,
      hput]
    refine foldlM_flatMap (fun q => Counted vs q.levels) (fun _ w hq => hq.put width gap w)
      (fun u hu q hq => ?_) (hput ▸ hp.put width gap (v, depth))
    have huv := (g.mem_pred u v).mp hu
    have hlower : g.height u < fuel := by
      have := height_pred_lt hg hacyclic huv
      omega
    have hy : -((depth : ℚ) * gap) - gap = -(((depth + 1 : Int) : ℚ) * gap) := by
      push_cast
      ring
    rw [hy]
    exact ih _ (fun _ he => Option.some.inj he ▸ huv) (depth + 1) (hg.fst_mem _ huv) hlower
      (fun w hw => hsub w (List.mem_cons_of_mem _ (List.mem_flatMap.mpr ⟨u, hu, hw⟩))) hq

/-! ## Slots -/

/-- What is known when the visits `done` of the visits `vs` are placed: how many slots of each
level are taken, and that every node with a position had it from one of its visits. -/
structure Filled (width gap : ℚ) (vs done : List (V × Int)) (p : Placing V ℚ) : Prop where
  levels : ∀ d, onLevel d vs ≠ 0 →
    Table.get? d p.levels = some { total := onLevel d vs, placed := onLevel d done }
  nodup_keys : p.positions.keys.Nodup
  mem_keys : ∀ v, v ∈ p.positions.keys ↔ ∃ d, (v, d) ∈ done
  positions : ∀ v xy, Table.get? v p.positions = some xy → ∃ before d after,
    done = before ++ (v, d) :: after ∧ xy = spot width gap (onLevel d vs) (onLevel d before) d

theorem Filled.put {width gap : ℚ} {vs done : List (V × Int)} {p : Placing V ℚ}
    (h : Filled width gap vs done p) {w : V × Int} (hw : w ∈ vs) :
    Filled width gap vs (done ++ [w]) (Digraph.put width gap p w) := by
  have hlevel := h.levels w.2 (onLevel_pos hw).ne'
  have hone : onLevel w.2 [w] = 1 := onLevel_cons_self w.1 w.2 []
  simp only [Digraph.put, hlevel, Option.getD_some]
  refine ⟨fun d hd => ?_, Table.nodup_keys_set h.nodup_keys, fun v => ?_, fun v xy hxy => ?_⟩
  · -- one more stands on the level of `w`
    rw [Table.get?_set, onLevel_append]
    by_cases hdw : d = w.2
    · rw [if_pos hdw, hdw, hone]
    · have hnone : onLevel d [w] = 0 := by simp [onLevel, Ne.symm hdw]
      rw [if_neg hdw, h.levels d hd, hnone, Nat.add_zero]
  · have hkeys : v ∈ (Table.set w.1 (spot width gap (onLevel w.2 vs) (onLevel w.2 done) w.2)
        p.positions).keys ↔ v ∈ p.positions.keys ∨ v = w.1 := by
      rw [Table.keys_set]
      split
      · rename_i hmem
        exact ⟨Or.inl, fun hv => hv.elim id fun he => he ▸ hmem⟩
      · simp
    rw [hkeys, h.mem_keys]
    constructor
    · rintro (⟨d, hd⟩ | rfl)
      · exact ⟨d, List.mem_append_left _ hd⟩
      · exact ⟨w.2, by simp⟩
    · rintro ⟨d, hd⟩
      rcases List.mem_append.mp hd with hd | hd
      · exact Or.inl ⟨d, hd⟩
      · exact Or.inr (congrArg Prod.fst (List.mem_singleton.mp hd))
  · -- where `w` was placed before, its last place counts
    rw [Table.get?_set] at hxy
    by_cases hv : v = w.1
    · rw [if_pos hv] at hxy
      cases hxy
      exact ⟨done, w.2, [], by rw [hv], rfl⟩
    · rw [if_neg hv] at hxy
      obtain ⟨before, d, after, hdone, hspot⟩ := h.positions v xy hxy
      exact ⟨before, d, after ++ [w], by rw [hdone, List.append_assoc, List.cons_append], hspot⟩

theorem filled_foldl (width gap : ℚ) {vs done : List (V × Int)} (h : ∀ w ∈ done, w ∈ vs) :
    Filled width gap vs done (done.foldl (put width gap) { levels := vs.foldl count [] }) := by
  induction done using List.reverseRecOn with
  | nil =>
    refine ⟨fun d hd => ?_, List.nodup_nil, by simp [Table.keys], by simp [Table.get?]⟩
    rw [List.foldl_nil, get?_counted, if_neg hd]
    rfl
  | append_singleton done w ih =>
    rw [List.foldl_append]
    exact (ih fun x hx => h x (List.mem_append_left _ hx)).put (h w (by simp))

/-- Slots of the same place are the same slot of the same level. -/
theorem spot_injective {width gap : ℚ} (hwidth : 0 < width) (hgap : 0 < gap) (total : Int → Nat)
    {n n' : Nat} {d d' : Int} (hd : 0 < total d)
    (h : spot width gap (total d) n d = spot width gap (total d') n' d') : d = d' ∧ n = n' := by
  obtain ⟨hx, hy⟩ := Prod.mk.inj h
  have hdepth : d = d' := by
    have := mul_right_cancel₀ hgap.ne' (neg_injective hy)
    exact_mod_cast this
  subst hdepth
  refine ⟨rfl, ?_⟩
  have htotal : (2 * ((total d : Int) : ℚ)) ≠ 0 := by
    have : ((total d : Int) : ℚ) ≠ 0 := by exact_mod_cast hd.ne'
    simpa using this
  have hslot := (div_left_inj' htotal).mp (mul_right_cancel₀ hwidth.ne' hx)
  have : (n : ℚ) = n' := by linarith
  exact_mod_cast this

/-- A slot that is there is between the sides. -/
theorem spot_within {width : ℚ} (hwidth : 0 < width) (gap : ℚ) {total n : Nat} (hn : n < total) (d : Int) :
    0 < (spot width gap total n d).1 ∧ (spot width gap total n d).1 < width := by
  have htotal : (0 : ℚ) < 2 * ((total : Int) : ℚ) := by
    have : 0 < total := by omega
    have : (0 : ℚ) < total := by exact_mod_cast this
    push_cast
    linarith
  have hlt : (2 * (n : ℚ) + 1) / (2 * ((total : Int) : ℚ)) < 1 := by
    rw [div_lt_one htotal]
    have : 2 * n + 1 < 2 * total := by omega
    exact_mod_cast this
  refine ⟨by unfold spot; positivity, ?_⟩
  calc (2 * (n : ℚ) + 1) / (2 * ((total : Int) : ℚ)) * width < 1 * width :=
        mul_lt_mul_of_pos_right hlt hwidth
    _ = width := one_mul width

theorem le_foldl_max (k : Int) (ks : List Int) : ∀ d ∈ k :: ks, d ≤ ks.foldl max k := by
  induction ks generalizing k with
  | nil => simp
  | cons j ks ih =>
    have hstep : max k j ≤ ks.foldl max (max k j) := ih (max k j) _ List.mem_cons_self
    intro d hd
    rcases List.mem_cons.mp hd with rfl | hd
    · exact (le_max_left d j).trans hstep
    · rcases List.mem_cons.mp hd with rfl | hd
      · exact (le_max_right k d).trans hstep
      · exact ih (max k j) d (List.mem_cons_of_mem _ hd)

/-! ## The layout -/

/-- With the levels counted, all visits are placed, and the last level is as deep as any visit. -/
theorem layout_eq (hg : g.WellFormed) (hacyclic : g.Acyclic) (hroot : root ∈ g.vertices)
    (width height : ℚ) :
    ∃ fuel, ∃ depth : Int, g.height root < fuel ∧ (∀ w ∈ g.visits fuel 0 root, w.2 < depth) ∧
      g.layout root none width height = .ok ((g.visits fuel 0 root).foldl (put width (height / depth))
        { levels := (g.visits fuel 0 root).foldl count [] }).positions := by
  have hfuel : g.height root < 2 * g.nodes.length + 2 := by
    have := hacyclic.height_lt hroot
    rw [length_vertices] at this
    omega
  generalize hf : 2 * g.nodes.length + 2 = fuel at hfuel
  -- every level that is visited has been counted, and the deepest of them gives the depth
  have hmem : ∀ w ∈ g.visits fuel 0 root, w.2 ∈ ((g.visits fuel 0 root).foldl count []).keys := by
    intro w hw
    refine Table.mem_keys_of_get? (a := { total := onLevel w.2 (g.visits fuel 0 root), placed := 0 }) ?_
    rw [get?_counted, if_neg (onLevel_pos hw).ne']
  have hcounted : Counted (g.visits fuel 0 root) ((g.visits fuel 0 root).foldl count []) := by
    intro w hw
    rw [get?_counted, if_neg (onLevel_pos hw).ne']
    exact ⟨_, rfl, by simpa using (onLevel_pos hw).ne'⟩
  have hfirst : (root, 0) ∈ g.visits fuel 0 root := by
    cases fuel with
    | zero => omega
    | succ fuel => exact List.mem_cons_self
  cases hk : ((g.visits fuel 0 root).foldl count []).keys with
  | nil =>
    rw [hk] at hmem
    exact absurd (hmem _ hfirst) (by simp)
  | cons k ks =>
    rw [hk] at hmem
    have hdeep : ∀ w ∈ g.visits fuel 0 root, w.2 ≤ ks.foldl max k :=
      fun w hw => le_foldl_max k ks _ (hmem w hw)
    have hzero := hdeep _ hfirst
    refine ⟨fuel, ks.foldl max k + 1, hfuel, fun w hw => by have := hdeep w hw; omega, ?_⟩
    have hplace := place_eq hg hacyclic width (height / ((ks.foldl max k + 1 : Int) : ℚ)) fuel
      none (by simp) 0 hroot hfuel (fun w hw => hw)
      (p := { levels := (g.visits fuel 0 root).foldl count [] }) hcounted
    rw [show -(((0 : Int) : ℚ) * (height / ((ks.foldl max k + 1 : Int) : ℚ))) = ((0 : Int) : ℚ) by simp]
      at hplace
    unfold layout
    simp only [hf, countLevels_eq hg hacyclic fuel none (by simp) 0 hroot hfuel [],
      Bind.bind, Except.bind, hk]
    rw [if_neg (by omega), hplace]
    rfl

/-- **The nodes of a layout are apart.** In an acyclic graph, for every root and every positive width and
height, there is a layout. It has a position for the root and for the nodes that lead to it, and for no
others; no two nodes have the same one. All stand strictly between the left and the right side, and from
the top down to above the bottom. -/
theorem layout_apart (hg : g.WellFormed) (hacyclic : g.Acyclic) (hroot : root ∈ g.vertices)
    {width : ℚ} (hwidth : 0 < width) {height : ℚ} (hheight : 0 < height) :
    ∃ t, g.layout root none width height = .ok t ∧
      t.keys.Nodup ∧ (∀ v, v ∈ t.keys ↔ g.Reaches v root) ∧ (t.map (·.2)).Nodup ∧
      ∀ v x y, (v, (x, y)) ∈ t → (0 < x ∧ x < width) ∧ -height < y ∧ y ≤ 0 := by
  obtain ⟨fuel, depth, hfuel, hdepth, hlayout⟩ := layout_eq hg hacyclic hroot width height
  have hlow : ∀ w ∈ g.visits fuel 0 root, 0 ≤ w.2 := fun w => depth_le_of_mem_visits
  have hreached : ∀ v, (∃ d, (v, d) ∈ g.visits fuel 0 root) ↔ g.Reaches v root :=
    fun v => mem_visits_iff hg hacyclic 0 hfuel
  generalize g.visits fuel 0 root = vs at hdepth hlow hreached hlayout
  have hfilled := filled_foldl width (height / depth) (fun w (hw : w ∈ vs) => hw)
  generalize (vs.foldl (put width (height / depth)) { levels := vs.foldl count [] }) = p at hlayout hfilled
  -- each entry is from a visit, which has a slot of a level that is there
  have hentry : ∀ e ∈ p.positions, ∃ before d after, vs = before ++ (e.1, d) :: after ∧
      onLevel d before < onLevel d vs ∧ (0 ≤ d ∧ d < depth) ∧
      e.2 = spot width (height / depth) (onLevel d vs) (onLevel d before) d := by
    rintro ⟨v, xy⟩ he
    obtain ⟨before, d, after, hsplit, hxy⟩ :=
      hfilled.positions v xy ((Table.mem_iff_get? hfilled.nodup_keys v xy).mp he)
    have hmem : (v, d) ∈ vs := by rw [hsplit]; simp
    refine ⟨before, d, after, hsplit, ?_, ⟨hlow _ hmem, hdepth _ hmem⟩, hxy⟩
    rw [hsplit, onLevel_append, onLevel_cons_self]
    omega
  have hgap : ∀ d : Int, 0 ≤ d ∧ d < depth → 0 < height / (depth : ℚ) := fun d hd =>
    div_pos hheight (by exact_mod_cast hd.1.trans_lt hd.2)
  refine ⟨p.positions, hlayout, hfilled.nodup_keys, fun v => ?_, ?_, fun v x y hxy => ?_⟩
  · rw [hfilled.mem_keys, hreached]
  · refine List.Nodup.map_on (fun e he e' he' heq => ?_) (List.Nodup.of_map _ hfilled.nodup_keys)
    obtain ⟨before, d, after, hsplit, hn, hd, hspot⟩ := hentry e he
    obtain ⟨before', d', after', hsplit', -, -, hspot'⟩ := hentry e' he'
    obtain ⟨rfl, hsame⟩ := spot_injective hwidth (hgap d hd) (fun d => onLevel d vs)
      (Nat.zero_lt_of_lt hn) (hspot.symm.trans (heq.trans hspot'))
    exact Prod.ext (visit_unique hsplit hsplit' hsame) heq
  · obtain ⟨before, d, -, -, hn, hd, hspot⟩ := hentry _ hxy
    have hx := spot_within hwidth (height / depth) hn d
    rw [← hspot] at hx
    have hy : y = -(d * (height / depth)) := congrArg Prod.snd hspot
    have hrange : (0 : ℚ) ≤ d ∧ (d : ℚ) < depth := ⟨by exact_mod_cast hd.1, by exact_mod_cast hd.2⟩
    have hbottom : (d : ℚ) * (height / depth) < height := by
      calc (d : ℚ) * (height / depth) < depth * (height / depth) :=
            mul_lt_mul_of_pos_right hrange.2 (hgap d hd)
        _ = height := mul_div_cancel₀ height (hrange.1.trans_lt hrange.2).ne'
    have htop : 0 ≤ (d : ℚ) * (height / depth) := mul_nonneg hrange.1 (hgap d hd).le
    exact ⟨hx, by rw [hy]; linarith, by rw [hy]; linarith⟩

/-- From `a` one edge leads to `c` directly and two by way of `b`. -/
def shortcut : Digraph String Unit where
  nodes := [("a", ()), ("b", ()), ("c", ())]
  edges := [("a", "c"), ("a", "b"), ("b", "c")]

/-- The node `a` is met on two levels and has one position. -/
theorem layout_apart_shortcut :
    shortcut.WellFormed ∧ shortcut.Acyclic ∧ "c" ∈ shortcut.vertices ∧
    ∃ t, shortcut.layout "c" none (2 : ℚ) 3 = .ok t ∧ "a" ∈ t.keys ∧ t.keys.Nodup ∧
      (t.map (·.2)).Nodup := by
  have hg : shortcut.WellFormed := ⟨by decide, by decide, by decide, by decide⟩
  have hacyclic : shortcut.Acyclic :=
    acyclic_of_ranked (r := fun v => if v = "a" then 0 else if v = "b" then 1 else 2)
      (by unfold Ranked; decide)
  have hroot : "c" ∈ shortcut.vertices := by decide
  obtain ⟨t, ht, hkeys, hreach, hapart, -⟩ := layout_apart hg hacyclic hroot
    (show (0 : ℚ) < 2 by norm_num) (show (0 : ℚ) < 3 by norm_num)
  exact ⟨hg, hacyclic, hroot, t, ht, (hreach "a").mpr (.single (by decide)), hkeys, hapart⟩

end Digraph

end FactorPlan
