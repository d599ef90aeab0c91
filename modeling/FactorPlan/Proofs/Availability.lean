import FactorPlan.Proofs.Building
import FactorPlan.Proofs.Outputs
import FactorPlan.Proofs.Precedence

/-!
What is computed in a row is there when it is needed. `Connected` says that a column that is
not given has an edge from every column that its expression names. It holds at the start,
and it survives removing what nobody asks for and every inlining, because building a node
again brings in no names (`Scheduled.reduced`).

In the rows of a graph each column that is not given stands once, in the row of its
generation and under its own key (`stands_layout_iff`). So the rows of a plan, with or without
its middle, are a schedule: what an item names is given, or stands in an earlier row
(`rows_schedule`).
-/

namespace FactorPlan

namespace Plan

namespace Graph

open Formula (Value)

variable {s : Setting} {bs : List (Slot × Value)} {g g' : Graph}

/-! ## Edges from everything that is named -/

/-- A column that is not given has edges from all that its expression names. -/
def Connected (g : Graph) : Prop :=
  ∀ v e x, g.pred v ≠ [] → g.exprOf v = some e → x ∈ e.symbols → (x, v) ∈ g.edges

theorem Started.connected (h : Started s bs g) : Connected g :=
  fun _ _ _ hp he hx => h.mem_edges_of_symbol hp he hx

theorem Connected.keeps (h : Connected g) (hk : Digraph.Keeps g g') : Connected g' := by
  intro v e x hp he hx
  have hv := mem_vertices_of_exprOf he
  rw [exprOf, hk.attributes v hv] at he
  exact (hk.edges (x, v)).mpr ⟨h v e x ((hk.pred_ne_nil hv).mp hp) he hx, hv⟩

theorem Connected.inlined {rebuild : Rebuild} (hr : Expr.BringsNone rebuild.always) {r : String → Nat}
    (hranked : g.Ranked r) {v : String} {e : Expr} (hg : Planned g) (h : Connected g)
    (hi : Inlined rebuild g v e g') : Connected g' := by
  intro w d' x hp hd' hx
  obtain ⟨hw, hne⟩ := (hi.vertices w).mp (mem_vertices_of_exprOf hd')
  obtain ⟨d, hd⟩ := hg.exprOf w hw
  have hnamed : ∀ y ∈ d.symbols, (y, w) ∈ g.edges := fun y => h w d y (hi.pred_ne_nil_of hp) hd
  rw [hi.exprOf hne hd] at hd'
  cases hd'
  rw [hi.edges]
  by_cases hs : w ∈ g.succ v
  · rw [if_pos hs] at hx
    rcases Expr.symbols_putFor hr v e d x hx with ⟨hx, hxv⟩ | ⟨hx, _⟩
    · exact ⟨Or.inl (hnamed x hx), hxv, hne⟩
    · -- the name came with the expression of `v`, which does not name itself
      have hxv := h v e x hi.pred_ne_nil hi.expr hx
      refine ⟨Or.inr ⟨hxv, (Digraph.mem_succ g v w).mp hs⟩, ?_, hne⟩
      rintro rfl
      exact Nat.lt_irrefl _ (hranked (x, x) hxv)
  · rw [if_neg hs] at hx
    refine ⟨Or.inl (hnamed x hx), ?_, hne⟩
    rintro rfl
    exact hs ((Digraph.mem_succ g x w).mpr (hnamed x hx))

theorem Connected.sameContent (h : Connected g) (hs : SameContent g g') : Connected g' := by
  intro v e x hp he hx
  rw [hs.pred] at hp
  rw [hs.exprOf] at he
  rw [hs.edges]
  exact h v e x hp he hx

/-! ## The middle of a plan -/

/-- What the middle of a plan keeps of it: the columns that are given, as they are, and an edge
from all that is named. -/
structure Reduced (g g' : Graph) : Prop where
  vertices : ∀ v ∈ g'.vertices, v ∈ g.vertices
  pred_ne_nil_iff : ∀ v ∈ g'.vertices, (g'.pred v ≠ [] ↔ g.pred v ≠ [])
  exprOf_source : ∀ v ∈ g'.vertices, g'.pred v = [] → g'.exprOf v = g.exprOf v
  connected : Connected g'

theorem Inlined.exprOf_source {rebuild : Rebuild} {v w : String} {e : Expr}
    (h : Inlined rebuild g v e g') (hw : w ≠ v) (hp : g.pred w = []) :
    g'.exprOf w = g.exprOf w := by
  have hs : w ∉ g.succ v := fun hs => by
    have := (Digraph.mem_pred g v w).mpr ((Digraph.mem_succ g v w).mp hs)
    rw [hp] at this
    cases this
  rw [Graph.exprOf, h.column w hw, if_neg hs, Graph.exprOf]

theorem Reduced.inlined {rebuild : Rebuild} (hr : Expr.BringsNone rebuild.always) {r : String → Nat}
    {g₀ : Graph} (hranked : g.Ranked r) (hg : Planned g) (h : Reduced g₀ g) {v : String} {e : Expr}
    (hi : Inlined rebuild g v e g') : Reduced g₀ g' := by
  refine ⟨fun w hw => h.vertices w ((hi.vertices w).mp hw).1, fun w hw => ?_, fun w hw hp => ?_,
    h.connected.inlined hr hranked hg hi⟩
  · obtain ⟨hw, hne⟩ := (hi.vertices w).mp hw
    exact (hi.pred_ne_nil_iff hranked hne).trans (h.pred_ne_nil_iff w hw)
  · obtain ⟨hw, hne⟩ := (hi.vertices w).mp hw
    have hp : g.pred w = [] := by
      by_contra hn
      exact (hi.pred_ne_nil_iff hranked hne).mpr hn hp
    rw [hi.exprOf_source hne hp, h.exprOf_source w hw hp]

/-- The middle of a plan reduces it. -/
theorem Scheduled.reduced {build : Build} (hr : Expr.BringsNone build)
    {order : List String → List String} {names : List String} (h : Scheduled s g)
    (hc : Connected g) (hm : Graph.middle s build order g names = (g', .ok ())) :
    Reduced g g' := by
  obtain ⟨g₁, hrun, hsame, _⟩ := middle_spec build.complete s order h.planned names
  rw [middle_of_ok hm] at hsame
  have hkeeps := Digraph.keepOnly_keeps order names h.planned.wellFormed
  have hranked := Digraph.level_ranked h.planned.wellFormed h.layered
  have hkept : Reduced g (g.keepOnly order names) :=
    ⟨hkeeps.vertices, fun v hv => hkeeps.pred_ne_nil hv,
      fun v hv _ => by rw [exprOf, hkeeps.attributes v hv, exprOf], hc.keeps hkeeps⟩
  have hred := hrun.keeps (fun g₁ => Planned g₁ ∧ g₁.Ranked g.level ∧ Reduced g g₁)
    (fun _ _ _ _ hi hp =>
      ⟨hi.planned hp.1, hi.ranked hp.2.1, hp.2.2.inlined hr.complete hp.2.1 hp.1 hi⟩)
    ⟨h.planned.keeps hkeeps, hkeeps.ranked hranked, hkept⟩
  obtain ⟨_, _, hred⟩ := hred
  -- finding groups changes none of this
  refine ⟨fun v hv => ?_, fun v hv => ?_, fun v hv hp => ?_, hred.connected.sameContent hsame⟩
  · exact hred.vertices v (hsame.vertices ▸ hv)
  · rw [hsame.pred]
    exact hred.pred_ne_nil_iff v (hsame.vertices ▸ hv)
  · rw [hsame.exprOf]
    exact hred.exprOf_source v (hsame.vertices ▸ hv) (hsame.pred v ▸ hp)

/-! ## Where columns stand -/

/-- The item stands in the row at the place `i`, in the group of the key. -/
def Stands (rs : Rows Key Item) (i : Nat) (k : Key) (x : Item) : Prop :=
  ∃ r group, rs[i]? = some r ∧ (k, group) ∈ r ∧ some x ∈ group

/-- The way in which a column is grouped. -/
def keyOf (g : Graph) (v : String) : Option Key := (g.get? v).bind (·.key)

theorem keyOf_eq {v : String} {c : Column} (hc : g.get? v = some c) : g.keyOf v = c.key := by
  rw [keyOf, hc, Option.bind_some]

/-- The items of a row are the columns of one generation, each under its key and with its
expression. -/
theorem stands_layout_iff (hg : Planned g) (hrest : g.generations.2 = []) {i : Nat} {k : Key}
    {n : String} {e : Expr} : Stands (layout g) i k (n, e) ↔
      n ∈ g.vertices ∧ g.level n = i + 1 ∧ g.keyOf n = some k ∧ g.exprOf n = some e := by
  have hentry : n ∈ g.vertices →
      (entry g n = (k, (n, e)) ↔ g.keyOf n = some k ∧ g.exprOf n = some e) := by
    intro hn
    obtain ⟨c, d, j, _, hc, hx, hj, _⟩ := hg.known n hn
    have hd : g.exprOf n = some d := (exprOf_eq_some_iff g n d).mpr ⟨c, hc, hx⟩
    simp [entry, keyOf, hc, hj, hd]
  have hrow : Stands (layout g) i k (n, e) ↔
      ∃ vs, g.generations.1[i + 1]? = some vs ∧ n ∈ vs ∧ entry g n = (k, (n, e)) := by
    simp only [Stands, layout, List.getElem?_map, List.getElem?_drop, Nat.add_comm 1 i,
      Option.map_eq_some_iff]
    constructor
    · rintro ⟨r, group, ⟨vs, hvs, rfl⟩, hgroup⟩
      obtain ⟨m, hm, hme⟩ := List.mem_map.mp (Rows.mem_group_gather.mp ⟨group, hgroup⟩)
      obtain rfl : m = n := congrArg (fun q => q.2.1) hme
      exact ⟨vs, hvs, hm, hme⟩
    · rintro ⟨vs, hvs, hn, hne⟩
      obtain ⟨group, hgroup⟩ := Rows.mem_group_gather.mpr (List.mem_map.mpr ⟨n, hn, hne⟩)
      exact ⟨_, group, ⟨vs, hvs, rfl⟩, hgroup⟩
  rw [hrow]
  constructor
  · rintro ⟨vs, hvs, hn, hne⟩
    have hmem := Digraph.mem_vertices_of_generation hg.wellFormed (List.mem_of_getElem? hvs) hn
    exact ⟨hmem, Digraph.level_eq hg.wellFormed hvs hn, (hentry hmem).mp hne⟩
  · rintro ⟨hmem, hlevel, hke⟩
    obtain ⟨j, vs, hvs, hn⟩ := Digraph.exists_generation hg.wellFormed hrest hmem
    rw [Digraph.level_eq hg.wellFormed hvs hn] at hlevel
    exact ⟨vs, hlevel ▸ hvs, hn, (hentry hmem).mpr hke⟩

/-! ## Schedules -/

/-- At the row at the place `i` the column is given, or was computed in an earlier row. -/
def Available (g : Graph) (rs : Rows Key Item) (i : Nat) (x : String) : Prop :=
  x ∈ g.sources ∨ ∃ j k e, j < i ∧ Stands rs j k (x, e)

/-- The rows compute each column that is not given once, in its own group, after all that its
expression names. -/
structure Schedules (g : Graph) (rs : Rows Key Item) : Prop where
  once : ∀ v ∈ g.vertices, g.pred v ≠ [] → (itemNames rs).count v = 1
  item : ∀ i k n e, Stands rs i k (n, e) →
    n ∈ g.vertices ∧ g.pred n ≠ [] ∧ g.keyOf n = some k ∧ g.exprOf n = some e
  available : ∀ i k n e, Stands rs i k (n, e) → ∀ x ∈ e.symbols, Available g rs i x

theorem Scheduled.schedules (h : Scheduled s g) (hc : Connected g) : Schedules g (layout g) := by
  have hg := h.planned.wellFormed
  have hstands := @stands_layout_iff g h.planned h.layered
  have hcomputed {n : String} (hn : n ∈ g.vertices) {i : Nat} (hl : g.level n = i + 1) :
      g.pred n ≠ [] := fun hp => by
    rw [(Digraph.level_eq_zero_iff hg h.layered hn).mpr hp] at hl
    cases hl
  refine ⟨fun v hv hp => count_itemNames_layout hg h.layered hv hp, fun i k n e hs => ?_,
    fun i k n e hs x hx => ?_⟩
  · obtain ⟨hn, hl, hk, he⟩ := hstands.mp hs
    exact ⟨hn, hcomputed hn hl, hk, he⟩
  · obtain ⟨hn, hl, _, he⟩ := hstands.mp hs
    have hedge := hc n e x (hcomputed hn hl) he hx
    have hxg := hg.fst_mem _ hedge
    have hlt := Digraph.level_ranked hg h.layered _ hedge
    by_cases hp : g.pred x = []
    · exact Or.inl ((g.mem_sources x).mpr ⟨hxg, hp⟩)
    · -- the level of `x` is positive and below that of `n`
      have hpos : g.level x ≠ 0 := fun h0 => hp ((Digraph.level_eq_zero_iff hg h.layered hxg).mp h0)
      obtain ⟨c, d, k', _, hc', hd, hk', _⟩ := h.planned.known x hxg
      exact Or.inr ⟨g.level x - 1, k', d, by simp only at hlt; omega, hstands.mpr ⟨hxg, by omega,
        (keyOf_eq hc').trans hk', (exprOf_eq_some_iff g x d).mpr ⟨c, hc', hd⟩⟩⟩

theorem not_mem_itemNames_of_source (hg : g.WellFormed) {v : String} (hv : v ∈ g.sources) :
    v ∉ itemNames (layout g) := by
  intro hm
  rcases Digraph.generations_eq g with ⟨hnil, _⟩ | ⟨later, hlater⟩
  · rw [hnil] at hv
    cases hv
  · have hnd := Digraph.nodup_generations hg
    rw [hlater, List.flatten_cons, List.nodup_append] at hnd
    rw [(itemNames_layout g).mem_iff, hlater, List.drop_one, List.tail_cons] at hm
    exact hnd.2.2 v hv v hm rfl

/-- Columns are computed where they are bound. -/
theorem Bound.pred_ne_nil_iff (h : Bound bs g) (v : String) : g.pred v ≠ [] ↔ Keyed bs v := by
  refine ⟨fun hp => ?_, fun hv => hv.pred_ne_nil h⟩
  obtain ⟨u, hu⟩ := Digraph.exists_mem_of_pred_ne_nil hp
  obtain ⟨e, he, _⟩ := (h.edges u v).mp hu
  exact ⟨e, he⟩

/-- A given column stands for what its name reads as. -/
theorem exprOf_source (h : start s bs = .ok g) {v : String} (hv : v ∈ g.vertices)
    (hp : g.pred v = []) :
    ∃ n, Slot.ofName v = .ok (.column n) ∧ g.exprOf v = some (.symbol n) := by
  obtain ⟨e, he⟩ := (start_started h).planned.exprOf v hv
  rcases start_cases s bs with ⟨x, _, hx⟩ | ⟨g₀, g₁, r, hcreate, hclass, hx⟩
  · rw [h] at hx; cases hx
  · rw [h] at hx
    cases r with
    | error x => cases hx
    | ok u =>
      cases hx
      have hsame := classifyAll_sameContent s g₀
      rw [hclass] at hsame
      obtain ⟨c, d, hc, hget, -, hexpr⟩ :=
        (create_bound hcreate).2.2 v (hsame.vertices ▸ hv) (hsame.pred v ▸ hp)
      rw [hsame.exprOf, Graph.exprOf, hget, Option.bind_some, hexpr] at he ⊢
      unfold Content.ofSource at hc
      split at hc <;> cases hc
      · rename_i n hn
        exact ⟨n, hn, rfl⟩
      · cases he

/-- A plan with or without its middle can be put into rows and is the started one reduced. -/
theorem Started.plan (h : Started s bs g) (hplan : g' = g ∨ ∃ build order names,
      Expr.BringsNone build ∧ middle s build order g names = (g', .ok ())) :
    Scheduled s g' ∧ Reduced g g' := by
  rcases hplan with rfl | ⟨build, order, names, hr, hm⟩
  · exact ⟨h.scheduled, fun _ => id, fun _ _ => Iff.rfl, fun _ _ _ => rfl, h.connected⟩
  · exact ⟨h.scheduled.middle hr hm, h.scheduled.reduced hr h.connected hm⟩

/-- **The rows of a plan are a schedule.** With or without its middle, whatever is asked for, in
whatever order columns are merged and however nodes are built, as long as that brings in no names:
each column that is not given is an item once, under its own
key, and what its expression names is given or an item of an earlier row. The given columns are
those that are not bound; they stand for themselves and are no items. So no bound column is lost
with the first generation. -/
theorem rows_schedule (hstart : start s bs = .ok g) (hplan : g' = g ∨ ∃ build order names,
      Expr.BringsNone build ∧ middle s build order g names = (g', .ok ())) :
    ∃ rs, rows g' = .ok rs ∧ Schedules g' rs ∧
      (∀ v ∈ g'.sources, v ∉ itemNames rs ∧ ¬ Keyed bs v ∧
        ∃ n, Slot.ofName v = .ok (.column n) ∧ g'.exprOf v = some (.symbol n)) ∧
      (∀ v, Keyed bs v → v ∈ g.vertices) ∧
      ∀ v ∈ g'.vertices, Keyed bs v → (itemNames rs).count v = 1 := by
  have hs := start_started hstart
  obtain ⟨hsched, hred⟩ := hs.plan hplan
  have hrows := hsched.schedules hred.connected
  have hkeyed : ∀ v ∈ g'.vertices, (g'.pred v ≠ [] ↔ Keyed bs v) := fun v hv =>
    (hred.pred_ne_nil_iff v hv).trans (hs.toBound.pred_ne_nil_iff v)
  refine ⟨layout g', rows_eq hsched.planned hsched.layered, hrows, fun v hv => ?_,
    fun v hv => hv.mem_vertices hs.toBound, fun v hv hk => hrows.once v hv ((hkeyed v hv).mpr hk)⟩
  obtain ⟨hvg, hp⟩ := (g'.mem_sources v).mp hv
  refine ⟨not_mem_itemNames_of_source hsched.planned.wellFormed hv,
    fun hk => (hkeyed v hvg).mpr hk hp, ?_⟩
  have hpg : g.pred v = [] := by
    by_contra hn
    exact (hred.pred_ne_nil_iff v hvg).mpr hn hp
  rw [hred.exprOf_source v hvg hp]
  exact exprOf_source hstart (hred.vertices v hvg) hpg

/-- A column without symbols, and the rank and the mean of one that stands for another such. -/
def symbolFree : List (Slot × Value) :=
  [(.column "k", .expr (.apply (.named "today") [])),
    (.column "a", .expr (.apply (.named "days") [])), (.column "b", .expr (.symbol "a")),
    computed "c" "cs_rank" "b", computed "d" "ts_mean" "b"]

/-- One column is inlined; what has no symbols is computed all the same, each from a source of its
own. -/
theorem rows_schedule_symbolFree : ∃ g g' rs, start {} symbolFree = .ok g ∧
    middle {} Expr.build id g ["k", "c", "d"] = (g', .ok ()) ∧ "a" ∉ g'.vertices ∧
    rows g' = .ok rs ∧ Schedules g' rs ∧
    ∀ n ∈ ["k", "b", "c", "d"], (itemNames rs).count n = 1 := by
  let g : Graph := (start {} symbolFree).toOption.getD {}
  have hg : start {} symbolFree = .ok g := rfl
  have hok : (middle {} Expr.build id g ["k", "c", "d"]).2 = .ok () := by decide +kernel
  have hgone : "a" ∉ (middle {} Expr.build id g ["k", "c", "d"]).1.vertices := by decide +kernel
  have hstay : ∀ n ∈ ["k", "b", "c", "d"],
      n ∈ (middle {} Expr.build id g ["k", "c", "d"]).1.vertices := by
    decide +kernel
  have hkeyed : ∀ n ∈ ["k", "b", "c", "d"], Keyed symbolFree n := by
    simp [Keyed, Binds, symbolFree, computed]
  rcases hm : middle {} Expr.build id g ["k", "c", "d"] with ⟨g', r⟩
  rw [hm] at hok hgone hstay
  cases (hok : r = .ok ())
  obtain ⟨rs, hrs, hsched, _, _, honce⟩ := rows_schedule hg
    (Or.inr ⟨Expr.build, id, ["k", "c", "d"], Expr.bringsNothing_build.bringsNone, hm⟩)
  exact ⟨g, g', rs, hg, hm, hgone, hrs, hsched, fun n hn => honce n (hstay n hn) (hkeyed n hn)⟩

end Graph

end Plan

end FactorPlan
