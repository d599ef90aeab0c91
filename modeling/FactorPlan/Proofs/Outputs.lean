import FactorPlan.Proofs.Completion
import FactorPlan.Proofs.Schedule

/-!
Requested outputs. A request lists bound columns. It is delivered where the middle of the plan finds
them all, keeps them, and the rows of the graph that it leaves hold each of them once (`Delivers`).
The middle may stop, but for two reasons only: a column cannot be put into another one (`Refused`),
or a column of the merged graph has no group (`Ungrouped`); a column that is not found is none.

What is proved: a request is delivered where nothing bound uses the columns it lists
(`delivers_of_unused`), and a column that is used is not delivered when it is all that is asked for
(`unknown_of_used`). So all requests are delivered exactly where no bound column is used by another
(`delivers_iff_unused`).

What carries the proof is that a plan whose listed columns are computed and used by nothing is kept
by every step of merging, also by one that is stopped half way (`Holds.inline`).
-/

namespace FactorPlan

namespace Plan

namespace Graph

open Formula (Value)

/-- The column is bound. -/
def Keyed (bs : List (Slot × Value)) (n : String) : Prop := ∃ e, Binds bs n e

/-- No bound expression is computed from the column. -/
def Unused (bs : List (Slot × Value)) (n : String) : Prop := ∀ m e, Binds bs m e → n ∉ origins e

/-- The graph and the outcome of a run that ended in finding no group for a column. -/
def Ungrouped (s : Setting) (p : Graph × Except PlanError Unit) : Prop :=
  ∃ v ∈ p.1.vertices, ∃ y, classOf s ((p.1.get? v).bind (·.expr)) = .error (.group y) ∧
    p.2 = .error (.group y)

/-- The middle of a plan returns, or is stopped where a column cannot be put into another or has no
group; in any case it keeps the listed columns, and the rows hold each of them exactly once. -/
structure Delivers (s : Setting) (build : Build) (order : List String → List String) (g : Graph)
    (names : List String) : Prop where
  outcome : (middle s build order g names).2 = .ok () ∨
    Refused build (middle s build order g names) ∨ Ungrouped s (middle s build order g names)
  stays : ∀ n ∈ names, n ∈ (middle s build order g names).1.vertices
  once : ∃ rs, rows (middle s build order g names).1 = .ok rs ∧
    ∀ n ∈ names, (itemNames rs).count n = 1

section Bound
variable {bs : List (Slot × Value)} {g : Graph} {n : String}

theorem succ_eq_nil_iff_unused (h : Bound bs g) : g.succ n = [] ↔ Unused bs n := by
  rw [Digraph.succ_eq_nil_iff]
  constructor
  · intro hs m e he hn
    exact hs m ((h.edges n m).mpr ⟨e, he, hn⟩)
  · intro hu m hm
    obtain ⟨e, he, hn⟩ := (h.edges n m).mp hm
    exact hu m e he hn

theorem Keyed.mem_vertices (hn : Keyed bs n) (h : Bound bs g) : n ∈ g.vertices := by
  obtain ⟨e, he⟩ := hn
  obtain ⟨c, _, hc, _⟩ := h.column n e he
  exact (Digraph.mem_vertices_iff g n).mpr ⟨c, hc⟩

theorem Keyed.pred_ne_nil (hn : Keyed bs n) (h : Bound bs g) : g.pred n ≠ [] := by
  obtain ⟨e, he⟩ := hn
  obtain ⟨u, hu⟩ := List.exists_mem_of_ne_nil _ (origins_ne_nil e)
  exact Digraph.pred_ne_nil_of_mem ((h.edges u n).mpr ⟨e, he, hu⟩)

end Bound

/-! ## Listed columns -/

/-- A plan of which the listed columns are computed and used by nothing. -/
structure Holds (r : String → Nat) (names : List String) (g : Graph) : Prop where
  planned : Planned g
  ranked : g.Ranked r
  listed : ∀ n ∈ names, n ∈ g.vertices ∧ g.pred n ≠ [] ∧ g.succ n = []

theorem Planned.classify {g : Graph} (h : Planned g) (s : Setting) (depth : Nat) (v : String) :
    Planned (classify s g depth v).1 := by
  unfold Graph.classify
  split
  · exact h
  · exact h
  · split
    · exact h
    · split
      · exact h.update v (fun _ => rfl) fun c e k ss hx hk hss => ⟨e, k, ss, hx, hk, hss⟩
      · exact h.update v (fun _ => rfl) fun c e k ss hx hk hss => ⟨e, _, _, hx, rfl, rfl⟩

namespace Holds

variable {r : String → Nat} {names : List String} {g : Graph}

/-- Inlining a column keeps the listed ones, also where it is stopped half way. -/
theorem inline (build : Build) (v : String) (h : Holds r names g) :
    Holds r names (inline build g v).1 := by
  have hcontracts := inline_contracts build h.planned.wellFormed v
  refine ⟨h.planned.inline build v, hcontracts.ranked r h.ranked, fun n hn => ?_⟩
  obtain ⟨hv, hp, hs⟩ := h.listed n hn
  rcases inline_shape build h.planned.wellFormed v with ⟨hvert, hedges⟩ | ⟨hused, hb⟩
  · rw [hvert, Digraph.pred_congr hedges, Digraph.succ_congr hedges]
    exact ⟨hv, hp, hs⟩
  · have hne : n ≠ v := by
      rintro rfl
      exact hused hs
    have hloop : (v, v) ∉ g.edges := fun hl => Nat.lt_irrefl _ (h.ranked _ hl)
    refine ⟨(hb.vertices n).mpr ⟨hv, hne⟩, (hb.pred_ne_nil_iff hloop hne).mpr hp, ?_⟩
    have hnone := (Digraph.succ_eq_nil_iff g n).mp hs
    refine (Digraph.succ_eq_nil_iff _ n).mpr fun b hbe => ?_
    rcases ((hb.edges n b).mp hbe).1 with hbe | ⟨hbe, _⟩
    · exact hnone b hbe
    · exact hnone v hbe

/-- Finding groups keeps the listed columns, also where a column has none. -/
theorem classifyAll (s : Setting) (h : Holds r names g) : Holds r names (classifyAll s g).1 := by
  have hsame := classifyAll_sameContent s g
  have hplanned := forEach_keeps (f := fun g (p : Nat × String) => Graph.classify s g p.1 p.2) Planned
    (fun _ p hg => hg.classify s p.1 p.2) h.planned
    (g.generations.1.mapIdx (fun i vs => vs.map (i, ·))).flatten
  refine ⟨?_, ?_, fun n hn => ?_⟩
  · unfold Graph.classifyAll
    dsimp only
    split
    · rename_i hrun
      rw [hrun] at hplanned
      exact hplanned
    · rename_i hrun
      rw [hrun] at hplanned
      exact hplanned
  · rw [Digraph.Ranked, hsame.edges]
    exact h.ranked
  · rw [hsame.vertices, hsame.pred, Digraph.succ_congr hsame.edges]
    exact h.listed n hn

theorem keepOnly {order : List String → List String} (horder : ∀ vs v, v ∈ order vs ↔ v ∈ vs)
    (h : Holds r names g) : Holds r names (g.keepOnly order names) := by
  have hkeeps := Digraph.keepOnly_keeps order names h.planned.wellFormed
  refine ⟨h.planned.keeps hkeeps, hkeeps.ranked h.ranked, fun n hn => ?_⟩
  obtain ⟨hv, hp, hs⟩ := h.listed n hn
  have hmem := Digraph.mem_keepOnly_of_sink horder names h.planned.wellFormed hv hs hn
  refine ⟨hmem, (hkeeps.pred_ne_nil hmem).mpr hp, (Digraph.succ_eq_nil_iff _ n).mpr fun b hb => ?_⟩
  exact (Digraph.succ_eq_nil_iff g n).mp hs b ((hkeeps.edges (n, b)).mp hb).1

/-- The middle keeps the listed columns, however it ends. -/
theorem middle {order : List String → List String} (horder : ∀ vs v, v ∈ order vs ↔ v ∈ vs)
    (s : Setting) (build : Build) (h : Holds r names g) :
    Holds r names (middle s build order g names).1 := by
  have hstep : ∀ g v, Holds r names g → Holds r names (Graph.inline build g v).1 :=
    fun _ v hg => hg.inline build v
  have hcolumns := mergeColumns_keeps build (Holds r names)
    (fun _ v hg => mergeNode_keeps build _ hstep hg v) order (h.keepOnly horder) names
  unfold Graph.middle
  dsimp only
  split
  · rename_i hrun
    rw [hrun] at hcolumns
    exact hcolumns
  · rename_i g₁ hrun
    rw [hrun] at hcolumns
    have hnegated := mergeNegated_keeps build (Holds r names) hstep hcolumns names
    split
    · rename_i hrun
      rw [hrun] at hnegated
      exact hnegated
    · rename_i hrun
      rw [hrun] at hnegated
      exact hnegated.classifyAll s

/-- The rows hold the listed columns once. -/
theorem rows (h : Holds r names g) :
    ∃ rs, rows g = .ok rs ∧ ∀ n ∈ names, (itemNames rs).count n = 1 := by
  have hrest := Digraph.generations_rest_eq_nil h.planned.wellFormed h.ranked
  refine ⟨_, rows_eq h.planned hrest, fun n hn => ?_⟩
  obtain ⟨hv, hp, _⟩ := h.listed n hn
  exact count_itemNames_layout h.planned.wellFormed hrest hv hp

end Holds

/-! ## Requests -/

variable {s : Setting} {build : Build} {order : List String → List String}
  {bs : List (Slot × Value)} {g : Graph}

/-- What is known can fail to be grouped only in its operators. -/
theorem ungrouped_of_classifyAll_error (hg : Planned g) (hrest : g.generations.2 = []) {x : PlanError}
    (h : (classifyAll s g).2 = .error x) : Ungrouped s (classifyAll s g) := by
  have hsame := classifyAll_sameContent s g
  rcases classifyAll_error hg.wellFormed h with ⟨_, hne⟩ | ⟨v, hv, hx⟩
  · exact absurd hrest hne
  · obtain ⟨e, he⟩ := hg.content hv
    have hgroup : ∃ y, x = .group y := by
      rw [he, classOf] at hx
      split at hx
      · cases hx; exact ⟨_, rfl⟩
      · split at hx
        · cases hx; exact ⟨_, rfl⟩
        · cases hx
    obtain ⟨y, rfl⟩ := hgroup
    refine ⟨v, hsame.vertices ▸ hv, y, ?_, h⟩
    obtain ⟨c, hc, hce⟩ := Option.bind_eq_some_iff.mp he
    obtain ⟨d, hd, _, hde⟩ := hsame.column v c hc
    rw [hd, Option.bind_some, hde]
    rw [hc, Option.bind_some] at hx
    exact hx

/-- Columns that nothing uses are delivered. -/
theorem delivers_of_unused (horder : ∀ vs v, v ∈ order vs ↔ v ∈ vs) (h : Started s bs g)
    {names : List String} (hnames : ∀ n ∈ names, Keyed bs n ∧ Unused bs n) :
    Delivers s build order g names := by
  have hr := Digraph.level_ranked h.wellFormed h.layered
  have hlisted : ∀ n ∈ names, n ∈ g.vertices ∧ g.pred n ≠ [] ∧ g.succ n = [] := fun n hn =>
    ⟨(hnames n hn).1.mem_vertices h.toBound, (hnames n hn).1.pred_ne_nil h.toBound,
      (succ_eq_nil_iff_unused h.toBound).mpr (hnames n hn).2⟩
  have hmiddle : Holds _ names (middle s build order g names).1 :=
    Holds.middle horder s build ⟨h.planned, hr, hlisted⟩
  refine ⟨?_, fun n hn => (hmiddle.listed n hn).1, hmiddle.rows⟩
  rcases middle_complete build order s g names with hsame | hstop
  · -- pruning and merging succeed, so what can fail is finding groups
    obtain ⟨g₁, hrun, hrows⟩ := middle_ok build.complete s horder h.planned hr
      fun n hn => ⟨(hlisted n hn).1, (hlisted n hn).2.2⟩
    have hkeeps := Digraph.keepOnly_keeps order names h.wellFormed
    have hg₁ := hrun.planned (h.planned.keeps hkeeps)
    have hrest₁ := Digraph.generations_rest_eq_nil hg₁.wellFormed (hrun.ranked (hkeeps.ranked hr))
    rw [hsame, hrows]
    cases hend : (classifyAll s g₁).2 with
    | ok u => exact Or.inl rfl
    | error x => exact Or.inr (Or.inr (ungrouped_of_classifyAll_error hg₁ hrest₁ hend))
  · exact Or.inr (Or.inl hstop)

/-- A request for one column that is used leaves nothing of the graph, and the column is not
found. -/
theorem unknown_of_used (build : Build) (horder : ∀ vs v, v ∈ order vs ↔ v ∈ vs) (h : Started s bs g) {n : String}
    (hn : ¬ Unused bs n) : (middle s build order g [n]).2 = .error .unknown := by
  have hr := Digraph.level_ranked h.wellFormed h.layered
  have hused : ∀ v ∈ [n], g.succ v ≠ [] := by
    intro v hv
    rw [List.mem_singleton.mp hv]
    exact fun hs => hn ((succ_eq_nil_iff_unused h.toBound).mp hs)
  -- no sink is asked for, so pruning goes up to the given columns and takes them too
  have hgone := Digraph.not_mem_keepOnly horder h.wellFormed hr
    (fun v hv => Digraph.level_lt h.wellFormed h.layered hv) hused n
  have hnone := (Digraph.get?_eq_none_iff _ n).mpr hgone
  have hnil : order [] = [] := by
    rw [List.eq_nil_iff_forall_not_mem]
    exact fun v hv => List.not_mem_nil ((horder [] v).mp hv)
  have hround : mergeRound build (g.keepOnly order [n]) [n] =
      (g.keepOnly order [n], [], .ok ()) := by
    simp only [mergeRound, mergeNode, hnone, List.append_nil]
  have hcolumns : mergeColumns build order (g.keepOnly order [n]) [n] =
      (g.keepOnly order [n], .ok ()) := by
    simp only [mergeColumns, mergeFrom, hround, hnil, List.isEmpty_cons, List.isEmpty_nil, if_true,
      Bool.false_eq_true, if_false]
  have hnegated : mergeNegated build (g.keepOnly order [n]) [n] =
      (g.keepOnly order [n], .error .unknown) := by
    simp only [mergeNegated, forEach, mergeNegatedAt, hnone, Option.bind_none]
  simp only [middle, hcolumns, hnegated]

/-- **When no output is lost.** A request is delivered where nothing bound uses the columns it
lists; and every request for bound columns is delivered exactly where no bound column is used by
a bound expression. -/
theorem delivers_iff_unused (s : Setting) (build : Build) (order : List String → List String)
    (horder : ∀ vs v, v ∈ order vs ↔ v ∈ vs) (h : start s bs = .ok g) :
    (∀ names, (∀ n ∈ names, Keyed bs n ∧ Unused bs n) → Delivers s build order g names) ∧
    ((∀ names, (∀ n ∈ names, Keyed bs n) → Delivers s build order g names) ↔
      ∀ n, Keyed bs n → Unused bs n) := by
  have hstart := start_started h
  refine ⟨fun names hnames => delivers_of_unused horder hstart hnames, fun hall n hn => ?_,
    fun hall names hnames => delivers_of_unused horder hstart fun n hn =>
      ⟨hnames n hn, hall n (hnames n hn)⟩⟩
  by_contra hused
  have hsingle : ∀ m ∈ [n], Keyed bs m := fun m hm => List.mem_singleton.mp hm ▸ hn
  have hunknown := unknown_of_used build horder hstart hused
  rcases (hall [n] hsingle).outcome with hok | ⟨_, _, x, _, hx⟩ | ⟨_, _, y, _, hy⟩
  · rw [hunknown] at hok; cases hok
  · rw [hunknown] at hx; cases hx
  · rw [hunknown] at hy; cases hy

-- Two requests that are delivered although the middle stops: a comparison cannot go into a sum, and
-- a group cannot be that of a sum.
example : (start {} [(.column "c", .expr (.apply (.rel .gt) [.symbol "OPEN", .symbol "CLOSE"])),
      (.column "d", .expr (.sum [.symbol "c", .one]))]).toOption.map
    (fun g => (middle {} Expr.build id g ["d"]).2) = some (.error (.build .wrongKind)) := by
  decide +kernel

example : (start {} [(.column "a", .expr (.sum [.symbol "CLOSE", .symbol "OPEN"])),
      (.column "b", .expr (.apply (.named "gp_rank") [.symbol "a", .symbol "CLOSE"]))]).toOption.map
    (fun g => (middle {} Expr.build id g ["b"]).2) = some (.error (.group .unnamedGroup)) := by
  decide +kernel

/-- A column and one that is computed from it. -/
def meanOfReturns : List (Slot × Value) :=
  [(.column "RETURNS", .expr (.sum [.symbol "OPEN", .symbol "CLOSE"])),
    (.column "b", .expr (.apply (.named "ts_mean") [.symbol "RETURNS"]))]

/-- What is computed from the other column is delivered; not so every request. -/
theorem delivers_meanOfReturns : ∃ g, start {} meanOfReturns = .ok g ∧
    Delivers {} Expr.build id g ["b"] ∧
    ¬ ∀ names, (∀ n ∈ names, Keyed meanOfReturns n) → Delivers {} Expr.build id g names := by
  have h : start {} meanOfReturns = .ok _ := rfl
  have hall := delivers_iff_unused {} Expr.build id (fun _ _ => Iff.rfl) h
  refine ⟨_, h, hall.1 ["b"] ?_, fun hdel => ?_⟩
  · intro n hn
    rw [List.mem_singleton.mp hn]
    refine ⟨⟨_, List.mem_cons_of_mem _ List.mem_cons_self⟩, fun m e he => ?_⟩
    rcases List.mem_cons.mp he with he | he
    · cases he; decide +kernel
    · cases List.mem_singleton.mp he; decide +kernel
  · refine hall.2.mp hdel "RETURNS" ⟨_, List.mem_cons_self⟩ "b" _
      (List.mem_cons_of_mem _ List.mem_cons_self) ?_
    decide +kernel

/-- Asked for together with what is computed from it, the column is lost: it is inlined, and then
not found. -/
theorem returns_lost : ∃ g, start {} meanOfReturns = .ok g ∧
    (middle {} Expr.build id g ["RETURNS", "b"]).2 = .error .unknown ∧
    "RETURNS" ∉ (middle {} Expr.build id g ["RETURNS", "b"]).1.vertices :=
  have h : start {} meanOfReturns = .ok _ := rfl
  ⟨_, h, by decide +kernel, by decide +kernel⟩

end Graph

end Plan

end FactorPlan
