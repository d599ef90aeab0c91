import FactorPlan.Proofs.Bridging
import FactorPlan.Proofs.Dependency
import FactorPlan.Proofs.Replacement

/-!
Inlining columns. `inline_steps` says once what inlining a column can do: nothing, or remove the
column, join its neighbours and put its content into those that used it. In any graph it keeps
what leads where (`inline_contracts`).

`Initialised g` says that what inlining and merging ask for is known of every column, so that no
step fails for want of knowledge. `Planned g` is the invariant of all passes: moreover the content
of a column is an expression, and a column that is not given stands for its own name. A column of
such a graph is replaced by its expression (`Inlined`, `inline_cases`). Both merging passes are runs
of such steps (`mergeColumns_inlining`, `mergeNegated_inlining`), so what a step keeps a pass keeps.
-/

namespace FactorPlan

namespace Plan

namespace Graph

open Formula (Value)

/-- Every column is known, and one that is not given stands for itself. -/
structure Planned (g : Graph) : Prop where
  wellFormed : g.WellFormed
  known : ∀ v ∈ g.vertices, ∃ c e k ss, g.get? v = some c ∧ c.expr = some (.expr e) ∧
    c.key = some k ∧ c.symbols = some ss
  named : ∀ v c, g.pred v ≠ [] → g.get? v = some c → c.symbol = some (.expr (.symbol v))

/-- What merging asks for is known of every column, and of one that is not given also what it
stands for. -/
structure Initialised (g : Graph) : Prop where
  wellFormed : g.WellFormed
  known : ∀ v ∈ g.vertices, ∃ c e k ss, g.get? v = some c ∧ c.expr = some e ∧ c.key = some k ∧
    c.symbols = some ss
  symbol : ∀ v c, g.pred v ≠ [] → g.get? v = some c → ∃ x, c.symbol = some x

theorem Planned.initialised {g : Graph} (h : Planned g) : Initialised g := by
  refine ⟨h.wellFormed, ?_, fun v c hp hc => ⟨_, h.named v c hp hc⟩⟩
  intro v hv
  obtain ⟨c, e, k, ss, hc, hx, hk, hss⟩ := h.known v hv
  exact ⟨c, _, k, ss, hc, hx, hk, hss⟩

theorem Started.planned {s : Setting} {bs : List (Slot × Value)} {g : Graph}
    (h : Started s bs g) : Planned g := by
  refine ⟨h.wellFormed, ?_, ?_⟩
  · intro v hv
    obtain ⟨c, e, m, ks, k, hc, hx, _, _, hk, hs⟩ := h.classified v hv
    exact ⟨c, e, k, m.symbols, hc, hx, hk, hs⟩
  · intro v c hp hc
    obtain ⟨u, hu⟩ := Digraph.exists_mem_of_pred_ne_nil hp
    obtain ⟨e, he, _⟩ := (h.edges u v).mp hu
    obtain ⟨c', d, hc', _, hs, _⟩ := h.column v e he
    rw [hc] at hc'
    cases hc'
    exact hs

theorem Planned.keeps {g g' : Graph} (h : Planned g) (hk : Digraph.Keeps g g') : Planned g' := by
  refine ⟨hk.wellFormed, ?_, ?_⟩
  · intro v hv
    rw [hk.attributes v hv]
    exact h.known v (hk.vertices v hv)
  · intro v c hp hc
    have hv : v ∈ g'.vertices := (Digraph.mem_vertices_iff g' v).mpr ⟨c, hc⟩
    rw [hk.attributes v hv] at hc
    exact h.named v c ((hk.pred_ne_nil hv).mp hp) hc

theorem Planned.sameContent {s : Setting} {g g' : Graph} (h : Planned g) (hs : SameContent g g')
    (hc : ∀ v ∈ g.vertices, Classified s g' v) : Planned g' := by
  refine ⟨hs.wellFormed h.wellFormed, ?_, ?_⟩
  · intro v hv
    rw [hs.vertices] at hv
    obtain ⟨c, e, m, ks, k, hc, hx, _, _, hk, hss⟩ := hc v hv
    exact ⟨c, e, k, m.symbols, hc, hx, hk, hss⟩
  · intro v c' hp hc'
    have hv : v ∈ g'.vertices := (Digraph.mem_vertices_iff g' v).mpr ⟨c', hc'⟩
    rw [hs.vertices] at hv
    obtain ⟨c, hget⟩ := (Digraph.mem_vertices_iff g v).mp hv
    obtain ⟨d, hd, hsym, _⟩ := hs.column v c hget
    rw [hc'] at hd
    cases hd
    rw [hsym]
    exact h.named v c (hs.pred v ▸ hp) hget

theorem Planned.exprOf {g : Graph} (h : Planned g) : ∀ v ∈ g.vertices, ∃ e, g.exprOf v = some e := by
  intro v hv
  obtain ⟨c, e, _, _, hc, hx, _⟩ := h.known v hv
  exact ⟨e, (exprOf_eq_some_iff g v e).mpr ⟨c, hc, hx⟩⟩

theorem Planned.content {g : Graph} (h : Planned g) {v : String} (hv : v ∈ g.vertices) :
    ∃ e, (g.get? v).bind (·.expr) = some (.expr e) := by
  obtain ⟨c, e, _, _, hc, hx, _⟩ := h.known v hv
  exact ⟨e, by rw [hc]; exact hx⟩

/-! ## Putting an expression into several columns -/

/-- The content of a column with an expression in place of a symbol, where every node can be
built. -/
def putIn (rebuild : Rebuild) (x e : Content) : Content → Content
  | .expr d =>
    match x, e with
    | .expr x, .expr e => .expr (Expr.replaceWith rebuild (fun y => if y = x then some e else none) d)
    | _, _ => .expr d
  | d => d

/-- The column with an expression in place of a symbol, where every node can be built. -/
def putAt (rebuild : Rebuild) (x e : Content) (c : Column) : Column :=
  { c with expr := c.expr.map (putIn rebuild x e) }

@[simp] theorem putAt_symbol (rebuild : Rebuild) (x e : Content) (c : Column) :
    (putAt rebuild x e c).symbol = c.symbol := rfl

@[simp] theorem putAt_key (rebuild : Rebuild) (x e : Content) (c : Column) :
    (putAt rebuild x e c).key = c.key := rfl

@[simp] theorem putAt_symbols (rebuild : Rebuild) (x e : Content) (c : Column) :
    (putAt rebuild x e c).symbols = c.symbols := rfl

theorem putAt_expr (rebuild : Rebuild) (v : String) (e d : Expr) {c : Column}
    (h : c.expr = some (.expr d)) :
    (putAt rebuild (.expr (.symbol v)) (.expr e) c).expr =
      some (.expr (Expr.putFor rebuild v e d)) := by
  simp only [putAt, h, Option.map_some]
  rfl

theorem exists_putAt_expr (rebuild : Rebuild) (x e : Content) {c : Column} {d : Content}
    (h : c.expr = some d) : ∃ d', (putAt rebuild x e c).expr = some d' :=
  ⟨putIn rebuild x e d, by simp only [putAt, h, Option.map_some]⟩

theorem substitute_always (rebuild : Rebuild) (x e d : Content) :
    substitute rebuild.always x e d = .ok (putIn rebuild x e d) := by
  cases d with
  | several ns => rfl
  | expr d => cases x <;> cases e <;> simp [substitute, putIn, Expr.tryReplace_always, Except.map]

theorem substituteAt_always {rebuild : Rebuild} {x e d : Content} {g : Graph} {v : String}
    (h : (g.get? v).bind (·.expr) = some d) :
    substituteAt rebuild.always x e g v =
      (g.update v (fun c => { c with expr := some (putIn rebuild x e d) }), .ok ()) := by
  simp only [substituteAt, h, substitute_always]

theorem forEach_substituteAt (rebuild : Rebuild) (x e : Content) (vs : List String) (g : Graph)
    (hvs : vs.Nodup) (hknown : ∀ v ∈ vs, ∃ d, (g.get? v).bind (·.expr) = some d) :
    ∃ g', forEach (substituteAt rebuild.always x e) g vs = (g', .ok ()) ∧ g'.edges = g.edges ∧
      g'.vertices = g.vertices ∧
      ∀ w, g'.get? w = if w ∈ vs then (g.get? w).map (putAt rebuild x e) else g.get? w := by
  induction vs generalizing g with
  | nil => exact ⟨g, rfl, rfl, rfl, fun w => by simp⟩
  | cons v vs ih =>
    rw [List.nodup_cons] at hvs
    obtain ⟨d, hd⟩ := hknown v (by simp)
    obtain ⟨c, hc, hcd⟩ := Option.bind_eq_some_iff.mp hd
    let put (c : Column) : Column := { c with expr := some (putIn rebuild x e d) }
    have hrest : ∀ w ∈ vs, ∃ d, ((Digraph.update g v put).get? w).bind (·.expr) = some d := by
      intro w hw
      have hne : w ≠ v := fun h => hvs.1 (h ▸ hw)
      rw [Digraph.get?_update, if_neg hne]
      exact hknown w (by simp [hw])
    obtain ⟨g', hrun, hedges, hvert, hget⟩ := ih _ hvs.2 hrest
    refine ⟨g', ?_, hedges, hvert.trans (Digraph.vertices_update _ _ _), ?_⟩
    · unfold forEach
      rw [substituteAt_always hd]
      exact hrun
    · intro w
      rw [hget, Digraph.get?_update]
      by_cases hwv : w = v
      · subst hwv
        simp [hvs.1, hc, put, putAt, hcd]
      · simp [hwv]

/-! ## One column -/

/-- The graph `g'` is `g` with the column `v` inlined: a column that is neither given nor unused
is gone, its expression `e` stands in the columns that used it, and they depend on what it
depended on. -/
structure Inlined (rebuild : Rebuild) (g : Graph) (v : String) (e : Expr) (g' : Graph) : Prop where
  wellFormed : g'.WellFormed
  pred_ne_nil : g.pred v ≠ []
  succ_ne_nil : g.succ v ≠ []
  expr : g.exprOf v = some e
  vertices : ∀ w, w ∈ g'.vertices ↔ w ∈ g.vertices ∧ w ≠ v
  edges : ∀ a b, (a, b) ∈ g'.edges ↔
    ((a, b) ∈ g.edges ∨ ((a, v) ∈ g.edges ∧ (v, b) ∈ g.edges)) ∧ a ≠ v ∧ b ≠ v
  column : ∀ w, w ≠ v → g'.get? w =
    if w ∈ g.succ v then (g.get? w).map (putAt rebuild (.expr (.symbol v)) (.expr e))
    else g.get? w

/-- Joining the neighbours of a column and removing it, once its expression stands where it was
used. -/
theorem inlined_of_substituted {rebuild : Rebuild} {g g₁ : Graph} {v : String} {e : Expr}
    (hg : g.WellFormed) (hp : g.pred v ≠ []) (hs : g.succ v ≠ []) (he : g.exprOf v = some e)
    (hedges : g₁.edges = g.edges) (hvert : g₁.vertices = g.vertices)
    (hget : ∀ w, g₁.get? w =
      if w ∈ g.succ v then (g.get? w).map (putAt rebuild (.expr (.symbol v)) (.expr e))
      else g.get? w) :
    Inlined rebuild g v e
      ((g₁.addEdges (Digraph.crossing (g.pred v) (g.succ v))).removeNode v) := by
  have hb := Digraph.bridged_joined hg hedges hvert hp
  exact ⟨hb.wellFormed, hp, hs, he, hb.vertices, hb.edges,
    fun w hw => (Digraph.get?_joined hg hvert hw).trans (hget w)⟩

/-- What inlining a column does: it fails if the column is not there, leaves it if it is given or
unused, and otherwise puts its content into what uses it, joins its neighbours and removes it. -/
theorem inline_steps (rebuild : Rebuild) {g : Graph} (h : Initialised g) (v : String) :
    (v ∉ g.vertices ∧ inline rebuild.always g v = (g, .error .unknown)) ∨
    (v ∈ g.vertices ∧ inline rebuild.always g v = (g, .ok ())) ∨
    (v ∈ g.vertices ∧ g.pred v ≠ [] ∧ g.succ v ≠ [] ∧ ∃ c e x, ∃ g₁ : Graph, g.get? v = some c ∧
      c.expr = some e ∧ c.symbol = some x ∧ g₁.edges = g.edges ∧ g₁.vertices = g.vertices ∧
      (∀ w, g₁.get? w =
        if w ∈ g.succ v then (g.get? w).map (putAt rebuild x e) else g.get? w) ∧
      inline rebuild.always g v =
        ((g₁.addEdges (Digraph.crossing (g.pred v) (g.succ v))).removeNode v, .ok ())) := by
  by_cases hv : v ∈ g.vertices
  · obtain ⟨c, e, _, _, hc, hx, _, _⟩ := h.known v hv
    -- sources and sinks stay
    by_cases hn : g.pred v = [] ∨ g.succ v = []
    · refine Or.inr (Or.inl ⟨hv, ?_⟩)
      have hif : ((Digraph.pred g v).isEmpty || (Digraph.succ g v).isEmpty) = true := by
        rcases hn with hn | hn <;> simp [hn]
      unfold inline
      simp only [hc, hif, if_true]
    · rw [not_or] at hn
      obtain ⟨x, hs⟩ := h.symbol v c hn.1 hc
      have hif : ((Digraph.pred g v).isEmpty || (Digraph.succ g v).isEmpty) = false := by
        simp [hn.1, hn.2]
      have hknown : ∀ w ∈ g.succ v, ∃ d, (g.get? w).bind (·.expr) = some d := by
        intro w hw
        obtain ⟨d, y, _, _, hd, hy, _⟩ :=
          h.known w (h.wellFormed.snd_mem _ ((Digraph.mem_succ g v w).mp hw))
        exact ⟨y, by rw [hd]; exact hy⟩
      obtain ⟨g₁, hrun, hedges, hvert, hget⟩ := forEach_substituteAt rebuild x e (g.succ v) g
        (h.wellFormed.nodup_succ v) hknown
      refine Or.inr (Or.inr ⟨hv, hn.1, hn.2, c, e, x, g₁, hc, hx, hs, hedges, hvert, hget, ?_⟩)
      unfold inline
      simp only [hc, hif, hx, hs, hrun, Bool.false_eq_true, if_false]
  · refine Or.inl ⟨hv, ?_⟩
    unfold inline
    rw [(Digraph.get?_eq_none_iff g v).mpr hv]

/-- A column that is there is inlined, or stays, without failure; no other is lost, and what is
known stays known. -/
theorem inline_ok (rebuild : Rebuild) {g : Graph} (h : Initialised g) {v : String}
    (hv : v ∈ g.vertices) :
    ∃ g', inline rebuild.always g v = (g', .ok ()) ∧ Initialised g' ∧
      ∀ w ∈ g.vertices, w ≠ v → w ∈ g'.vertices := by
  rcases inline_steps rebuild h v with
    ⟨hn, _⟩ | ⟨_, hi⟩ | ⟨_, hp, _, c, e, x, g₁, _, _, _, hedges, hvert, hget, hi⟩
  · exact absurd hv hn
  · exact ⟨g, hi, h, fun w hw _ => hw⟩
  · have hb := Digraph.bridged_joined h.wellFormed hedges hvert hp
    have hjoined := fun w (hw : w ≠ v) => (Digraph.get?_joined h.wellFormed hvert hw).trans (hget w)
    refine ⟨_, hi, ⟨hb.wellFormed, ?_, ?_⟩, fun w hw hne => (hb.vertices w).mpr ⟨hw, hne⟩⟩
    · intro w hw
      obtain ⟨hw, hne⟩ := (hb.vertices w).mp hw
      obtain ⟨d, y, k, ss, hd, hy, hk, hss⟩ := h.known w hw
      rw [hjoined w hne, hd]
      by_cases hws : w ∈ g.succ v
      · rw [if_pos hws]
        obtain ⟨y', hy'⟩ := exists_putAt_expr rebuild x e hy
        exact ⟨_, y', k, ss, rfl, hy', (putAt_key ..).trans hk, (putAt_symbols ..).trans hss⟩
      · rw [if_neg hws]
        exact ⟨d, y, k, ss, rfl, hy, hk, hss⟩
    · intro w c' hpw hc'
      have hw := (hb.vertices w).mp ((Digraph.mem_vertices_iff _ w).mpr ⟨c', hc'⟩)
      obtain ⟨d, hd⟩ := (Digraph.mem_vertices_iff g w).mp hw.1
      obtain ⟨y, hy⟩ := h.symbol w d (hb.pred_ne_nil_of hpw) hd
      rw [hjoined w hw.2, hd] at hc'
      by_cases hws : w ∈ g.succ v
      · rw [if_pos hws] at hc'
        cases hc'
        exact ⟨y, (putAt_symbol ..).trans hy⟩
      · rw [if_neg hws] at hc'
        cases hc'
        exact ⟨y, hy⟩

theorem inline_initialised (rebuild : Rebuild) {g : Graph} (h : Initialised g) (v : String) :
    Initialised (inline rebuild.always g v).1 := by
  by_cases hv : v ∈ g.vertices
  · obtain ⟨g', hi, h', _⟩ := inline_ok rebuild h hv
    rw [hi]
    exact h'
  · unfold inline
    rw [(Digraph.get?_eq_none_iff g v).mpr hv]
    exact h

/-- Putting an expression into a column changes no edges and loses no column. -/
theorem substituteAt_shape (build : Build) (x e : Content) (g : Graph) (v : String) :
    (substituteAt build x e g v).1.edges = g.edges ∧
      (substituteAt build x e g v).1.vertices = g.vertices := by
  unfold substituteAt
  split
  · exact ⟨rfl, rfl⟩
  · split
    · exact ⟨rfl, Digraph.vertices_update ..⟩
    · exact ⟨rfl, rfl⟩

theorem forEach_substituteAt_shape (build : Build) (x e : Content) (g : Graph) (vs : List String) :
    (forEach (substituteAt build x e) g vs).1.edges = g.edges ∧
      (forEach (substituteAt build x e) g vs).1.vertices = g.vertices :=
  forEach_keeps (fun g' => g'.edges = g.edges ∧ g'.vertices = g.vertices)
    (fun g' v hg' =>
      have hv := substituteAt_shape build x e g' v
      ⟨hv.1.trans hg'.1, hv.2.trans hg'.2⟩) ⟨rfl, rfl⟩ vs

/-- What inlining does to columns and edges in any graph, also where it fails: nothing, or it bridges
a column that is used. -/
theorem inline_shape (build : Build) {g : Graph} (hg : g.WellFormed) (v : String) :
    ((inline build g v).1.vertices = g.vertices ∧ (inline build g v).1.edges = g.edges) ∨
    (g.succ v ≠ [] ∧ Digraph.Bridged g v (inline build g v).1) := by
  unfold inline
  split
  · exact Or.inl ⟨rfl, rfl⟩
  · dsimp only
    split
    · exact Or.inl ⟨rfl, rfl⟩
    · rename_i hn
      have hp : g.pred v ≠ [] := fun hp => hn (by simp [hp])
      have hs : g.succ v ≠ [] := fun hs => hn (by simp [hs])
      split
      · rename_i e x _ _
        have hshape := forEach_substituteAt_shape build x e g (g.succ v)
        split
        · rename_i hrun
          rw [hrun] at hshape
          exact Or.inr ⟨hs, Digraph.bridged_joined hg hshape.1 hshape.2 hp⟩
        · rename_i hrun
          rw [hrun] at hshape
          exact Or.inl ⟨hshape.2, hshape.1⟩
      · exact Or.inl ⟨rfl, rfl⟩

/-- Changing what is known of one column, where all that a plan asks for stays known. -/
theorem Planned.update {g : Graph} (h : Planned g) (v : String) {f : Column → Column}
    (hsymbol : ∀ c, (f c).symbol = c.symbol)
    (hknown : ∀ c e k ss, c.expr = some (.expr e) → c.key = some k → c.symbols = some ss →
      ∃ e' k' ss', (f c).expr = some (.expr e') ∧ (f c).key = some k' ∧
        (f c).symbols = some ss') : Planned (g.update v f) := by
  refine ⟨h.wellFormed.congr (Digraph.vertices_update ..) rfl, ?_, ?_⟩
  · intro w hw
    rw [Digraph.vertices_update] at hw
    obtain ⟨c, e, k, ss, hc, hx, hk, hss⟩ := h.known w hw
    rw [Digraph.get?_update, hc]
    split
    · obtain ⟨e', k', ss', hx', hk', hss'⟩ := hknown c e k ss hx hk hss
      exact ⟨_, e', k', ss', rfl, hx', hk', hss'⟩
    · exact ⟨c, e, k, ss, rfl, hx, hk, hss⟩
  · intro w c hp hc
    rw [Digraph.get?_update] at hc
    split at hc
    · obtain ⟨d, hd, rfl⟩ := Option.map_eq_some_iff.mp hc
      rw [hsymbol]
      exact h.named w d hp hd
    · exact h.named w c hp hc

theorem substitute_expr {build : Build} {x e : Content} {d : Expr} {d' : Content}
    (h : substitute build x e (.expr d) = .ok d') : ∃ d₁, d' = .expr d₁ := by
  cases x <;> cases e
  case expr.expr x e =>
    obtain ⟨d₁, _, rfl⟩ := map_eq_ok.mp h
    exact ⟨d₁, rfl⟩
  all_goals
    cases h
    exact ⟨d, rfl⟩

theorem Planned.substituteAt {g : Graph} (h : Planned g) (build : Build) (x e : Content) (v : String) :
    Planned (substituteAt build x e g v).1 := by
  unfold Graph.substituteAt
  split
  · exact h
  · rename_i d hd
    split
    · rename_i d' hd'
      refine h.update v (fun _ => rfl) fun c e k ss _ hk hss => ?_
      obtain ⟨c, hc, hcd⟩ := Option.bind_eq_some_iff.mp hd
      obtain ⟨d₀, hd₀⟩ := h.content ((Digraph.mem_vertices_iff g v).mpr ⟨c, hc⟩)
      rw [hd] at hd₀
      cases hd₀
      obtain ⟨d₁, rfl⟩ := substitute_expr hd'
      exact ⟨d₁, k, ss, rfl, hk, hss⟩
    · exact h

/-- A plan stays one when a column is inlined, also where that is stopped half way. -/
theorem Planned.inline {g : Graph} (h : Planned g) (build : Build) (v : String) :
    Planned (inline build g v).1 := by
  unfold Graph.inline
  split
  · exact h
  · dsimp only
    split
    · exact h
    · rename_i hn
      have hp : g.pred v ≠ [] := fun hp => hn (by simp [hp])
      split
      · rename_i e x _ _
        have hshape := forEach_substituteAt_shape build x e g (g.succ v)
        have hplanned := forEach_keeps (f := Graph.substituteAt build x e) Planned
          (fun _ w hg => hg.substituteAt build x e w) h (g.succ v)
        split
        · rename_i g₁ hrun
          rw [hrun] at hshape hplanned
          have hb := Digraph.bridged_joined h.wellFormed hshape.1 hshape.2 hp
          have hjoined := fun w (hw : w ≠ v) => Digraph.get?_joined h.wellFormed hshape.2 hw
          refine ⟨hb.wellFormed, fun w hw => ?_, fun w c hpw hc => ?_⟩
          · obtain ⟨hw, hne⟩ := (hb.vertices w).mp hw
            rw [hjoined w hne]
            exact hplanned.known w (hshape.2 ▸ hw)
          · have hne := ((hb.vertices w).mp ((Digraph.mem_vertices_iff _ w).mpr ⟨c, hc⟩)).2
            rw [hjoined w hne] at hc
            refine hplanned.named w c ?_ hc
            rw [Digraph.pred_congr hshape.1]
            exact hb.pred_ne_nil_of hpw
        · rename_i hrun
          rw [hrun] at hplanned
          exact hplanned
      · exact h

/-- Inlining keeps what leads where in any graph, also where it fails. -/
theorem inline_contracts (build : Build) {g : Graph} (hg : g.WellFormed) (v : String) :
    Digraph.Contracts g (inline build g v).1 := by
  rcases inline_shape build hg v with ⟨hv, he⟩ | ⟨_, hb⟩
  · exact .of_eq hg hv he
  · exact hb.contracts

/-- What inlining a column does to a plan. -/
theorem inline_cases (rebuild : Rebuild) {g : Graph} (h : Planned g) (v : String) :
    (v ∉ g.vertices ∧ inline rebuild.always g v = (g, .error .unknown)) ∨
    (v ∈ g.vertices ∧ inline rebuild.always g v = (g, .ok ())) ∨
    (v ∈ g.vertices ∧ ∃ e g', inline rebuild.always g v = (g', .ok ()) ∧ Inlined rebuild g v e g') := by
  rcases inline_steps rebuild h.initialised v with
    hn | hi | ⟨hv, hp, hs, c, _, _, g₁, hc, hx, hsym, hedges, hvert, hget, hi⟩
  · exact Or.inl hn
  · exact Or.inr (Or.inl hi)
  · obtain ⟨c', e, _, _, hc', hx', _⟩ := h.known v hv
    rw [hc] at hc'
    cases hc'
    rw [hx] at hx'
    cases hx'
    rw [h.named v c hp hc] at hsym
    cases hsym
    exact Or.inr (Or.inr ⟨hv, e, _, hi, inlined_of_substituted h.wellFormed hp hs
      ((exprOf_eq_some_iff g v e).mpr ⟨c, hc, hx⟩) hedges hvert hget⟩)

namespace Inlined

variable {rebuild : Rebuild} {g g' : Graph} {v w : String} {e : Expr}

theorem bridged (h : Inlined rebuild g v e g') : Digraph.Bridged g v g' :=
  ⟨h.wellFormed, h.pred_ne_nil, h.vertices, h.edges⟩

theorem get?_cases (h : Inlined rebuild g v e g') (hw : w ≠ v) {c : Column}
    (hc : g.get? w = some c) :
    ∃ c', g'.get? w = some c' ∧ c'.symbol = c.symbol ∧ c'.key = c.key ∧ c'.symbols = c.symbols := by
  rw [h.column w hw, hc]
  by_cases hs : w ∈ g.succ v
  · rw [if_pos hs]
    exact ⟨_, rfl, putAt_symbol .., putAt_key .., putAt_symbols ..⟩
  · rw [if_neg hs]
    exact ⟨c, rfl, rfl, rfl, rfl⟩

/-- A column that used `v` has its expression put in, any other has what it had. -/
theorem exprOf (h : Inlined rebuild g v e g') (hw : w ≠ v) {d : Expr}
    (hd : g.exprOf w = some d) :
    g'.exprOf w = some (if w ∈ g.succ v then Expr.putFor rebuild v e d else d) := by
  obtain ⟨c, hc, hx⟩ := (exprOf_eq_some_iff g w d).mp hd
  rw [exprOf_eq_some_iff, h.column w hw, hc]
  by_cases hs : w ∈ g.succ v
  · rw [if_pos hs, if_pos hs]
    exact ⟨_, rfl, putAt_expr rebuild v e d hx⟩
  · rw [if_neg hs, if_neg hs]
    exact ⟨c, rfl, hx⟩

theorem pred_ne_nil_of (h : Inlined rebuild g v e g') (hp : g'.pred w ≠ []) : g.pred w ≠ [] :=
  h.bridged.pred_ne_nil_of hp

/-- Predecessors stay, but for the column that is inlined. -/
theorem mem_pred (h : Inlined rebuild g v e g') (hw : w ≠ v) {u : String} (hu : u ∈ g.pred w)
    (huv : u ≠ v) : u ∈ g'.pred w :=
  (Digraph.mem_pred g' u w).mpr
    ((h.edges u w).mpr ⟨Or.inl ((Digraph.mem_pred g u w).mp hu), huv, hw⟩)

theorem mem_pred_of_not_mem_succ (h : Inlined rebuild g v e g') (hw : w ≠ v) (hs : w ∉ g.succ v)
    {u : String} (hu : u ∈ g.pred w) : u ∈ g'.pred w := by
  refine h.mem_pred hw hu ?_
  rintro rfl
  exact hs ((Digraph.mem_succ g u w).mpr ((Digraph.mem_pred g u w).mp hu))

/-- What used the column gets its predecessors. -/
theorem mem_pred_of_mem_succ (h : Inlined rebuild g v e g') {r : String → Nat} (hr : g.Ranked r)
    (hw : w ≠ v) (hs : w ∈ g.succ v) {u : String} (hu : u ∈ g.pred v) : u ∈ g'.pred w := by
  have huv := (Digraph.mem_pred g u v).mp hu
  have hne : u ≠ v := by
    rintro rfl
    exact Nat.lt_irrefl _ (hr (u, u) huv)
  exact (Digraph.mem_pred g' u w).mpr
    ((h.edges u w).mpr ⟨Or.inr ⟨huv, (Digraph.mem_succ g v w).mp hs⟩, hne, hw⟩)

theorem planned (h : Inlined rebuild g v e g') (hg : Planned g) : Planned g' := by
  refine ⟨h.wellFormed, ?_, ?_⟩
  · intro w hw
    obtain ⟨hw, hne⟩ := (h.vertices w).mp hw
    obtain ⟨c, d, k, ss, hc, hx, hk, hss⟩ := hg.known w hw
    obtain ⟨c', hc', _, hk', hss'⟩ := h.get?_cases hne hc
    have hd := h.exprOf hne ((exprOf_eq_some_iff g w d).mpr ⟨c, hc, hx⟩)
    obtain ⟨c₂, hc₂, hx₂⟩ := (exprOf_eq_some_iff g' w _).mp hd
    rw [hc'] at hc₂
    cases hc₂
    exact ⟨c', _, k, ss, hc', hx₂, hk'.trans hk, hss'.trans hss⟩
  · intro w c' hp hc'
    have hw := (h.vertices w).mp ((Digraph.mem_vertices_iff g' w).mpr ⟨c', hc'⟩)
    obtain ⟨c, hc⟩ := (Digraph.mem_vertices_iff g w).mp hw.1
    obtain ⟨c₂, hc₂, hs, _⟩ := h.get?_cases hw.2 hc
    rw [hc'] at hc₂
    cases hc₂
    rw [hs]
    exact hg.named w c (h.pred_ne_nil_of hp) hc

theorem ranked (h : Inlined rebuild g v e g') {r : String → Nat} (hr : g.Ranked r) :
    g'.Ranked r := h.bridged.ranked hr

/-- A column stays computed: where `v` was all it used, it now uses what `v` used. -/
theorem pred_ne_nil_iff (h : Inlined rebuild g v e g') {r : String → Nat} (hr : g.Ranked r)
    (hw : w ≠ v) : g'.pred w ≠ [] ↔ g.pred w ≠ [] :=
  h.bridged.pred_ne_nil_iff (fun hloop => Nat.lt_irrefl _ (hr _ hloop)) hw

theorem sink (h : Inlined rebuild g v e g') (hw : w ∈ g.vertices) (hs : g.succ w = []) :
    w ∈ g'.vertices ∧ g'.succ w = [] := by
  have hne : w ≠ v := by
    rintro rfl
    exact h.succ_ne_nil hs
  refine ⟨(h.vertices w).mpr ⟨hw, hne⟩, (Digraph.succ_eq_nil_iff g' w).mpr fun b hb => ?_⟩
  have hnone := (Digraph.succ_eq_nil_iff g w).mp hs
  rcases ((h.edges w b).mp hb).1 with hb | ⟨hb, _⟩
  · exact hnone b hb
  · exact hnone v hb

end Inlined

/-! ## Runs -/

/-- Columns are inlined one after the other. -/
def Inlining (rebuild : Rebuild) : Graph → Graph → Prop :=
  Relation.ReflTransGen (fun g g' => ∃ v e, Inlined rebuild g v e g')

namespace Inlining

variable {rebuild : Rebuild} {g g' : Graph}

/-- What every inlining keeps, a run keeps. -/
theorem keeps (P : Graph → Prop) (hstep : ∀ g v e g', Inlined rebuild g v e g' → P g → P g')
    (h : Inlining rebuild g g') (hg : P g) : P g' := by
  induction h with
  | refl => exact hg
  | tail _ hlast ih =>
    obtain ⟨v, e, hlast⟩ := hlast
    exact hstep _ v e _ hlast ih

theorem planned (h : Inlining rebuild g g') (hg : Planned g) : Planned g' :=
  h.keeps Planned (fun _ _ _ _ hs hp => hs.planned hp) hg

theorem ranked (h : Inlining rebuild g g') {r : String → Nat} (hr : g.Ranked r) : g'.Ranked r :=
  h.keeps (·.Ranked r) (fun _ _ _ _ hs hp => hs.ranked hp) hr

theorem vertices (h : Inlining rebuild g g') : ∀ v ∈ g'.vertices, v ∈ g.vertices :=
  h.keeps (fun g' => ∀ v ∈ g'.vertices, v ∈ g.vertices)
    (fun _ _ _ _ hs hp v hv => hp v ((hs.vertices v).mp hv).1) (fun _ hv => hv)

/-- What nothing uses is not inlined. -/
theorem sink (h : Inlining rebuild g g') {v : String} (hv : v ∈ g.vertices)
    (hs : g.succ v = []) : v ∈ g'.vertices ∧ g'.succ v = [] :=
  h.keeps (fun g' => v ∈ g'.vertices ∧ g'.succ v = [])
    (fun _ _ _ _ hstep hp => hstep.sink hp.1 hp.2) ⟨hv, hs⟩

theorem pred_ne_nil_iff (h : Inlining rebuild g g') {r : String → Nat} (hr : g.Ranked r) :
    ∀ v ∈ g'.vertices, (g'.pred v ≠ [] ↔ g.pred v ≠ []) := by
  have hkeep := h.keeps
    (fun g' => g'.Ranked r ∧ ∀ v ∈ g'.vertices, (g'.pred v ≠ [] ↔ g.pred v ≠ [])) ?_
    ⟨hr, fun _ _ => Iff.rfl⟩
  · exact hkeep.2
  · rintro g₁ w e g₂ hs ⟨hr₁, hp⟩
    refine ⟨hs.ranked hr₁, fun v hv => ?_⟩
    obtain ⟨hv, hne⟩ := (hs.vertices v).mp hv
    exact (hs.pred_ne_nil_iff hr₁ hne).trans (hp v hv)

end Inlining

/-- Inlining a column is a run of at most one step. -/
theorem inline_inlining (rebuild : Rebuild) {g : Graph} (h : Planned g) (v : String) :
    Inlining rebuild g (inline rebuild.always g v).1 := by
  rcases inline_cases rebuild h v with ⟨_, hi⟩ | ⟨_, hi⟩ | ⟨_, e, g', hi, hs⟩
  · rw [hi]; exact Relation.ReflTransGen.refl
  · rw [hi]; exact Relation.ReflTransGen.refl
  · rw [hi]; exact Relation.ReflTransGen.single ⟨v, e, hs⟩

end Graph

end Plan

end FactorPlan
