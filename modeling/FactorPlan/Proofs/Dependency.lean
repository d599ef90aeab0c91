import FactorPlan.Plan.Dependency
import FactorPlan.Proofs.Generations

/-!
The graph of bound columns. `Started s bs g` collects what is known of the graph
that `start` makes of the bindings `bs`: its edges are those from the origins of a
bound expression to its column, bound columns stand for themselves, every column is
classified by what splitting its expression gives, and no column is without a
generation (`start_started`).

Finding groups changes neither vertices nor edges nor expressions: `SameContent`.
-/

namespace FactorPlan

namespace Plan

namespace Graph

open Formula (Value)

/-- A column is bound to an expression. -/
def Binds (bs : List (Slot × Value)) (v : String) (e : Expr) : Prop :=
  (Slot.column v, Value.expr e) ∈ bs

/-- The expression of a column. -/
def exprOf (g : Graph) (v : String) : Option Expr :=
  match (g.get? v).bind (·.expr) with
  | some (.expr e) => some e
  | _ => none

theorem exprOf_eq_some_iff (g : Graph) (v : String) (e : Expr) :
    g.exprOf v = some e ↔ ∃ c, g.get? v = some c ∧ c.expr = some (.expr e) := by
  unfold exprOf
  cases hg : g.get? v with
  | none => simp
  | some c =>
    cases hc : c.expr with
    | none => simp [hc]
    | some d => cases d <;> simp [hc]

/-! ## Origins -/

theorem symbols_eq_argumentSymbols {e : Expr} (h : ∀ n, e ≠ .symbol n) :
    e.symbols = e.argumentSymbols := by
  cases e with
  | symbol n => exact absurd rfl (h n)
  | power b x => simp [Expr.symbols, Expr.argumentSymbols, Expr.args, Expr.symbolsList]
  | _ => simp [Expr.symbols, Expr.argumentSymbols, Expr.args, Expr.symbolsList]

theorem origins_symbol (n : String) : origins (.symbol n) = [n] := rfl

/-- The origins of any other expression than a symbol. -/
theorem origins_eq {e : Expr} (h : ∀ n, e ≠ .symbol n) :
    origins e = match e.symbols with
      | [] => [(e.name?).getD e.text]
      | ns => ns := by
  rw [symbols_eq_argumentSymbols h]
  cases e with
  | symbol n => exact absurd rfl (h n)
  | _ => rfl

theorem origins_ne_nil (e : Expr) : origins e ≠ [] := by
  by_cases h : ∃ n, e = .symbol n
  · obtain ⟨n, rfl⟩ := h
    simp [origins_symbol]
  · rw [origins_eq (fun n hn => h ⟨n, hn⟩)]
    cases e.symbols <;> simp

/-- Where there are symbols, they are the origins. -/
theorem origins_eq_symbols {e : Expr} (hne : e.symbols ≠ []) : origins e = e.symbols := by
  by_cases h : ∃ n, e = .symbol n
  · obtain ⟨n, rfl⟩ := h
    rfl
  · rw [origins_eq (fun n hn => h ⟨n, hn⟩)]
    cases he : e.symbols with
    | nil => exact absurd he hne
    | cons a as => rfl

/-- Every symbol of an expression is one of its origins. -/
theorem symbols_subset_origins (e : Expr) : ∀ s ∈ e.symbols, s ∈ origins e := by
  intro s hs
  rw [origins_eq_symbols (List.ne_nil_of_mem hs)]
  exact hs

/-! ## Adding columns -/

/-- The graph holds the listed bindings: edges from the origins, and at each bound column
the symbol of its name with one of the expressions bound to it. -/
structure Bound (bs : List (Slot × Value)) (g : Graph) : Prop where
  wellFormed : g.WellFormed
  edges : ∀ u v, (u, v) ∈ g.edges ↔ ∃ e, Binds bs v e ∧ u ∈ origins e
  column : ∀ v e, Binds bs v e → ∃ c d, g.get? v = some c ∧ Binds bs v d ∧
    c.symbol = some (.expr (.symbol v)) ∧ c.expr = some (.expr d)

theorem bound_nil : Bound [] {} :=
  ⟨Digraph.WellFormed.nil, by simp [Binds], by simp [Binds]⟩

theorem binds_append {bs cs : List (Slot × Value)} {v : String} {e : Expr} :
    Binds (bs ++ cs) v e ↔ Binds bs v e ∨ Binds cs v e := List.mem_append

theorem binds_singleton {n v : String} {d e : Expr} :
    Binds [(.column n, .expr d)] v e ↔ v = n ∧ e = d := by
  simp [Binds]

theorem Bound.addColumn {bs : List (Slot × Value)} {g : Graph} (h : Bound bs g) (n : String)
    (d : Expr) : Bound (bs ++ [(.column n, .expr d)]) (g.addColumn n d) := by
  have hn : n ∈ (g.addNode n (fun c =>
      { c with symbol := some (.expr (.symbol n)), expr := some (.expr d) })).vertices :=
    (Digraph.mem_vertices_addNode _ _ _ _).mpr (Or.inr rfl)
  refine ⟨(h.wellFormed.addNode _ _).addEdges _, ?_, ?_⟩
  · intro u v
    unfold Graph.addColumn
    rw [Digraph.mem_edges_addEdges, Digraph.edges_addNode, h.edges]
    constructor
    · rintro (⟨e, he, hu⟩ | hm)
      · exact ⟨e, binds_append.mpr (Or.inl he), hu⟩
      · obtain ⟨w, hw, hwv⟩ := List.mem_map.mp hm
        cases hwv
        exact ⟨d, binds_append.mpr (Or.inr (binds_singleton.mpr ⟨rfl, rfl⟩)), hw⟩
    · rintro ⟨e, he, hu⟩
      rcases binds_append.mp he with he | he
      · exact Or.inl ⟨e, he, hu⟩
      · obtain ⟨rfl, rfl⟩ := binds_singleton.mp he
        exact Or.inr (List.mem_map.mpr ⟨u, hu, rfl⟩)
  · intro v e he
    unfold Graph.addColumn
    -- a name that is bound again stands for the last expression
    by_cases hv : v = n
    · subst hv
      have hget := Digraph.get?_addEdges_of_mem _ ((origins d).map (·, v)) hn
      rw [Digraph.get?_addNode, if_pos rfl] at hget
      exact ⟨_, d, hget, binds_append.mpr (Or.inr (binds_singleton.mpr ⟨rfl, rfl⟩)), rfl, rfl⟩
    · have he : Binds bs v e :=
        (binds_append.mp he).resolve_right (fun hs => hv (binds_singleton.mp hs).1)
      obtain ⟨c, d', hc, hb, hs, hx⟩ := h.column v e he
      refine ⟨c, d', ?_, binds_append.mpr (Or.inl hb), hs, hx⟩
      rw [Digraph.get?_addEdges_of_mem, Digraph.get?_addNode, if_neg hv]
      · exact hc
      · rw [Digraph.mem_vertices_addNode]
        exact Or.inl ((Digraph.mem_vertices_iff g v).mpr ⟨c, hc⟩)

theorem Bound.addColumns {done bs : List (Slot × Value)} {g g' : Graph} (h : Bound done g)
    (hadd : Graph.addColumns g bs = .ok g') : Bound (done ++ bs) g' := by
  induction bs generalizing done g with
  | nil =>
    cases hadd
    simpa using h
  | cons b bs ih =>
    obtain ⟨slot, value⟩ := b
    cases slot with
    | columns ns => simp [Graph.addColumns] at hadd
    | column n =>
      cases value with
      | expr e => simpa using ih (h.addColumn n e) hadd
      | _ => simp [Graph.addColumns] at hadd

/-- Only columns bound to expressions are added. -/
theorem addColumns_columns {bs : List (Slot × Value)} {g g' : Graph}
    (h : Graph.addColumns g bs = .ok g') : ∀ b ∈ bs, ∃ n e, b = (.column n, .expr e) := by
  induction bs generalizing g with
  | nil => simp
  | cons b bs ih =>
    obtain ⟨slot, value⟩ := b
    cases slot with
    | columns ns => simp [Graph.addColumns] at h
    | column n =>
      cases value with
      | expr e => exact List.forall_mem_cons.mpr ⟨⟨n, e, rfl⟩, ih h⟩
      | _ => simp [Graph.addColumns] at h

/-- Filling sources changes the listed vertices only, and no edges; they stand for themselves. -/
theorem fillSources_spec {g g' : Graph} {vs : List String} (h : fillSources g vs = .ok g') :
    g'.edges = g.edges ∧ g'.vertices = g.vertices ∧ (∀ v, v ∉ vs → g'.get? v = g.get? v) ∧
      ∀ v ∈ vs, v ∈ g.vertices →
        ∃ c d, Content.ofSource v = .ok c ∧ g'.get? v = some d ∧ d.symbol = some c ∧ d.expr = some c := by
  induction vs generalizing g with
  | nil => cases h; exact ⟨rfl, rfl, fun _ _ => rfl, by simp⟩
  | cons v vs ih =>
    unfold fillSources at h
    cases hc : Content.ofSource v with
    | error x => rw [hc] at h; cases h
    | ok c =>
      rw [hc] at h
      obtain ⟨he, hv, hg, hs⟩ := ih h
      refine ⟨he, hv.trans (Digraph.vertices_update _ _ _), ?_, ?_⟩
      · intro w hw
        rw [List.mem_cons, not_or] at hw
        rw [hg w hw.2, Digraph.get?_update, if_neg hw.1]
      · intro w hw hwg
        by_cases hwvs : w ∈ vs
        · exact hs w hwvs (by rw [Digraph.vertices_update]; exact hwg)
        · obtain rfl : w = v := (List.mem_cons.mp hw).resolve_right hwvs
          obtain ⟨d, hd⟩ := (Digraph.mem_vertices_iff g w).mp hwg
          have hget := hg w hwvs
          rw [Digraph.get?_update, if_pos rfl, hd, Option.map_some] at hget
          exact ⟨c, _, hc, hget, rfl, rfl⟩

/-- What is known of the graph of bound columns before groups are found. -/
theorem create_bound {bs : List (Slot × Value)} {g : Graph} (h : create bs = .ok g) :
    Bound bs g ∧ (∀ b ∈ bs, ∃ n e, b = (.column n, .expr e)) ∧
      ∀ v ∈ g.vertices, g.pred v = [] →
        ∃ c d, Content.ofSource v = .ok c ∧ g.get? v = some d ∧ d.symbol = some c ∧ d.expr = some c := by
  unfold create at h
  cases ha : Graph.addColumns {} bs with
  | error x => rw [ha] at h; cases h
  | ok g₀ =>
    rw [ha] at h
    have hb : Bound bs g₀ := by simpa using bound_nil.addColumns ha
    obtain ⟨he, hv, hg, hs⟩ := fillSources_spec (show fillSources g₀ g₀.sources = .ok g from h)
    refine ⟨⟨hb.wellFormed.congr hv he, ?_, ?_⟩, addColumns_columns ha, ?_⟩
    · intro u v
      rw [he]; exact hb.edges u v
    · intro v e hve
      obtain ⟨c, d, hc, hd, hsym, hx⟩ := hb.column v e hve
      refine ⟨c, d, ?_, hd, hsym, hx⟩
      -- a bound column has an origin and is therefore no source
      rw [hg v, hc]
      intro hm
      obtain ⟨u, hu⟩ := List.exists_mem_of_ne_nil _ (origins_ne_nil e)
      exact Digraph.pred_ne_nil_of_mem ((hb.edges u v).mpr ⟨e, hve, hu⟩)
        ((g₀.mem_sources v).mp hm).2
    · intro v hvg hp
      rw [hv] at hvg
      rw [Digraph.pred_congr he] at hp
      exact hs v ((g₀.mem_sources v).mpr ⟨hvg, hp⟩) hvg

theorem addColumns_error {bs : List (Slot × Value)} {g : Graph} {x : PlanError}
    (h : Graph.addColumns g bs = .error x) : x = .noExpression := by
  induction bs generalizing g with
  | nil => cases h
  | cons b bs ih =>
    obtain ⟨slot, value⟩ := b
    cases slot with
    | columns ns => cases h; rfl
    | column n =>
      cases value with
      | expr e => exact ih h
      | _ => cases h; rfl

theorem ofSource_error {v : String} {x : PlanError} (h : Content.ofSource v = .error x) :
    x = .badName := by
  unfold Content.ofSource Slot.ofName at h
  split at h
  · cases h
  · cases h
  · rename_i hn
    split at hn
    · cases hn
    · cases hn
    · cases hn; cases h; rfl

theorem fillSources_error {vs : List String} {g : Graph} {x : PlanError}
    (h : fillSources g vs = .error x) : x = .badName := by
  induction vs generalizing g with
  | nil => cases h
  | cons v vs ih =>
    unfold fillSources at h
    cases hc : Content.ofSource v with
    | ok c => rw [hc] at h; exact ih h
    | error z =>
      rw [hc] at h
      cases h
      exact ofSource_error hc

/-- Creating the graph does not fail for want of a group. -/
theorem create_ne_group (bs : List (Slot × Value)) (y : GroupError) :
    create bs ≠ .error (.group y) := by
  intro h
  unfold create at h
  cases ha : Graph.addColumns {} bs with
  | error x =>
    rw [ha] at h
    cases h
    cases addColumns_error ha
  | ok g =>
    rw [ha] at h
    cases fillSources_error h

/-! ## Going through a list up to the first failure -/

section ForEach
variable {ι σ : Type} {f : σ → ι → σ × Except PlanError Unit}

/-- What every step keeps, the whole run keeps. -/
theorem forEach_keeps (P : σ → Prop) (hstep : ∀ s a, P s → P (f s a).1) {s : σ} (h : P s)
    (as : List ι) : P (forEach f s as).1 := by
  induction as generalizing s with
  | nil => exact h
  | cons a as ih =>
    have ha := hstep s a h
    unfold forEach
    cases hf : f s a with
    | mk s₁ r =>
      rw [hf] at ha
      cases r with
      | ok _ => exact ih ha
      | error x => exact ha

/-- After a run without failure each element has what its step gives and no step takes away. -/
theorem forEach_gives (Q : ι → σ → Prop) (hnew : ∀ s a s', f s a = (s', .ok ()) → Q a s')
    (hkeep : ∀ s a b, Q b s → Q b (f s a).1) {s s' : σ} {as : List ι}
    (h : forEach f s as = (s', .ok ())) : ∀ a ∈ as, Q a s' := by
  induction as generalizing s with
  | nil => simp
  | cons a as ih =>
    unfold forEach at h
    cases hf : f s a with
    | mk s₁ r =>
      rw [hf] at h
      cases r with
      | error x => cases h
      | ok u =>
        intro b hb
        rcases List.mem_cons.mp hb with rfl | hb
        · have := forEach_keeps (f := f) (Q b) (fun s a hs => hkeep s a b hs) (hnew s b s₁ hf) as
          rwa [show forEach f s₁ as = (s', .ok ()) from h] at this
        · exact ih h b hb

/-- A run fails where one of its steps fails, in a state that the steps before it made. -/
theorem forEach_fails (P : σ → Prop) (hstep : ∀ s a, P s → P (f s a).1) {s s' : σ} {as : List ι}
    {x : PlanError} (hs : P s) (h : forEach f s as = (s', .error x)) :
    ∃ a ∈ as, ∃ s₁, P s₁ ∧ (f s₁ a).2 = .error x := by
  induction as generalizing s with
  | nil => cases h
  | cons a as ih =>
    have ha := hstep s a hs
    unfold forEach at h
    cases hf : f s a with
    | mk s₁ r =>
      rw [hf] at h ha
      cases r with
      | error y =>
        refine ⟨a, by simp, s, hs, ?_⟩
        rw [hf]
        exact congrArg Prod.snd h
      | ok u =>
        obtain ⟨b, hb, s₂, hs₂, hx⟩ := ih ha h
        exact ⟨b, by simp [hb], s₂, hs₂, hx⟩

/-- A run over distinct elements does not fail where each step succeeds on an element that is
ready and leaves the others ready. -/
theorem forEach_ok (P : σ → Prop) (R : ι → σ → Prop)
    (hstep : ∀ s a, P s → R a s → ∃ s', f s a = (s', .ok ()) ∧ P s' ∧ ∀ b, b ≠ a → R b s → R b s')
    {s : σ} {as : List ι} (hnd : as.Nodup) (hs : P s) (has : ∀ a ∈ as, R a s) :
    ∃ s', forEach f s as = (s', .ok ()) := by
  induction as generalizing s with
  | nil => exact ⟨s, rfl⟩
  | cons a as ih =>
    rw [List.nodup_cons] at hnd
    obtain ⟨s₁, hf, hs₁, hothers⟩ := hstep s a hs (has a (by simp))
    have hready : ∀ b ∈ as, R b s₁ := by
      intro b hb
      refine hothers b ?_ (has b (by simp [hb]))
      rintro rfl
      exact hnd.1 hb
    unfold forEach
    rw [hf]
    exact ih hnd.2 hs₁ hready

end ForEach

/-! ## Finding groups -/

/-- The same vertices and edges, with the same symbol and expression at each vertex. -/
structure SameContent (g g' : Graph) : Prop where
  edges : g'.edges = g.edges
  vertices : g'.vertices = g.vertices
  column : ∀ v c, g.get? v = some c → ∃ c', g'.get? v = some c' ∧ c'.symbol = c.symbol ∧
    c'.expr = c.expr

namespace SameContent

theorem refl (g : Graph) : SameContent g g := ⟨rfl, rfl, fun _ c h => ⟨c, h, rfl, rfl⟩⟩

theorem trans {a b c : Graph} (h₁ : SameContent a b) (h₂ : SameContent b c) : SameContent a c := by
  refine ⟨h₂.edges.trans h₁.edges, h₂.vertices.trans h₁.vertices, ?_⟩
  intro v d hd
  obtain ⟨d₁, hd₁, hs₁, hx₁⟩ := h₁.column v d hd
  obtain ⟨d₂, hd₂, hs₂, hx₂⟩ := h₂.column v d₁ hd₁
  exact ⟨d₂, hd₂, hs₂.trans hs₁, hx₂.trans hx₁⟩

theorem update (g : Graph) (v : String) {f : Column → Column}
    (hf : ∀ c, (f c).symbol = c.symbol ∧ (f c).expr = c.expr) : SameContent g (g.update v f) := by
  refine ⟨rfl, Digraph.vertices_update g v f, ?_⟩
  intro w c hc
  rw [Digraph.get?_update, hc]
  by_cases hw : w = v
  · exact ⟨f c, by simp [hw], hf c⟩
  · exact ⟨c, by simp [hw], rfl, rfl⟩

theorem wellFormed {g g' : Graph} (h : SameContent g g') (hg : g.WellFormed) : g'.WellFormed :=
  hg.congr h.vertices h.edges

theorem content {g g' : Graph} (h : SameContent g g') (v : String) :
    (g'.get? v).bind (·.expr) = (g.get? v).bind (·.expr) := by
  cases hg : g.get? v with
  | none =>
    have hn := (Digraph.get?_eq_none_iff g v).mp hg
    rw [← h.vertices] at hn
    rw [(Digraph.get?_eq_none_iff g' v).mpr hn]
  | some c =>
    obtain ⟨c', hc', _, hx⟩ := h.column v c hg
    rw [hc']
    exact hx

theorem exprOf {g g' : Graph} (h : SameContent g g') (v : String) : g'.exprOf v = g.exprOf v := by
  unfold Graph.exprOf
  rw [h.content v]

theorem pred {g g' : Graph} (h : SameContent g g') (v : String) : g'.pred v = g.pred v :=
  Digraph.pred_congr h.edges v

theorem succ {g g' : Graph} (h : SameContent g g') (v : String) : g'.succ v = g.succ v :=
  Digraph.succ_congr h.edges v

/-- Generations depend on vertices and edges only. -/
theorem generations {g g' : Graph} (h : SameContent g g') : g'.generations = g.generations := by
  have hp : g'.pred = g.pred := funext h.pred
  have hs : g'.succ = g.succ := funext h.succ
  have hlen : g'.nodes.length = g.nodes.length := by
    rw [← Digraph.length_vertices, ← Digraph.length_vertices, h.vertices]
  have hfrom : ∀ fuel waiting current,
      g'.generationsFrom fuel waiting current = g.generationsFrom fuel waiting current := by
    intro fuel
    induction fuel with
    | zero => intro _ _; rfl
    | succ fuel ih =>
      intro waiting current
      simp only [Digraph.generationsFrom, hs, ih]
  simp only [Digraph.generations, Digraph.sources, hfrom, hp, h.vertices, hlen]

end SameContent

/-- What splitting gives for the content of a column: what is met, the keys, and the one key. -/
def classOf (s : Setting) : Option Content → Except PlanError (Met × List Key × Key)
  | none => .error .unknown
  | some (.several _) => .error .noExpression
  | some (.expr e) =>
    match Grouping.split s.rule e with
    | (_, .error x) => .error (.group x)
    | (m, .ok ks) =>
      match Grouping.soleKey ks with
      | .error x => .error (.group x)
      | .ok k => .ok (m, ks, k)

/-- The column holds what splitting gives for its expression. -/
def Classified (s : Setting) (g : Graph) (v : String) : Prop :=
  ∃ c e m ks k, g.get? v = some c ∧ c.expr = some (.expr e) ∧
    Grouping.split s.rule e = (m, .ok ks) ∧ Grouping.soleKey ks = .ok k ∧
    c.key = some k ∧ c.symbols = some m.symbols

/-- Classifying a column either fails as its content says, or sets what splitting gives. -/
theorem classify_cases (s : Setting) (g : Graph) (depth : Nat) (v : String) :
    (∃ x, (classify s g depth v).2 = .error x ∧ classOf s ((g.get? v).bind (·.expr)) = .error x ∧
      SameContent g (classify s g depth v).1) ∨
    (∃ e m ks k, (g.get? v).bind (·.expr) = some (.expr e) ∧
      Grouping.split s.rule e = (m, .ok ks) ∧ Grouping.soleKey ks = .ok k ∧
      classify s g depth v = (g.update v (fun c =>
        { c with keys := some ks, key := some k, symbols := some m.symbols, depth := some depth }),
        .ok ())) := by
  unfold classify
  cases hc : (g.get? v).bind (·.expr) with
  | none => exact Or.inl ⟨.unknown, rfl, rfl, SameContent.refl g⟩
  | some d =>
    cases d with
    | several ns => exact Or.inl ⟨.noExpression, rfl, rfl, SameContent.refl g⟩
    | expr e =>
      cases hsplit : Grouping.split s.rule e with
      | mk m r =>
        cases r with
        | error x =>
          simp only [classOf, hsplit]
          exact Or.inl ⟨.group x, rfl, rfl, SameContent.refl g⟩
        | ok ks =>
          cases hk : Grouping.soleKey ks with
          | error x =>
            simp only [classOf, hsplit, hk]
            exact Or.inl ⟨.group x, rfl, rfl, SameContent.update g v fun c => ⟨rfl, rfl⟩⟩
          | ok k =>
            refine Or.inr ⟨e, m, ks, k, rfl, hsplit, hk, ?_⟩
            simp only [hsplit, hk]

theorem classify_sameContent (s : Setting) (g : Graph) (depth : Nat) (v : String) :
    SameContent g (classify s g depth v).1 := by
  rcases classify_cases s g depth v with ⟨_, _, _, h⟩ | ⟨_, _, _, _, _, _, _, h⟩
  · exact h
  · rw [h]; exact SameContent.update g v fun c => ⟨rfl, rfl⟩

theorem classified_of_classify {s : Setting} {g g' : Graph} {depth : Nat} {v : String}
    (h : classify s g depth v = (g', .ok ())) : Classified s g' v := by
  rcases classify_cases s g depth v with ⟨x, hx, _, _⟩ | ⟨e, m, ks, k, hc, hm, hk, he⟩
  · rw [h] at hx; cases hx
  · rw [he] at h
    cases h
    obtain ⟨c, hg, hcx⟩ := Option.bind_eq_some_iff.mp hc
    have hget := Digraph.get?_update g v (fun c =>
      { c with keys := some ks, key := some k, symbols := some m.symbols, depth := some depth }) v
    rw [if_pos rfl, hg, Option.map_some] at hget
    exact ⟨_, e, m, ks, k, hget, hcx, hm, hk, rfl, rfl⟩

theorem get?_classify_of_ne (s : Setting) (g : Graph) (depth : Nat) {v w : String} (h : w ≠ v) :
    (classify s g depth v).1.get? w = g.get? w := by
  have hu : ∀ f : Column → Column, (Digraph.update g v f).get? w = g.get? w := fun f => by
    rw [Digraph.get?_update, if_neg h]
  unfold classify
  split
  · rfl
  · rfl
  · split
    · rfl
    · split
      · exact hu _
      · exact hu _

theorem Classified.classify {s : Setting} {g : Graph} {v : String} (h : Classified s g v)
    (depth : Nat) (w : String) : Classified s (Graph.classify s g depth w).1 v := by
  obtain ⟨c, e, m, ks, k, hc, hx, hm, hk, hck, hcs⟩ := h
  by_cases hw : v = w
  · subst hw
    rcases classify_cases s g depth v with ⟨x, _, hf, _⟩ | ⟨_, _, _, _, _, _, _, he⟩
    · -- a classified column does not fail
      rw [hc] at hf
      simp only [Option.bind_some, hx, classOf, hm, hk] at hf
      cases hf
    · rw [he]
      exact classified_of_classify he
  · refine ⟨c, e, m, ks, k, ?_, hx, hm, hk, hck, hcs⟩
    rw [get?_classify_of_ne s g depth hw, hc]

theorem mem_places {gens : List (List String)} {v : String} :
    (∃ i, (i, v) ∈ (gens.mapIdx (fun i vs => vs.map (i, ·))).flatten) ↔ v ∈ gens.flatten := by
  simp only [List.mem_flatten, List.mem_mapIdx]
  constructor
  · rintro ⟨i, l, ⟨j, hj, rfl⟩, hm⟩
    obtain ⟨w, hw, he⟩ := List.mem_map.mp hm
    cases he
    exact ⟨gens[i], List.getElem_mem hj, hw⟩
  · rintro ⟨gen, hgen, hv⟩
    obtain ⟨i, hi, rfl⟩ := List.getElem_of_mem hgen
    exact ⟨i, _, ⟨i, hi, rfl⟩, List.mem_map.mpr ⟨v, hv, rfl⟩⟩

theorem classifyAll_sameContent (s : Setting) (g : Graph) : SameContent g (classifyAll s g).1 := by
  have hrun := forEach_keeps (f := fun g (p : Nat × String) => classify s g p.1 p.2) (SameContent g)
    (fun g' p h => h.trans (classify_sameContent s g' p.1 p.2)) (SameContent.refl g)
    (g.generations.1.mapIdx (fun i vs => vs.map (i, ·))).flatten
  unfold classifyAll
  dsimp only
  split
  · rename_i h; rw [h] at hrun; exact hrun
  · rename_i h; rw [h] at hrun; exact hrun

/-- Where all groups are found, every column has a generation and is classified. -/
theorem classifyAll_ok {s : Setting} {g g' : Graph} (hg : g.WellFormed)
    (h : classifyAll s g = (g', .ok ())) :
    g.generations.2 = [] ∧ ∀ v ∈ g.vertices, Classified s g' v := by
  unfold classifyAll at h
  dsimp only at h
  split at h
  · rename_i g₁ hrun
    have hrest : g.generations.2 = [] := by
      by_contra hne
      have : g.generations.2.isEmpty = false := by simpa using hne
      rw [this] at h
      cases h
    rw [hrest] at h
    cases h
    refine ⟨hrest, ?_⟩
    intro v hv
    have hperm := Digraph.generations_perm hg
    rw [hrest, List.append_nil] at hperm
    obtain ⟨i, hi⟩ := mem_places.mpr (hperm.mem_iff.mpr hv)
    exact forEach_gives (fun p g => Classified s g p.2) (fun _ _ _ hs => classified_of_classify hs)
      (fun _ p _ hq => hq.classify p.1 p.2) hrun _ hi
  · cases h

/-- Finding groups fails only where some column has no key, or depends on itself. -/
theorem classifyAll_error {s : Setting} {g : Graph} {x : PlanError} (hg : g.WellFormed)
    (h : (classifyAll s g).2 = .error x) :
    (x = .cyclic ∧ g.generations.2 ≠ []) ∨
      ∃ v ∈ g.vertices, classOf s ((g.get? v).bind (·.expr)) = .error x := by
  unfold classifyAll at h
  dsimp only at h
  split at h
  · by_cases hrest : g.generations.2 = []
    · rw [hrest] at h; cases h
    · have he : g.generations.2.isEmpty = false := by simpa using hrest
      rw [he] at h
      cases h
      exact Or.inl ⟨rfl, hrest⟩
  · rename_i g₁ y hrun
    cases h
    obtain ⟨p, hp, g₂, hsame, hx⟩ := forEach_fails (SameContent g)
      (fun g' p h => h.trans (classify_sameContent s g' p.1 p.2)) (SameContent.refl g) hrun
    refine Or.inr ⟨p.2, ?_, ?_⟩
    · have hm := mem_places.mp ⟨p.1, hp⟩
      exact (Digraph.generations_perm hg).mem_iff.mp (List.mem_append_left _ hm)
    · rcases classify_cases s g₂ p.1 p.2 with ⟨z, hz, hc, _⟩ | ⟨_, _, _, _, _, _, _, he⟩
      · rw [hx] at hz
        cases hz
        rw [← hsame.content]
        exact hc
      · rw [he] at hx; cases hx

/-! ## The graph at the start -/

/-- What is known of the graph that is made of bindings. -/
structure Started (s : Setting) (bs : List (Slot × Value)) (g : Graph) : Prop extends Bound bs g where
  classified : ∀ v ∈ g.vertices, Classified s g v
  layered : g.generations.2 = []

/-- The graph at the start is the one that is created, with the groups found in it. -/
theorem start_cases (s : Setting) (bs : List (Slot × Value)) :
    (∃ x, create bs = .error x ∧ start s bs = .error x) ∨
    ∃ g₀ g r, create bs = .ok g₀ ∧ classifyAll s g₀ = (g, r) ∧ start s bs = r.map fun _ => g := by
  unfold start
  cases create bs with
  | error x => exact Or.inl ⟨x, rfl, rfl⟩
  | ok g₀ =>
    refine Or.inr ⟨g₀, (classifyAll s g₀).1, (classifyAll s g₀).2, rfl, rfl, ?_⟩
    simp only [Bind.bind, Except.bind]
    split
    · rename_i h; rw [h]; rfl
    · rename_i h; rw [h]; rfl

theorem start_started {s : Setting} {bs : List (Slot × Value)} {g : Graph}
    (h : start s bs = .ok g) : Started s bs g := by
  rcases start_cases s bs with ⟨x, _, hx⟩ | ⟨g₀, g', r, hc, hr, hx⟩
  · rw [h] at hx; cases hx
  · rw [h] at hx
    cases r with
    | error x => cases hx
    | ok u =>
      cases hx
      obtain ⟨hb, _⟩ := create_bound hc
      have hsame := classifyAll_sameContent s g₀
      rw [hr] at hsame
      obtain ⟨hrest, hcl⟩ := classifyAll_ok hb.wellFormed hr
      refine ⟨⟨hsame.wellFormed hb.wellFormed, ?_, ?_⟩, ?_, ?_⟩
      · intro u v
        rw [hsame.edges]; exact hb.edges u v
      · intro v e he
        obtain ⟨c, d, hget, hd, hs, hx⟩ := hb.column v e he
        obtain ⟨c', hget', hs', hx'⟩ := hsame.column v c hget
        exact ⟨c', d, hget', hd, hs'.trans hs, hx'.trans hx⟩
      · intro v hv
        rw [hsame.vertices] at hv
        exact hcl v hv
      · rw [hsame.generations]; exact hrest

end Graph

end Plan

end FactorPlan
