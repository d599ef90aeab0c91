import FactorPlan.Proofs.Availability
import FactorPlan.Proofs.Bridging
import FactorPlan.Proofs.SymbolNames

/-!
The sources of a plan. A column that is used and not bound is given (`Given`); it has
to stand for itself in the graph (`StandsForItself`). An expression without symbols
is computed from a source of its own, named as the expression is, or by its text.

What is proved: for columns that are bound to expressions, each of which has at most
one group, the graph can be made with sources that stand for themselves exactly where
no column is drawn from itself and the name of each given column reads as one symbol
of that name (`starts_iff_readable`). Texts of constants are such names as long as
they have no blank, comma or colon: a sum of constants has blanks
(`constant_sum_stops`).
-/

namespace FactorPlan

namespace Plan

namespace Graph

open Formula (Value)

/-- One column is named in the expression bound to the other. -/
def Refers (bs : List (Slot × Value)) (u v : String) : Prop := ∃ e, Binds bs v e ∧ u ∈ e.symbols

/-- One column is an origin of the other. -/
def Draws (bs : List (Slot × Value)) (u v : String) : Prop := ∃ e, Binds bs v e ∧ u ∈ origins e

/-- The column is used and not bound. -/
def Given (bs : List (Slot × Value)) (u : String) : Prop := ¬ Keyed bs u ∧ ∃ v, Draws bs u v

/-- The name is not empty, and has no character at which names are separated or listed. -/
def Readable (n : String) : Prop :=
  n ≠ "" ∧ ∀ c ∈ n.toList, c ≠ ',' ∧ c ≠ ':' ∧ Text.isSpace c = false

instance (n : String) : Decidable (Readable n) :=
  haveI := List.decidableBAll (fun c => c ≠ ',' ∧ c ≠ ':' ∧ Text.isSpace c = false) n.toList
  inferInstanceAs (Decidable (_ ∧ _))

/-- The symbol and the expression of the column are the symbol of its name. -/
def StandsForItself (g : Graph) (v : String) : Prop :=
  ∃ c, g.get? v = some c ∧ c.symbol = some (.expr (.symbol v)) ∧ c.expr = some (.expr (.symbol v))

section
variable {s : Setting} {bs : List (Slot × Value)} {g : Graph} {u v : String}

/-! ## References and origins -/

/-- Constants that are not named as bound columns add no way back. -/
theorem transGen_refers (hlabels : ∀ v e, Binds bs v e → e.symbols = [] → ∀ u ∈ origins e, ¬ Keyed bs u)
    (hu : Keyed bs u) (h : Relation.TransGen (Draws bs) u v) :
    Relation.TransGen (Refers bs) u v := by
  have hstep : ∀ {u v}, Keyed bs u → Draws bs u v → Refers bs u v := by
    rintro u v hu ⟨e, he, hm⟩
    refine ⟨e, he, ?_⟩
    have hne : e.symbols ≠ [] := fun hnil => hlabels v e he hnil u hm hu
    rwa [origins_eq_symbols hne] at hm
  induction h with
  | single hd => exact .single (hstep hu hd)
  | tail hfirst hd ih =>
    -- a column on the way is bound, as something is drawn into it
    obtain ⟨w, -, e, he, -⟩ := Relation.TransGen.tail'_iff.mp hfirst
    exact ih.tail (hstep ⟨e, he⟩ hd)

/-! ## Making the graph -/

theorem addColumns_ok (hcols : ∀ b ∈ bs, ∃ n e, b = (.column n, .expr e)) (g : Graph) :
    ∃ g', addColumns g bs = .ok g' := by
  induction bs generalizing g with
  | nil => exact ⟨g, rfl⟩
  | cons b bs ih =>
    obtain ⟨n, e, rfl⟩ := hcols b (by simp)
    exact ih (fun b hb => hcols b (by simp [hb])) (g.addColumn n e)

/-- Adding columns adds those that are bound and their origins. -/
theorem mem_vertices_addColumns {g' : Graph} (h : addColumns g bs = .ok g') (hv : v ∈ g'.vertices) :
    v ∈ g.vertices ∨ Keyed bs v ∨ ∃ w, Draws bs v w := by
  induction bs generalizing g with
  | nil => cases h; exact Or.inl hv
  | cons b bs ih =>
    obtain ⟨n, e, rfl⟩ := addColumns_columns h b (by simp)
    have hhead : Binds ((.column n, .expr e) :: bs) n e := List.mem_cons_self
    rcases ih h with hv | ⟨d, hd⟩ | ⟨w, d, hd, hm⟩
    · rw [addColumn, Digraph.mem_vertices_addEdges, Digraph.mem_vertices_addNode] at hv
      rcases hv with (hv | rfl) | ⟨p, hp, hv⟩
      · exact Or.inl hv
      · exact Or.inr (Or.inl ⟨e, hhead⟩)
      · obtain ⟨w, hw, rfl⟩ := List.mem_map.mp hp
        rcases hv with rfl | rfl
        · exact Or.inr (Or.inr ⟨n, e, hhead, hw⟩)
        · exact Or.inr (Or.inl ⟨e, hhead⟩)
    · exact Or.inr (Or.inl ⟨d, List.mem_cons_of_mem _ hd⟩)
    · exact Or.inr (Or.inr ⟨w, d, List.mem_cons_of_mem _ hd, hm⟩)

theorem fillSources_ok {vs : List String} (h : ∀ v ∈ vs, ∃ c, Content.ofSource v = .ok c) (g : Graph) :
    ∃ g', fillSources g vs = .ok g' := by
  induction vs generalizing g with
  | nil => exact ⟨g, rfl⟩
  | cons v vs ih =>
    obtain ⟨c, hc⟩ := h v (by simp)
    unfold fillSources
    rw [hc]
    exact ih (fun w hw => h w (by simp [hw])) _

/-- Only a readable name stands for the column of that name. -/
theorem ofSource_eq_symbol_iff :
    Content.ofSource v = .ok (.expr (.symbol v)) ↔ Readable v := by
  unfold Readable
  rw [← ofName_eq_self_iff]
  unfold Content.ofSource
  split <;> simp_all

/-- The sources of the graph are the given columns. -/
theorem Bound.given_of_source (hb : Bound bs g) (h : Graph.addColumns {} bs = .ok g) (hv : v ∈ g.sources) :
    Given bs v := by
  obtain ⟨hvg, hp⟩ := (g.mem_sources v).mp hv
  have hkey : ¬ Keyed bs v := fun hk => (hb.pred_ne_nil_iff v).mpr hk hp
  rcases mem_vertices_addColumns h hvg with hnil | hk | hd
  · cases hnil
  · exact absurd hk hkey
  · exact ⟨hkey, hd⟩

theorem create_ok (hcols : ∀ b ∈ bs, ∃ n e, b = (.column n, .expr e))
    (hread : ∀ v, Given bs v → Readable v) : ∃ g, create bs = .ok g ∧ ∀ v ∈ g.sources, Readable v := by
  obtain ⟨g₀, hadd⟩ := addColumns_ok hcols {}
  have hb : Bound bs g₀ := by simpa using bound_nil.addColumns hadd
  have hsources : ∀ v ∈ g₀.sources, Readable v := fun v hv => hread v (hb.given_of_source hadd hv)
  obtain ⟨g, hfill⟩ := fillSources_ok
    (fun v hv => ⟨_, ofSource_eq_symbol_iff.mpr (hsources v hv)⟩) g₀
  obtain ⟨he, hv, -⟩ := fillSources_spec hfill
  refine ⟨g, by unfold create; rw [hadd]; exact hfill, fun v hm => hsources v ?_⟩
  obtain ⟨hvg, hp⟩ := (g.mem_sources v).mp hm
  rw [hv] at hvg
  rw [Digraph.pred_congr he] at hp
  exact (g₀.mem_sources v).mpr ⟨hvg, hp⟩

/-! ## Starting -/

theorem Bound.acyclic_iff (h : Bound bs g) : g.Acyclic ↔ ∀ v, ¬ Relation.TransGen (Draws bs) v v := by
  have hrel : (fun u v => (u, v) ∈ g.edges) = Draws bs := by
    funext u v
    exact propext (h.edges u v)
  unfold Digraph.Acyclic
  rw [hrel]

/-- A source with a readable name stands for itself. -/
theorem standsForItself_of_readable (h : create bs = .ok g) (hv : v ∈ g.sources) (hr : Readable v) :
    StandsForItself g v := by
  obtain ⟨hvg, hp⟩ := (g.mem_sources v).mp hv
  obtain ⟨c, d, hc, hget, hsym, hexpr⟩ := (create_bound h).2.2 v hvg hp
  rw [ofSource_eq_symbol_iff.mpr hr] at hc
  cases hc
  exact ⟨d, hget, hsym, hexpr⟩

theorem StandsForItself.sameContent {g' : Graph} (h : StandsForItself g v) (hsame : SameContent g g') :
    StandsForItself g' v := by
  obtain ⟨c, hget, hsym, hexpr⟩ := h
  obtain ⟨c', hget', hsym', hexpr'⟩ := hsame.column v c hget
  exact ⟨c', hget', hsym'.trans hsym, hexpr'.trans hexpr⟩

theorem SameContent.mem_sources_iff {g' : Graph} (h : SameContent g g') :
    v ∈ g'.sources ↔ v ∈ g.sources := by
  rw [g'.mem_sources, g.mem_sources, h.vertices, h.pred]

theorem readable_of_standsForItself (h : start s bs = .ok g)
    (hstands : ∀ v ∈ g.sources, StandsForItself g v) (hv : Given bs v) : Readable v := by
  have hb := (start_started h).toBound
  obtain ⟨hkey, w, hd⟩ := hv
  have hvg := hb.wellFormed.fst_mem _ ((hb.edges v w).mpr hd)
  have hp : g.pred v = [] := by
    by_contra hne
    exact hkey ((hb.pred_ne_nil_iff v).mp hne)
  obtain ⟨n, hname, hn⟩ := exprOf_source h hvg hp
  obtain ⟨c, hget, -, hexpr⟩ := hstands v ((g.mem_sources v).mpr ⟨hvg, hp⟩)
  rw [(exprOf_eq_some_iff g v (.symbol v)).mpr ⟨c, hget, hexpr⟩] at hn
  cases hn
  exact (ofName_eq_self_iff v).mp hname

/-- Where sources stand for themselves, and nothing is drawn from itself, groups are found. -/
theorem classifyAll_ok_of_acyclic (hb : Bound bs g)
    (hclass : ∀ v e, Binds bs v e → ∃ m ks, Grouping.split s.rule e = (m, .ok ks) ∧ ks.length ≤ 1)
    (hacyclic : g.Acyclic) (hstands : ∀ v ∈ g.sources, StandsForItself g v) :
    (classifyAll s g).2 = .ok () := by
  cases hr : (classifyAll s g).2 with
  | ok u => rfl
  | error x =>
    rcases classifyAll_error hb.wellFormed hr with ⟨-, hrest⟩ | ⟨v, hv, hx⟩
    · exact absurd (Digraph.generations_rest_eq_nil hb.wellFormed (hacyclic.ranked_height hb.wellFormed))
        hrest
    · by_cases hp : g.pred v = []
      · obtain ⟨c, hget, -, hexpr⟩ := hstands v ((g.mem_sources v).mpr ⟨hv, hp⟩)
        rw [hget, Option.bind_some, hexpr] at hx
        cases hx
      · obtain ⟨e, he⟩ := (hb.pred_ne_nil_iff v).mp hp
        obtain ⟨c, d, hget, hd, -, hexpr⟩ := hb.column v e he
        obtain ⟨m, ks, hsplit, hlen⟩ := hclass v d hd
        obtain ⟨k, hk, -⟩ := Grouping.soleKey_of_length_le_one hlen
        rw [hget, Option.bind_some, hexpr] at hx
        simp only [classOf, hsplit, hk] at hx
        cases hx

/-- **When a plan starts.** For columns that are bound to expressions, each split without failure
into at most one group, the graph is made with sources that all stand for themselves exactly where
no column is drawn from itself and every given column has a readable name. Where the bound
expressions do not name each other in a circle, no column is drawn from itself as long as no
constant is named as a bound column is. -/
theorem starts_iff_readable (hcols : ∀ b ∈ bs, ∃ n e, b = (.column n, .expr e))
    (hclass : ∀ v e, Binds bs v e → ∃ m ks, Grouping.split s.rule e = (m, .ok ks) ∧ ks.length ≤ 1) :
    ((∃ g, start s bs = .ok g ∧ ∀ v ∈ g.sources, StandsForItself g v) ↔
      (∀ v, ¬ Relation.TransGen (Draws bs) v v) ∧ ∀ v, Given bs v → Readable v) ∧
    ((∀ v, ¬ Relation.TransGen (Refers bs) v v) →
      (∀ v e, Binds bs v e → e.symbols = [] → ∀ u ∈ origins e, ¬ Keyed bs u) →
      ∀ v, ¬ Relation.TransGen (Draws bs) v v) := by
  refine ⟨⟨?_, ?_⟩, ?_⟩
  · rintro ⟨g, h, hstands⟩
    have hstarted := start_started h
    have hranked := Digraph.level_ranked hstarted.wellFormed hstarted.layered
    exact ⟨hstarted.toBound.acyclic_iff.mp (Digraph.acyclic_of_ranked hranked),
      fun v hv => readable_of_standsForItself h hstands hv⟩
  · rintro ⟨hacyclic, hread⟩
    obtain ⟨g₀, hcreate, hsources⟩ := create_ok hcols hread
    have hb := (create_bound hcreate).1
    have hstands : ∀ v ∈ g₀.sources, StandsForItself g₀ v :=
      fun v hv => standsForItself_of_readable hcreate hv (hsources v hv)
    have hsame := classifyAll_sameContent s g₀
    refine ⟨(classifyAll s g₀).1, ?_, ?_⟩
    · rcases start_cases s bs with ⟨x, hx, -⟩ | ⟨g₁, g, r, hc, hr, hstart⟩
      · rw [hcreate] at hx; cases hx
      · rw [hcreate] at hc
        cases hc
        have hok := classifyAll_ok_of_acyclic hb hclass (hb.acyclic_iff.mpr hacyclic) hstands
        rw [hr] at hok ⊢
        rw [hstart, show r = .ok () from hok]
        rfl
    · exact fun v hv => (hstands v (hsame.mem_sources_iff.mp hv)).sameContent hsame
  · intro hrefers hlabels v hv
    obtain ⟨w, -, e, he, -⟩ := Relation.TransGen.tail'_iff.mp hv
    exact hrefers v (transGen_refers hlabels ⟨e, he⟩ hv)

end

/-! ## Constants -/

/-- A constant, and a column computed from it. -/
def scaledByConstant : List (Slot × Value) :=
  [(.column "rate", .expr (.product [.scalar .negOne, .apply .log [.scalar (.exact 2400)]])),
    (.column "scaled", .expr (.apply (.named "ts_mean")
      [.product [.symbol "rate", .symbol "OPEN"], .scalar (.exact 5)]))]

theorem origins_constant :
    origins (.product [.scalar .negOne, .apply .log [.scalar (.exact 2400)]]) = ["-log(2400)"] := by
  have htext : (Expr.product [.scalar .negOne, .apply .log [.scalar (.exact 2400)]]).text =
      "-log(2400)" := by decide +kernel
  rw [origins_eq (by simp), ← htext]
  rfl

/-- The constant is given under its text, which has no blank. -/
theorem scaledByConstant_starts :
    ∃ g, start {} scaledByConstant = .ok g ∧ ∀ v ∈ g.sources, StandsForItself g v := by
  have hbinds : ∀ {v e}, Binds scaledByConstant v e →
      (v = "rate" ∧ origins e = ["-log(2400)"] ∧ e.symbols = []) ∨
        (v = "scaled" ∧ origins e = ["rate", "OPEN"] ∧ e.symbols = ["rate", "OPEN"]) := by
    intro v e he
    rcases List.mem_cons.mp he with he | he
    · cases he
      exact Or.inl ⟨rfl, origins_constant, rfl⟩
    · cases List.mem_singleton.mp he
      exact Or.inr ⟨rfl, rfl, rfl⟩
  have hcols : ∀ b ∈ scaledByConstant, ∃ n e, b = (.column n, .expr e) := by simp [scaledByConstant]
  have hclass : ∀ v e, Binds scaledByConstant v e →
      ∃ m ks, Grouping.split ({} : Setting).rule e = (m, .ok ks) ∧ ks.length ≤ 1 := by
    intro v e he
    rcases List.mem_cons.mp he with he | he
    · cases he
      exact ⟨_, _, rfl, by decide⟩
    · cases List.mem_singleton.mp he
      exact ⟨_, _, rfl, by decide⟩
  have hall := starts_iff_readable hcols hclass
  refine hall.1.mpr ⟨hall.2 ?_ ?_, ?_⟩
  · -- only the second column names others, and none of them names it
    have hrank : ∀ u v, Refers scaledByConstant u v →
        (if u = "scaled" then 1 else 0) < (if v = "scaled" then 1 else 0) := by
      rintro u v ⟨e, he, hu⟩
      rcases hbinds he with ⟨rfl, -, hs⟩ | ⟨rfl, -, hs⟩
      · simp [hs] at hu
      · rw [hs] at hu
        rcases List.mem_pair.mp hu with rfl | rfl <;> decide
    intro v hv
    have hlt := hv.lift (fun v => if v = "scaled" then 1 else 0) hrank
    rw [Relation.transGen_eq_self] at hlt
    exact lt_irrefl _ hlt
  · rintro v e he hnil u hu ⟨d, hd⟩
    rcases hbinds he with ⟨-, horigins, -⟩ | ⟨-, -, hs⟩
    · rw [horigins, List.mem_singleton] at hu
      rcases hbinds hd with ⟨hn, -⟩ | ⟨hn, -⟩ <;> exact absurd (hu.symm.trans hn) (by decide)
    · rw [hs] at hnil
      cases hnil
  · rintro u ⟨hkey, v, e, he, hu⟩
    rcases hbinds he with ⟨-, horigins, -⟩ | ⟨-, horigins, -⟩
    · rw [horigins, List.mem_singleton] at hu
      subst hu
      decide
    · rw [horigins] at hu
      rcases List.mem_pair.mp hu with rfl | rfl
      · exact absurd ⟨_, List.mem_cons_self⟩ hkey
      · decide

/-- A number less a logarithm. -/
def oneLessLog : Expr :=
  .sum [.scalar .one, .product [.scalar .negOne, .apply .log [.scalar (.exact 3)]]]

theorem origins_oneLessLog : origins oneLessLog = ["1 - log(3)"] := by
  have htext : oneLessLog.text = "1 - log(3)" := by decide +kernel
  rw [origins_eq (by simp [oneLessLog]), ← htext]
  rfl

/-- A constant with blanks in its text names no symbol and has no group, and still it cannot be
bound to a column: its text reads as three names. -/
theorem constant_sum_stops : oneLessLog.symbols = [] ∧
    (∃ m, Grouping.split ({} : Setting).rule oneLessLog = (m, .ok [])) ∧
    start {} [(.column "a", .expr oneLessLog)] = .error .noExpression := by
  refine ⟨rfl, ⟨_, rfl⟩, ?_⟩
  simp only [start, create, addColumns, addColumn, origins_oneLessLog]
  rfl

end Graph

end Plan

end FactorPlan
