import FactorPlan.Proofs.Chain
import FactorPlan.Proofs.Completion
import FactorPlan.Proofs.Schedule

/-!
What is computed from a column comes after it. In the rows of a plan a column stands
below those that its expression names (`lt_of_symbol`): a started plan has an edge from
each of them (`Started.scheduled`), and the middle keeps that (`Scheduled.middle`).

Optimising the rows can break this. A group goes up through links of its key that follow
each other, and groups of other keys in the rows between stay behind. The optimised rows
have every item, once, and they are in order exactly where no group is carried before
one that it is computed from (`inOrder_iff_not_overtaken`). That can happen
(`mean_before_rank`), but not where no two links in a row are equal
(`not_overtaken_of_links`).
-/

namespace FactorPlan

namespace Plan

namespace Graph

open Formula (Value)

variable {s : Setting} {bs : List (Slot × Value)} {g g' : Graph}

/-! ## Edges from what an expression names -/

/-- A column that is not given has edges from the columns that its expression names. -/
def Covered (g : Graph) : Prop := ∀ v e x, g.pred v ≠ [] → g.exprOf v = some e → x ∈ e.symbols →
  x ∈ g.vertices → (x, v) ∈ g.edges

theorem Started.mem_edges_of_symbol (h : Started s bs g) {v x : String} {e : Expr} (hp : g.pred v ≠ [])
    (he : g.exprOf v = some e) (hx : x ∈ e.symbols) : (x, v) ∈ g.edges := by
  obtain ⟨u, hu⟩ := Digraph.exists_mem_of_pred_ne_nil hp
  obtain ⟨d, hd, _⟩ := (h.edges u v).mp hu
  obtain ⟨c, e', hc, hb, _, hce⟩ := h.column v d hd
  have heq : g.exprOf v = some e' := (exprOf_eq_some_iff g v e').mpr ⟨c, hc, hce⟩
  rw [he] at heq
  cases heq
  exact (h.edges x v).mpr ⟨e, hb, symbols_subset_origins e x hx⟩

theorem Started.covered (h : Started s bs g) : Covered g :=
  fun _ _ _ hp he hx _ => h.mem_edges_of_symbol hp he hx

theorem mem_vertices_of_exprOf {v : String} {e : Expr} (h : g.exprOf v = some e) :
    v ∈ g.vertices := by
  obtain ⟨c, hc, _⟩ := (exprOf_eq_some_iff g v e).mp h
  exact (Digraph.mem_vertices_iff g v).mpr ⟨c, hc⟩

theorem Covered.keeps (h : Covered g) (hk : Digraph.Keeps g g') : Covered g' := by
  intro v e x hp he hx hv
  have hmem := mem_vertices_of_exprOf he
  obtain ⟨u, hu⟩ := Digraph.exists_mem_of_pred_ne_nil hp
  have hp := Digraph.pred_ne_nil_of_mem ((hk.edges (u, v)).mp hu).1
  rw [exprOf, hk.attributes v hmem] at he
  exact (hk.edges (x, v)).mpr ⟨h v e x hp he hx (hk.vertices x hv), hmem⟩

theorem Covered.inlined {rebuild : Rebuild} (hr : Expr.BringsNone rebuild.always) {v : String} {e : Expr}
    (hg : Planned g) (h : Covered g) (hi : Inlined rebuild g v e g') : Covered g' := by
  intro w d' x hp hd' hx hxv
  obtain ⟨hw, hne⟩ := (hi.vertices w).mp (mem_vertices_of_exprOf hd')
  obtain ⟨hxg, hxne⟩ := (hi.vertices x).mp hxv
  obtain ⟨d, hd⟩ := hg.exprOf w hw
  have hedge : ∀ y ∈ d.symbols, y ∈ g.vertices → (y, w) ∈ g.edges :=
    fun y => h w d y (hi.pred_ne_nil_of hp) hd
  rw [hi.exprOf hne hd] at hd'
  cases hd'
  rw [hi.edges]
  refine ⟨?_, hxne, hne⟩
  by_cases hs : w ∈ g.succ v
  · -- a name was there before, or came with the expression of `v`
    rw [if_pos hs] at hx
    rcases Expr.symbols_putFor hr v e d x hx with ⟨hx, _⟩ | ⟨hx, _⟩
    · exact Or.inl (hedge x hx hxg)
    · exact Or.inr ⟨h v e x hi.pred_ne_nil hi.expr hx hxg, (Digraph.mem_succ g v w).mp hs⟩
  · rw [if_neg hs] at hx
    exact Or.inl (hedge x hx hxg)

theorem Covered.sameContent (h : Covered g) (hs : SameContent g g') : Covered g' := by
  intro v e x hp he hx hxv
  rw [hs.pred] at hp
  rw [hs.exprOf] at he
  rw [hs.vertices] at hxv
  rw [hs.edges]
  exact h v e x hp he hx hxv

/-- A plan whose columns all have groups and come after those that their expressions name. -/
structure Scheduled (s : Setting) (g : Graph) : Prop where
  planned : Planned g
  layered : g.generations.2 = []
  classified : ∀ v ∈ g.vertices, Classified s g v
  covered : Covered g

theorem Started.scheduled (h : Started s bs g) : Scheduled s g :=
  ⟨h.planned, h.layered, h.classified, h.covered⟩

theorem Scheduled.middle {build : Build} (hr : Expr.BringsNone build)
    {order : List String → List String} {names : List String} (h : Scheduled s g)
    (hm : middle s build order g names = (g', .ok ())) : Scheduled s g' := by
  obtain ⟨g₁, hrun, hsame, hok⟩ := middle_spec build.complete s order h.planned names
  rw [middle_of_ok hm] at hsame hok
  have hcl := (hok rfl).symm
  have hkeeps := Digraph.keepOnly_keeps order names h.planned.wellFormed
  -- removing and inlining keep the edges; finding groups changes neither edges nor expressions
  have hstep := hrun.keeps (fun g => Planned g ∧ Covered g)
    (fun _ _ _ _ hi hp => ⟨hi.planned hp.1, hp.2.inlined hr.complete hp.1 hi⟩)
    ⟨h.planned.keeps hkeeps, h.covered.keeps hkeeps⟩
  obtain ⟨hrest, hall⟩ := classifyAll_ok hstep.1.wellFormed hcl
  refine ⟨hstep.1.sameContent hsame hall, ?_, ?_, hstep.2.sameContent hsame⟩
  · rw [hsame.generations]; exact hrest
  · rw [hsame.vertices]; exact hall

/-! ## Rows of a scheduled plan -/

theorem ofRoot_ne_nil {c : Columns} {n : Naming} {e : Expr} {k : Key}
    (h : Key.ofRoot c n e = .ok k) : k ≠ [] := by
  have hgroup : ∀ args, Key.ofGroup c.date args = .ok k → k ≠ [] := by
    intro args h
    unfold Key.ofGroup at h
    split at h
    · cases h
    · split at h <;> cases h
      exact List.cons_ne_nil _ _
  unfold Key.ofRoot at h
  split at h
  · unfold Key.ofOperator at h
    split at h
    · split at h
      · cases h; exact List.cons_ne_nil _ _
      · cases h; exact List.cons_ne_nil _ _
      · exact hgroup _ h
      · cases h; exact List.cons_ne_nil _ _
      · cases h
    · split at h
      · cases h; exact List.cons_ne_nil _ _
      · split at h
        · cases h; exact List.cons_ne_nil _ _
        · split at h
          · exact hgroup _ h
          · cases h; exact List.cons_ne_nil _ _
  · cases h; exact List.cons_ne_nil _ _

theorem soleKey_ne_nil {ks : List Key} {k : Key} (hks : ∀ j ∈ ks, j ≠ [])
    (h : Grouping.soleKey ks = .ok k) : k ≠ [] := by
  unfold Grouping.soleKey at h
  split at h
  · cases h; exact List.cons_ne_nil _ _
  · cases h; exact hks k List.mem_cons_self
  · cases h

/-- Every column that has a group has a way of grouping. -/
theorem Scheduled.key_ne_nil (h : Scheduled s g) {v : String} (hv : v ∈ g.vertices) :
    (entry g v).1 ≠ [] := by
  obtain ⟨c, e, m, ks, k, hc, _, hsplit, hsole, hk, _⟩ := h.classified v hv
  have hkey : (entry g v).1 = k := by simp [entry, hc, hk]
  rw [hkey]
  refine soleKey_ne_nil (fun j hj => ?_) hsole
  obtain ⟨hs, hks, _⟩ := Grouping.splits_of_split hsplit
  have hwithin := Grouping.outerKeys_subset hs j (hks ▸ hj)
  obtain ⟨d, _, hd⟩ := List.mem_flatMap.mp hwithin
  exact ofRoot_ne_nil (Grouping.mem_ownKey.mp hd).1

theorem nodup_itemNames_layout (hg : g.WellFormed) : (itemNames (layout g)).Nodup := by
  rw [(itemNames_layout g).nodup_iff]
  have hdrop := (List.drop_sublist 1 g.generations.1).flatten
  exact (Digraph.nodup_generations hg).sublist hdrop

theorem layout_orderly (hg : g.WellFormed) : Chain.Orderly (layout g) := by
  refine ⟨fun r hr => ?_, fun r hr p hp => ?_, (nodup_itemNames_layout hg).of_map _⟩
  · obtain ⟨vs, _, rfl⟩ := List.mem_map.mp hr
    exact Rows.nodup_keys_gather _
  · obtain ⟨vs, _, rfl⟩ := List.mem_map.mp hr
    refine ⟨((vs.map (entry g)).filter (fun x => x.1 = p.1)).map (·.2), ?_⟩
    rw [Rows.mem_gather hp, List.map_map]
    rfl

theorem mem_of_mem_groupAt_gather {κ ι : Type} [DecidableEq κ] {xs : List (κ × ι)} {k : κ} {x : ι}
    (h : some x ∈ Chain.groupAt (some k) (Rows.gather xs)) : (k, x) ∈ xs := by
  rw [Chain.groupAt, Option.bind_some] at h
  cases hg : Table.get? k (Rows.gather xs) with
  | none => rw [hg] at h; cases h
  | some group =>
    have hmem := (Table.mem_iff_get? (Rows.nodup_keys_gather xs) k group).mpr hg
    rw [hg, Option.getD_some] at h
    exact Rows.mem_group_gather.mp ⟨group, hmem, h⟩

/-- The groups of a plan hold the columns of their row that have their key. -/
theorem mem_groupIn_layout {b : Nat × Key} {x : Item}
    (hx : some x ∈ Chain.groupIn (layout g) b.1 b.2) :
    ∃ vs, g.generations.1[b.1 + 1]? = some vs ∧ x.1 ∈ vs ∧ entry g x.1 = (b.2, x) := by
  have hj := (Chain.mem_of_mem_groupIn hx).1
  have hlen : b.1 + 1 < g.generations.1.length := by
    simp only [layout, List.length_map, List.length_drop] at hj
    omega
  have hrow : (layout g).getD b.1 [] = rowOf g g.generations.1[b.1 + 1] := by
    rw [List.getD_eq_getElem _ _ hj]
    simp [layout]
  rw [Chain.groupIn, hrow] at hx
  obtain ⟨v, hv, hvx⟩ := List.mem_map.mp (mem_of_mem_groupAt_gather hx)
  have hname : x.1 = v := by
    have := congrArg (fun q => q.2.1) hvx
    exact this.symm
  exact ⟨_, List.getElem?_eq_getElem hlen, hname ▸ hv, hname ▸ hvx⟩

/-- What an expression names stands in an earlier row. -/
theorem Scheduled.lt_of_symbol (h : Scheduled s g) {a b : Nat × Key} {x y : Item}
    (hx : some x ∈ Chain.groupIn (layout g) a.1 a.2) (hy : some y ∈ Chain.groupIn (layout g) b.1 b.2)
    (hsym : x.1 ∈ y.2.symbols) : a.1 < b.1 := by
  have hg := h.planned.wellFormed
  obtain ⟨us, hus, hxu, _⟩ := mem_groupIn_layout hx
  obtain ⟨vs, hvs, hyv, hentry⟩ := mem_groupIn_layout hy
  have hxg := Digraph.mem_vertices_of_generation hg (List.mem_of_getElem? hus) hxu
  have hyg := Digraph.mem_vertices_of_generation hg (List.mem_of_getElem? hvs) hyv
  -- only the first generation is given, and it has no row
  have hpred : g.pred y.1 ≠ [] := by
    intro hnil
    have hzero := (Digraph.level_eq_zero_iff hg h.layered hyg).mpr hnil
    rw [Digraph.level_eq hg hvs hyv] at hzero
    cases hzero
  obtain ⟨e, he⟩ := h.planned.exprOf y.1 hyg
  have hexpr : y.2 = e := by
    have := congrArg (fun q => q.2.2) hentry
    simpa [entry, he] using this.symm
  have hedge := h.covered y.1 e x.1 hpred he (hexpr ▸ hsym) hxg
  have hlevel := Digraph.level_ranked hg h.layered (x.1, y.1) hedge
  rw [Digraph.level_eq hg hus hxu, Digraph.level_eq hg hvs hyv] at hlevel
  omega

theorem Scheduled.keys_ne_nil (h : Scheduled s g) : ∀ r ∈ layout g, ∀ p ∈ r, p.1 ≠ [] := by
  intro r hr p hp
  obtain ⟨vs, hvs, rfl⟩ := List.mem_map.mp hr
  obtain ⟨x, hx, hk⟩ := Rows.mem_keys_gather.mp (List.mem_map_of_mem (f := Prod.fst) hp)
  obtain ⟨v, hv, rfl⟩ := List.mem_map.mp hx
  rw [← hk]
  exact h.key_ne_nil (Digraph.mem_vertices_of_generation h.planned.wellFormed
    (List.mem_of_mem_drop hvs) hv)

/-! ## Order after optimising -/

/-- Every item stands after those that its expression names, with a separator between them. -/
def InOrder (xs : Group Item) : Prop :=
  ∀ x y, some x ∈ xs → some y ∈ xs → x.1 ∈ y.2.symbols → [some x, none, some y].Sublist xs

/-- A group is carried before one that it is computed from. -/
def Overtaken (ls : List (Option Key)) (rs : Rows Key Item) : Prop :=
  ∃ a b x y, some x ∈ Chain.groupIn rs a.1 a.2 ∧ some y ∈ Chain.groupIn rs b.1 b.2 ∧
    x.1 ∈ y.2.symbols ∧ Chain.Overtakes ls b a

/-- No group is carried that far where no two links that follow each other are equal. -/
theorem not_overtaken_of_links {ls : List (Option Key)}
    (h : ∀ m k, Chain.linkAt ls m = some k → Chain.linkAt ls (m + 1) ≠ some k)
    (rs : Rows Key Item) : ¬ Overtaken ls rs := by
  rintro ⟨a, b, _, _, _, _, _, _, hpos, hab, hlinks⟩
  have hbefore := hlinks (a.1 - 1) (by omega) (by omega)
  have hafter := hlinks (a.1 - 1 + 1) (by omega) (by omega)
  exact h _ _ hbefore hafter

/-- The optimised rows of a scheduled plan. -/
theorem Scheduled.optimize (h : Scheduled s g) (order : List Key → List Key)
    (horder : ∀ ks, ∀ k ∈ order ks, k ∈ ks) :
    ∃ out, Chain.optimize order true true (layout g) = (out, .ok ()) ∧
      out.flatten.Perm (layout g).flatten ∧
      (InOrder out.flatten ↔ ¬ Overtaken (Chain.links order ((layout g).map Table.keys)) (layout g)) := by
  have hl := Chain.links_linked horder ((layout g).map Table.keys)
  have hord := layout_orderly h.planned.wellFormed
  obtain ⟨out, hout, hflat⟩ := Chain.optimize_flatten horder h.keys_ne_nil
  generalize Chain.links order ((layout g).map Table.keys) = ls at hl hflat
  have hperm := Chain.flatten_move_perm hl hord.keys
  rw [← hflat] at hperm
  refine ⟨out, hout, hperm, ?_⟩
  constructor
  · rintro hin ⟨a, b, x, y, hx, hy, hsym, hover⟩
    have hxout := hperm.mem_iff.mpr ((Chain.mem_flatten_iff hord.keys).mpr ⟨a, hx⟩)
    have hyout := hperm.mem_iff.mpr ((Chain.mem_flatten_iff hord.keys).mpr ⟨b, hy⟩)
    have hsub := hin x y hxout hyout hsym
    rw [hflat, Chain.sublist_flatten_move_iff hl hord hx hy (h.lt_of_symbol hx hy hsym)] at hsub
    exact hsub hover
  · intro hno x y hx hy hsym
    obtain ⟨a, hx⟩ := (Chain.mem_flatten_iff hord.keys).mp (hperm.mem_iff.mp hx)
    obtain ⟨b, hy⟩ := (Chain.mem_flatten_iff hord.keys).mp (hperm.mem_iff.mp hy)
    rw [hflat, Chain.sublist_flatten_move_iff hl hord hx hy (h.lt_of_symbol hx hy hsym)]
    exact fun hover => hno ⟨a, b, x, y, hx, hy, hsym, hover⟩

/-- Whatever links are chosen, the optimised rows of a plan, with or without its middle, hold its
items once, and in order exactly where no group is carried before one that it is computed from. -/
theorem inOrder_iff_not_overtaken (hstart : start s bs = .ok g)
    (hplan : g' = g ∨ ∃ build order names, Expr.BringsNone build ∧
      middle s build order g names = (g', .ok ()))
    (linkOrder : List Key → List Key) (hlink : ∀ ks, ∀ k ∈ linkOrder ks, k ∈ ks) :
    ∃ rs out, rows g' = .ok rs ∧ Chain.optimize linkOrder true true rs = (out, .ok ()) ∧
      (itemNames out).Perm (itemNames rs) ∧ (itemNames out).Nodup ∧
      (InOrder out.flatten ↔ ¬ Overtaken (Chain.links linkOrder (rs.map Table.keys)) rs) := by
  have hs : Scheduled s g' := by
    have hg := (start_started hstart).scheduled
    rcases hplan with rfl | ⟨build, order, names, hr, hm⟩
    · exact hg
    · exact hg.middle hr hm
  obtain ⟨out, hout, hperm, hin⟩ := hs.optimize linkOrder hlink
  have hnames : (itemNames out).Perm (itemNames (layout g')) := (hperm.filterMap id).map _
  exact ⟨layout g', out, rows_eq hs.planned hs.layered, hout, hnames,
    hnames.nodup_iff.mpr (nodup_itemNames_layout hs.planned.wellFormed), hin⟩

/-- A column computed from another by an operator. -/
def computed (n f a : String) : Slot × Value :=
  (.column n, .expr (.apply (.named f) [.symbol a]))

/-- Ranks of a mean and of its sum. -/
def ranksOfMeans : List (Slot × Value) :=
  [computed "p" "ts_mean" "OPEN", computed "q" "cs_rank" "p", computed "r" "ts_sum" "p",
    computed "t" "cs_rank" "r"]

/-- The sum moves up to the mean, and then the second rank to the first. -/
theorem inOrder_ranksOfMeans : ∃ g g' rs out, start {} ranksOfMeans = .ok g ∧
    middle {} .unevaluated id g ["q", "t"] = (g', .ok ()) ∧ rows g' = .ok rs ∧
    Chain.optimize id true true rs = (out, .ok ()) ∧ InOrder out.flatten := by
  let g : Graph := (start {} ranksOfMeans).toOption.getD {}
  have hg : start {} ranksOfMeans = .ok g := rfl
  have hok : (middle {} .unevaluated id g ["q", "t"]).2 = .ok () := by decide +kernel
  have hlinks : (rows (middle {} .unevaluated id g ["q", "t"]).1).toOption.map
      (fun rs => Chain.links id (rs.map Table.keys)) =
        some [some (Key.overTime "asset" "date"), some (Key.acrossMarket "date")] := by
    decide +kernel
  rcases hm : middle {} .unevaluated id g ["q", "t"] with ⟨g', r⟩
  rw [hm] at hok hlinks
  cases (hok : r = .ok ())
  obtain ⟨rs, out, hrs, hout, _, _, hin⟩ := inOrder_iff_not_overtaken hg
    (Or.inr ⟨.unevaluated, id, ["q", "t"], Expr.bringsNone_unevaluated, hm⟩) id (fun _ _ hk => hk)
  refine ⟨g, g', rs, out, hg, hm, hrs, hout, hin.mpr (not_overtaken_of_links ?_ rs)⟩
  rw [hrs] at hlinks
  rw [show Chain.links id (rs.map Table.keys) = _ from Option.some.inj hlinks]
  rintro (_ | m) k hk hnext
  · exact absurd (hk.trans hnext.symm) (by decide)
  · simp at hnext

/-- A mean of a rank of a mean, where the first mean has a mean too. -/
def meanOfRankOfMean : List (Slot × Value) :=
  [computed "a" "ts_mean" "OPEN", computed "b" "ts_mean" "a", computed "c" "cs_rank" "a",
    computed "d" "ts_mean" "c"]

/-- The means are all linked: the last of them is carried before the rank that it is computed
from. -/
theorem mean_before_rank : ∃ g rs out, start {} meanOfRankOfMean = .ok g ∧ rows g = .ok rs ∧
    Chain.optimize id true true rs = (out, .ok ()) ∧
    itemNames out = ["a", "b", "d", "c"] ∧ ¬ InOrder out.flatten := by
  let g : Graph := (start {} meanOfRankOfMean).toOption.getD {}
  have hg : start {} meanOfRankOfMean = .ok g := rfl
  have hs := (start_started hg).scheduled
  obtain ⟨out, hout, _, hin⟩ := hs.optimize id (fun _ _ hk => hk)
  have hnames : itemNames (Chain.optimize id true true (layout g)).1 = ["a", "b", "d", "c"] := by
    decide +kernel
  rw [hout] at hnames
  refine ⟨g, layout g, out, hg, rows_eq hs.planned hs.layered, hout, hnames, ?_⟩
  rw [hin, not_not]
  refine ⟨(1, Key.acrossMarket "date"), (2, Key.overTime "asset" "date"),
    ("c", .apply (.named "cs_rank") [.symbol "a"]), ("d", .apply (.named "ts_mean") [.symbol "c"]),
    by decide +kernel, by decide +kernel, by decide +kernel, by decide +kernel, by decide, by decide,
    fun m _ hm => ?_⟩
  have hlinks : ∀ m < 2, Chain.linkAt (Chain.links id ((layout g).map Table.keys)) m =
      some (Key.overTime "asset" "date") := by decide +kernel
  exact hlinks m hm

end Graph

end Plan

end FactorPlan
