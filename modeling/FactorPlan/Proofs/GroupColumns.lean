import FactorPlan.Plan.Generate
import FactorPlan.Proofs.Kinds

/-!
The columns that groups are formed by. A key within groups holds the name of the first argument
of an operator (`rule_cases`). Where that argument is a symbol, it names a column, which is
given or computed in an earlier row. Where it is an application, the key holds the name of an
operator, and there need not be such a column.

In a plan the group column of an item is there whenever the item names it; if it does not, an
operator within groups is applied to another operator directly (`schedule_groupColumn`). That
cannot be where splitting finds nothing to be computed beforehand
(`mem_symbols_of_partsIn_eq_nil`), nor where bound expressions are grouped by given columns. But
merging columns can bring it about (`grouped_by_operator`).
-/

namespace FactorPlan

namespace Expr

open Stock (ofSymbols supplies_ofSymbols supplies_iff)

theorem supplies_own_symbols (e : Expr) : (ofSymbols (· ∈ e.symbols)).Supplies e :=
  supplies_ofSymbols.mpr fun _ hx => hx

theorem mem_symbols_of_mem_nodes {e : Expr} {n : String} (h : .symbol n ∈ e.nodes) :
    n ∈ e.symbols :=
  e.supplies_own_symbols _ h

theorem mem_symbols_of_mem_args {a e : Expr} {n : String} (ha : a ∈ e.args) (hn : n ∈ a.symbols) :
    n ∈ e.symbols :=
  supplies_ofSymbols.mp ((supplies_iff.mp e.supplies_own_symbols).2 a ha) n hn

end Expr

namespace Plan

open Grouping

variable {s : Setting}

/-- An operator within groups has this first argument. -/
def GroupsBy (s : Setting) (x e : Expr) : Prop :=
  ∃ f as, Expr.apply (.named f) (x :: as) ∈ e.nodes ∧ Naming.isWithinGroup s.naming f = true

theorem GroupsBy.mem_nodes {x e : Expr} (h : GroupsBy s x e) : x ∈ e.nodes := by
  obtain ⟨f, as, hmem, _⟩ := h
  exact Expr.mem_nodes_trans hmem (Expr.mem_nodes_of_mem_args List.mem_cons_self)

theorem exists_groupsBy {a : Expr} {date n : String} (h : s.rule a = .ok (Key.withinGroup date n)) :
    ∃ f x as, a = .apply (.named f) (x :: as) ∧ Naming.isWithinGroup s.naming f = true ∧
      x.name? = some n := by
  rcases rule_cases h with hk | hk | hk | ⟨f, x, as, m, ha, hf, hx, hk⟩
  · simp [Key.withinGroup, Key.plain] at hk
  · simp [Key.withinGroup, Key.overTime] at hk
  · simp [Key.withinGroup, Key.acrossMarket] at hk
  · obtain ⟨_, rfl⟩ : date = s.columns.date ∧ n = m := by simpa [Key.withinGroup] using hk
    exact ⟨f, x, as, ha, hf, hx⟩

/-- A grouped name is that of a symbol, or of an operator that another one is applied to. -/
theorem named_cases {x : Expr} {n : String} (h : x.name? = some n) :
    x = .symbol n ∨ ∃ as, x = .apply (.named n) as := by
  unfold Expr.name? at h
  split at h
  · exact Or.inl (by rw [Option.some.inj h])
  · rename_i as
    exact Or.inr ⟨as, by rw [Option.some.inj h]⟩
  · cases h

/-- Where nothing is to be computed beforehand, the group columns are named. -/
theorem mem_symbols_of_partsIn_eq_nil {e : Expr} {date n : String} (hs : Splits s.rule e)
    (hnone : partsIn s.rule e = []) (hk : Key.withinGroup date n ∈ keysWithin s.rule e) :
    n ∈ e.symbols := by
  induction e using Expr.args_induction with
  | h e ih =>
    obtain ⟨own, hr, hargs, _, hparts⟩ := split_cases hs
    rw [hnone] at hparts
    obtain ⟨hbelow, hneeded⟩ := List.append_eq_nil_iff.mp hparts.symm
    have harg : ∀ a ∈ e.args, Key.withinGroup date n ∈ keysWithin s.rule a → n ∈ e.symbols :=
      fun a ha hka => Expr.mem_symbols_of_mem_args ha
        (ih a ha (hargs a ha) (List.flatMap_eq_nil_iff.mp hbelow a ha) hka)
    rcases mem_keysWithin.mp hk with hown | ⟨a, ha, hka⟩
    · obtain ⟨hrule, hne⟩ := mem_ownKey.mp hown
      rw [hr] at hrule
      cases hrule
      obtain ⟨f, x, as, rfl, _, hx⟩ := exists_groupsBy hr
      have hmem : x ∈ (Expr.apply (.named f) (x :: as)).args := List.mem_cons_self
      rcases named_cases hx with rfl | ⟨bs, rfl⟩
      · exact Expr.mem_symbols_of_mem_args hmem (by simp [Expr.symbols])
      · -- an argument that is not split off has an operator of the same groups in it
        by_cases hin : Key.withinGroup date n ∈ outerKeys s.rule (.apply (.named n) bs)
        · exact harg _ hmem (outerKeys_subset (hargs _ hmem) _ hin)
        · have : Expr.apply (.named n) bs ∈ ([] : List Expr) := by
            rw [← hneeded]
            exact mem_needed.mpr ⟨_, hmem, rfl, List.mem_singleton_self _, Or.inr ⟨hne, hin⟩⟩
          cases this
    · exact harg a ha hka

namespace Graph

open Formula (Value)

variable {bs : List (Slot × Value)} {g g' : Graph} {given : String → Prop}

/-! ## Groups by given columns -/

/-- A column of a started plan has a bound expression, or is given and stands for a symbol. -/
theorem exprOf_started (h : start s bs = .ok g) {v : String} {e : Expr} (he : g.exprOf v = some e) :
    Binds bs v e ∨ ∃ n, e = .symbol n := by
  have hs := start_started h
  by_cases hp : g.pred v = []
  · obtain ⟨n, _, hn⟩ := exprOf_source h (mem_vertices_of_exprOf he) hp
    rw [he] at hn
    exact Or.inr ⟨n, Option.some.inj hn⟩
  · obtain ⟨e₀, he₀⟩ := (hs.toBound.pred_ne_nil_iff v).mp hp
    obtain ⟨c, d, hc, hb, _, hx⟩ := hs.column v e₀ he₀
    have hd := (exprOf_eq_some_iff g v d).mpr ⟨c, hc, hx⟩
    rw [he] at hd
    cases hd
    exact Or.inl hb

theorem groupedBy_symbol (n : String) : GroupedBy s given (.symbol n) := by
  intro f as ha
  simp [Expr.nodes] at ha

/-- A started plan of expressions that are grouped by columns that are not bound. -/
theorem kinded_of_groupedBy (h : start s bs = .ok g)
    (hgrouped : ∀ v e, Binds bs v e → GroupedBy s (fun n => ¬ Keyed bs n) e) :
    Kinded s (fun n => ¬ Keyed bs n) (fun _ _ => True) g := by
  have hs := start_started h
  refine ⟨hs.planned, fun v hv hn => hn ((hs.toBound.pred_ne_nil_iff v).mp hv), fun v e he => ?_⟩
  obtain ⟨m, ks, _, hsplit, _⟩ := (hs.classified v (mem_vertices_of_exprOf he)).split_exprOf he
  refine supplies_kindStock_iff.mpr ⟨(splits_of_split hsplit).1, fun _ _ => trivial, ?_⟩
  rcases exprOf_started h he with hb | ⟨n, rfl⟩
  · exact hgrouped v e hb
  · exact groupedBy_symbol n

/-- The middle of a plan keeps expressions grouped by given columns. -/
theorem Kinded.groupedBy_middle {build : Build} (hb : Expr.BringsNothing build)
    {order : List String → List String} {names : List String}
    (h : Kinded s given (fun _ _ => True) g)
    (hm : middle s build order g names = (g', .ok ())) :
    ∀ v e, g'.exprOf v = some e → GroupedBy s given e := by
  obtain ⟨g₁, hrun, hsame, _⟩ := middle_spec build.complete s order h.planned names
  rw [middle_of_ok hm] at hsame
  have hkept := hrun.keeps (Kinded s given (fun _ _ => True))
    (fun _ _ _ _ hi hk => hk.inlined hb.complete hi fun _ _ _ _ _ _ _ => Or.inr trivial)
    (h.keeps (Digraph.keepOnly_keeps order names h.planned.wellFormed))
  intro v e he
  rw [hsame.exprOf] at he
  exact (supplies_kindStock_iff.mp (hkept.kind v e he)).2.2

/-! ## Groups of items -/

/-- The operators within groups in a column are such that its key is one of theirs. -/
theorem Scheduled.mem_keysWithin (h : Scheduled s g) {v date n : String} {e : Expr}
    (hk : g.keyOf v = some (Key.withinGroup date n)) (he : g.exprOf v = some e) :
    Splits s.rule e ∧ Key.withinGroup date n ∈ keysWithin s.rule e := by
  obtain ⟨m, ks, k, hsplit, hsole, hkey⟩ :=
    (h.classified v (mem_vertices_of_exprOf he)).split_exprOf he
  rw [hk] at hkey
  cases hkey
  refine ⟨(splits_of_split hsplit).1, (mem_keysWithin_of_soleKey hsplit hsole).resolve_left ?_⟩
  simp [Key.withinGroup, Key.plain]

/-- The group column of an item is named by an argument of an operator in it. -/
theorem Scheduled.exists_groupsBy (h : Scheduled s g) {v date n : String} {e : Expr}
    (hk : g.keyOf v = some (Key.withinGroup date n)) (he : g.exprOf v = some e) :
    ∃ x, GroupsBy s x e ∧ x.name? = some n := by
  obtain ⟨a, ha, hka⟩ := List.mem_flatMap.mp (h.mem_keysWithin hk he).2
  obtain ⟨f, x, as, rfl, hf, hx⟩ := Plan.exists_groupsBy (mem_ownKey.mp hka).1
  exact ⟨x, ⟨f, as, ha, hf⟩, hx⟩

/-- Every column that groups are formed by is given, or computed in an earlier row. -/
def GroupColumnsAvailable (g : Graph) (rs : Rows Key Item) : Prop :=
  ∀ i v e date n, Stands rs i (Key.withinGroup date n) (v, e) → Available g rs i n

theorem Available.mem_vertices {rs : Rows Key Item} {i : Nat} {n : String} (hrows : Schedules g rs)
    (h : Available g rs i n) : n ∈ g.vertices := by
  rcases h with hn | ⟨j, k, e, _, hst⟩
  · exact ((g.mem_sources n).mp hn).1
  · exact (hrows.item j k n e hst).1

/-- Group columns are there where columns are grouped by symbols. -/
theorem Scheduled.groupColumnsAvailable (h : Scheduled s g) {rs : Rows Key Item}
    (hrows : Schedules g rs) (hsymbols : ∀ v e, g.exprOf v = some e → GroupedBySymbols s e) :
    GroupColumnsAvailable g rs := by
  intro i v e date n hst
  obtain ⟨_, _, hk, he⟩ := hrows.item _ _ _ _ hst
  obtain ⟨x, hx, hname⟩ := h.exists_groupsBy hk he
  obtain ⟨f, as, hmem, hf⟩ := id hx
  obtain ⟨m, rest, has⟩ := hsymbols v e he f _ hmem hf
  cases has
  cases hname
  exact hrows.available _ _ _ _ hst n (Expr.mem_symbols_of_mem_nodes hx.mem_nodes)

theorem schedule_ok {build : Build} {order : List String → List String} {fast : Bool} {b : Bindings}
    {names : List String} {rs : Rows Key Item}
    (h : schedule s build order fast b names = .ok (g', rs)) :
    ∃ g, start s (asValues b) = .ok g ∧ rows g' = .ok rs ∧
      ((fast = true ∧ g' = g) ∨ fast = false ∧ middle s build order g names = (g', .ok ())) := by
  have hlast : ∀ g₁ : Graph, (rows g₁ >>= fun rs => pure (g₁, rs)) = .ok (g', rs) →
      g' = g₁ ∧ rows g' = .ok rs := by
    intro g₁ h
    cases hrows : rows g₁ with
    | error x => rw [hrows] at h; cases h
    | ok rs' =>
      rw [hrows] at h
      cases h
      exact ⟨rfl, hrows⟩
  unfold schedule at h
  cases hstart : start s (asValues b) with
  | error x => rw [hstart] at h; cases h
  | ok g =>
    rw [hstart] at h
    cases fast with
    | true =>
      obtain ⟨rfl, hrows⟩ := hlast g h
      exact ⟨g', rfl, hrows, Or.inl ⟨rfl, rfl⟩⟩
    | false =>
      rcases hm : middle s build order g names with ⟨g₁, r⟩
      simp only [Bind.bind, Except.bind, Bool.false_eq_true, if_false, hm] at h
      cases r with
      | error x => cases h
      | ok u =>
        obtain ⟨rfl, hrows⟩ := hlast g₁ h
        exact ⟨g, rfl, hrows, Or.inr ⟨rfl, hm⟩⟩

/-- **Group columns are there, or are operators.** In a plan that is scheduled, with or without
merging columns, in whatever order they are merged and however nodes are built, as long as that
brings in nothing, the group column of an item is given or computed in an earlier row if the item
names it. If it does not, an operator within groups is applied to an operator of the name of the
group column, and there is no such column unless one happens to be called so. An item names its
group column where splitting finds nothing in it to be computed beforehand. So all group columns
are there where bound expressions are grouped by columns that are not bound and, without merging,
where they are grouped by any symbols. -/
theorem schedule_groupColumn {build : Build} (hbuild : Expr.BringsNothing build)
    {order : List String → List String} {fast : Bool} {b : Bindings} {names : List String}
    {rs : Rows Key Item} (h : schedule s build order fast b names = .ok (g, rs)) :
    (∀ i v e date n, Stands rs i (Key.withinGroup date n) (v, e) →
      (n ∈ e.symbols → Available g rs i n) ∧
      (n ∉ e.symbols → (∃ as, GroupsBy s (.apply (.named n) as) e) ∧
        (n ∉ g.vertices → ¬ Available g rs i n)) ∧
      (partsIn s.rule e = [] → n ∈ e.symbols)) ∧
    ((∀ v e, Binds (asValues b) v e → GroupedBy s (fun n => ¬ Keyed (asValues b) n) e) →
      GroupColumnsAvailable g rs) ∧
    (fast = true → (∀ v e, Binds (asValues b) v e → GroupedBySymbols s e) →
      GroupColumnsAvailable g rs) := by
  obtain ⟨g₀, hstart, hrows, hplan⟩ := schedule_ok h
  have hs := start_started hstart
  obtain ⟨hsched, hred⟩ := hs.plan (hplan.imp And.right fun hm => ⟨build, order, names, hbuild.bringsNone, hm.2⟩)
  rw [rows_eq hsched.planned hsched.layered] at hrows
  cases hrows
  have hrows := hsched.schedules hred.connected
  refine ⟨fun i v e date n hst => ?_, fun hgrouped => ?_, fun hfast hsymbols => ?_⟩
  · obtain ⟨_, _, hk, he⟩ := hrows.item _ _ _ _ hst
    obtain ⟨hsplits, hwithin⟩ := hsched.mem_keysWithin hk he
    refine ⟨hrows.available _ _ _ _ hst n, fun hn => ?_,
      fun hnone => mem_symbols_of_partsIn_eq_nil hsplits hnone hwithin⟩
    obtain ⟨x, hx, hname⟩ := hsched.exists_groupsBy hk he
    rcases named_cases hname with rfl | ⟨as, rfl⟩
    · exact absurd (Expr.mem_symbols_of_mem_nodes hx.mem_nodes) hn
    · exact ⟨⟨as, hx⟩, fun hng ha => hng (ha.mem_vertices hrows)⟩
  · -- columns that are not bound are never inlined, so operators stay grouped by them
    have hkinded := kinded_of_groupedBy hstart hgrouped
    refine hsched.groupColumnsAvailable hrows fun v e he => ?_
    rcases hplan with ⟨_, rfl⟩ | ⟨_, hm⟩
    · exact (supplies_kindStock_iff.mp (hkinded.kind v e he)).2.2.bySymbols
    · exact (hkinded.groupedBy_middle hbuild hm v e he).bySymbols
  · rcases hplan with ⟨_, rfl⟩ | ⟨hslow, _⟩
    · refine hsched.groupColumnsAvailable hrows fun v e he => ?_
      rcases exprOf_started hstart he with hb | ⟨n, rfl⟩
      · exact hsymbols v e hb
      · exact GroupedBy.bySymbols (groupedBy_symbol n : GroupedBy s (fun _ => True) _)
    · rw [hfast] at hslow
      cases hslow

def signOf (e : Expr) : Expr := .apply (.named "sign") [e]

/-- The rank of the closing price among assets with the same sign. -/
def rankBySign : Expr := .apply (.named "gp_rank") [signOf (.symbol "OPEN"), .symbol "CLOSE"]

/-- The rank of the closing price among assets with the same value in a column. -/
def rankBy (n : String) : Expr := .apply (.named "gp_rank") [.symbol n, .symbol "CLOSE"]

/-- The bindings of the rank by sign: the sign is a column of its own. -/
def signThenRank : Bindings :=
  [(.column "_x_0", signOf (.symbol "OPEN")), (.column "g", rankBy "_x_0")]

/-- The plan of these bindings. -/
def signThenRankPlan : Graph where
  nodes := [grouped "_x_0" (signOf (.symbol "OPEN")) [] ["OPEN"] 1,
    grouped "OPEN" (.symbol "OPEN") [] ["OPEN"] 0,
    grouped "g" (rankBy "_x_0") [Key.withinGroup "date" "_x_0"] ["_x_0", "CLOSE"] 2,
    grouped "CLOSE" (.symbol "CLOSE") [] ["CLOSE"] 0]
  edges := [("OPEN", "_x_0"), ("_x_0", "g"), ("CLOSE", "g")]

/-- Without merging, the sign stands in the row before the rank. -/
theorem schedule_groupColumn_signThenRank :
    ∃ rs, schedule {} Expr.build List.eraseDups true signThenRank ["g"] = .ok (signThenRankPlan, rs) ∧
      Stands rs 1 (Key.withinGroup "date" "_x_0") ("g", rankBy "_x_0") ∧
      GroupColumnsAvailable signThenRankPlan rs := by
  have h : schedule {} Expr.build List.eraseDups true signThenRank ["g"] = .ok (signThenRankPlan,
      [[(Key.plain, [none, some ("_x_0", signOf (.symbol "OPEN"))])],
        [(Key.withinGroup "date" "_x_0", [none, some ("g", rankBy "_x_0")])]]) := rfl
  have hsymbols : ∀ v e, Binds (asValues signThenRank) v e → GroupedBySymbols {} e := by
    intro v e he
    rw [binds_asValues] at he
    have hall : ∀ p ∈ signThenRank, GroupedBy {} (fun _ => True) p.2 := by decide +kernel
    exact (hall _ he).bySymbols
  exact ⟨_, h, ⟨_, _, rfl, List.mem_singleton_self _, by simp⟩,
    (schedule_groupColumn Expr.bringsNothing_build h).2.2 rfl hsymbols⟩

/-- The plan of these bindings after its middle. -/
def rankBySignPlan : Graph where
  nodes := [grouped "OPEN" (.symbol "OPEN") [] ["OPEN"] 0,
    grouped "g" rankBySign [Key.withinGroup "date" "sign"] ["OPEN", "CLOSE"] 1,
    grouped "CLOSE" (.symbol "CLOSE") [] ["CLOSE"] 0]
  edges := [("CLOSE", "g"), ("OPEN", "g")]

set_option synthInstance.maxSize 1000 in
/-- With merging, the sign goes back into the rank, which is then grouped by a column `sign` that
does not exist. -/
theorem grouped_by_operator : ∃ merged b g rs,
    merge {} Expr.simplify [("g", .expr rankBySign)] = .ok (merged, ["OPEN", "CLOSE"]) ∧
    Plan.bind (Sharing.extract sharedName) Expr.simplify merged ["g"] = .ok b ∧
    schedule {} Expr.build List.eraseDups false b ["g"] = .ok (g, rs) ∧
    Stands rs 0 (Key.withinGroup "date" "sign") ("g", rankBySign) ∧ ¬ Available g rs 0 "sign" := by
  have hparts : partsOfAll {} Expr.simplify [.expr rankBySign] =
      .ok { parts := [signOf (.symbol "OPEN")], symbols := ["OPEN", "CLOSE"] } := by decide +kernel
  have hm : merge {} Expr.simplify [("g", .expr rankBySign)] =
      .ok ([.expr (signOf (.symbol "OPEN")), .expr rankBySign], ["OPEN", "CLOSE"]) := by
    unfold merge
    rw [show List.map (·.2) [("g", Value.expr rankBySign)] = [.expr rankBySign] from rfl, hparts]
    rfl
  refine ⟨_, signThenRank, rankBySignPlan,
    [[(Key.withinGroup "date" "sign", [none, some ("g", rankBySign)])]], hm, by decide +kernel,
    by decide +kernel, ⟨_, _, rfl, List.mem_singleton_self _, by simp⟩, ?_⟩
  rintro (hgiven | ⟨j, _, _, hj, _⟩)
  · exact absurd hgiven (by decide +kernel)
  · exact absurd hj (Nat.not_lt_zero j)

end Graph

end Plan

end FactorPlan
