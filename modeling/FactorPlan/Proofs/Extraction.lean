import FactorPlan.Proofs.Cutting

/-!
Parts that are found again. Merging lists the parts that splitting finds in each factor as it is
simplified, and behind them the factors as they are given. Sharing then gives names to what occurs
in several listed expressions, and each name and each factor becomes a column.

So a factor is cut at its own parts where these are listed (`Found`), as they are where simplifying
does not change it. Then every column that is not given is computed in groups of one kind, and keys
are never mixed (`oneKind_of_found`). It is not enough that the parts of an equal expression are
listed (`mixed_after_simplifying`).

Simplifying and sharing are parameters. Of sharing it is assumed that what is listed and occurs
inside what is listed gets a name, and that no grouped operators are in the result but those that
are left where named parts are cut off (`Shares`); of simplifying, that it brings in none.
-/

namespace FactorPlan

namespace Grouping

variable {rule : Expr → Except GroupError Key}

theorem splitList_error {as : List Expr} {m : Met} {x : GroupError}
    (h : splitList rule as = (m, .error x)) : ∃ a ∈ as, ∃ m', split rule a = (m', .error x) := by
  induction as generalizing m with
  | nil => cases h
  | cons a as ih =>
    unfold splitList follow at h
    rcases hsplit : split rule a with ⟨m₁, r₁⟩
    rw [hsplit] at h
    cases r₁ with
    | error y =>
      cases h
      exact ⟨a, List.mem_cons_self, _, hsplit⟩
    | ok ks =>
      have hrest : (splitList rule as).2 = .error x := map_eq_error.mp (Prod.mk.inj h).2
      obtain ⟨b, hb, hfail⟩ := ih (Prod.ext rfl hrest)
      exact ⟨b, List.mem_cons_of_mem _ hb, hfail⟩

/-- Splitting fails only at a node that has no key. -/
theorem split_error {e : Expr} {m : Met} {x : GroupError} (h : split rule e = (m, .error x)) :
    ∃ a ∈ e.nodes, rule a = .error x := by
  induction e using Expr.args_induction generalizing m with
  | h e ih =>
    rw [split_eq] at h
    unfold settle at h
    cases hr : rule e with
    | error y =>
      rw [hr] at h
      cases h
      exact ⟨e, e.mem_nodes_self, hr⟩
    | ok own =>
      rcases hl : splitList rule e.args with ⟨m₀, r⟩
      rw [hr, hl] at h
      cases r with
      | error y =>
        cases h
        obtain ⟨a, ha, m', hfail⟩ := splitList_error hl
        obtain ⟨b, hb, hrule⟩ := ih a ha hfail
        exact ⟨b, Expr.mem_nodes_trans (Expr.mem_nodes_of_mem_args ha) hb, hrule⟩
      | ok below =>
        dsimp only at h
        split at h <;> cases h

/-- A part is inside an argument. -/
theorem exists_arg_of_mem_partsIn {x e : Expr} (hs : Splits rule e) (hx : x ∈ partsIn rule e) :
    ∃ a ∈ e.args, x ∈ a.nodes := by
  obtain ⟨_, _, hargs, _, hparts⟩ := split_cases hs
  rw [hparts] at hx
  rcases List.mem_append.mp hx with hx | hx
  · obtain ⟨a, ha, hx⟩ := List.mem_flatMap.mp hx
    exact ⟨a, ha, mem_nodes_of_mem_partsIn (hargs a ha) hx⟩
  · obtain ⟨a, ha, _, hxa, _⟩ := mem_needed.mp hx
    exact ⟨a, ha, Expr.mem_nodes_of_mem_sharedParts hxa⟩

theorem Homogeneous.of_subset {d e : Expr} {k : Key} (h : Homogeneous rule k e)
    (hsub : ∀ j ∈ keysWithin rule d, j ∈ keysWithin rule e) : Homogeneous rule k d :=
  fun j hj => h j (hsub j hj)

end Grouping

/-- A single node does not mix keys. -/
theorem Key.ofRoot_ne_mixed (c : Columns) (n : Naming) (e : Expr) :
    ofRoot c n e ≠ .error .mixed := by
  have hgroup : ∀ as, ofGroup c.date as ≠ .error .mixed := by
    intro as
    unfold ofGroup
    split
    · simp
    · split <;> simp
  unfold ofRoot
  split
  · unfold ofOperator
    split
    · split
      · simp
      · simp
      · exact hgroup _
      · simp
      · simp
    · split
      · simp
      · split
        · simp
        · split
          · exact hgroup _
          · simp
  · simp

namespace Plan

open Formula (Value)
open Grouping

/-! ## Merging -/

theorem partsOf_ok {s : Setting} {simplify : Expr → Expr} {v : Value} {m : Met}
    (h : partsOf s simplify v = .ok m) : ∃ e, expression v = .ok e ∧
      Splits s.rule (simplify e) ∧ m.parts = partsIn s.rule (simplify e) := by
  unfold partsOf at h
  cases he : expression v with
  | error x => rw [he] at h; cases h
  | ok e =>
    rw [he] at h
    simp only [Bind.bind, Except.bind] at h
    split at h
    · rename_i hsplit
      cases h
      obtain ⟨hs, _, hp⟩ := splits_of_split hsplit
      exact ⟨e, rfl, hs, hp.symm⟩
    · cases h

theorem partsOfAll_ok {s : Setting} {simplify : Expr → Expr} {vs : List Value} {m : Met}
    (h : partsOfAll s simplify vs = .ok m) :
    (∀ v ∈ vs, ∃ e, expression v = .ok e ∧ Splits s.rule (simplify e)) ∧
    ∀ x, x ∈ m.parts ↔ ∃ v ∈ vs, ∃ e, expression v = .ok e ∧ x ∈ partsIn s.rule (simplify e) := by
  induction vs generalizing m with
  | nil => cases h; simp
  | cons v vs ih =>
    obtain ⟨mv, hv, h⟩ := bind_eq_ok.mp h
    obtain ⟨mvs, hvs, h⟩ := bind_eq_ok.mp h
    cases h
    obtain ⟨e, he, hs, hp⟩ := partsOf_ok hv
    obtain ⟨hall, hparts⟩ := ih hvs
    refine ⟨List.forall_mem_cons.mpr ⟨⟨e, he, hs⟩, hall⟩, fun x => ?_⟩
    have hhead : x ∈ mv.parts ↔ ∃ d, expression v = .ok d ∧ x ∈ partsIn s.rule (simplify d) := by
      rw [hp]
      exact ⟨fun hx => ⟨e, he, hx⟩, fun ⟨d, hd, hx⟩ => Except.ok.inj (he.symm.trans hd) ▸ hx⟩
    rw [List.exists_mem_cons_iff, ← hhead, ← hparts]
    exact List.mem_append

/-- What merging lists: the parts of the factors as they are simplified, then the factors. -/
theorem merge_ok {s : Setting} {simplify : Expr → Expr} {factors : Table String Value}
    {merged : List Value} {syms : List String}
    (h : merge s simplify factors = .ok (merged, syms)) :
    ∃ parts : List Expr, merged = parts.map .expr ++ factors.map (·.2) ∧
      (∀ p ∈ factors, ∃ e, expression p.2 = .ok e ∧ Splits s.rule (simplify e)) ∧
      ∀ x, x ∈ parts ↔ ∃ p ∈ factors, ∃ e, expression p.2 = .ok e ∧
        x ∈ partsIn s.rule (simplify e) := by
  unfold merge at h
  cases hself : Table.contains "self" factors with
  | true => rw [hself] at h; cases h
  | false =>
    rw [hself] at h
    obtain ⟨m, hm, h⟩ := bind_eq_ok.mp h
    cases h
    obtain ⟨hall, hparts⟩ := partsOfAll_ok hm
    refine ⟨_, rfl, fun p hp => hall p.2 (List.mem_map_of_mem hp), fun x => ?_⟩
    rw [List.mem_eraseDups, hparts]
    simp only [List.mem_map, exists_exists_and_eq_and]

/-! ## Sharing -/

/-- What sharing does to the listed expressions as far as groups are concerned, with `cut` for the
names of parts. What is listed and occurs inside what is listed is named. The expressions over the
names have no grouped operators but those left where the named parts are cut off, and what a name
stands for has none but those left of a node of the listed expressions. -/
structure Shares (rule : Expr → Except GroupError Key) (es : List Expr) (shared : Sharing.Shared)
    (cut : Expr → Option String) : Prop where
  symbol : ∀ n, cut (.symbol n) = none
  named : ∀ x ∈ es, ∀ e ∈ es, ∀ a ∈ e.args, x ∈ a.nodes → x.isAtom = false → (cut x).isSome
  exprs : ∀ (i : Nat) (d : Expr), shared.exprs[i]? = some d → ∃ e, es[i]? = some e ∧
    ∀ k ∈ keysWithin rule d, k ∈ keysWithin rule (e.cutAt cut)
  parts : ∀ p ∈ shared.parts, ∃ e ∈ es, ∃ x ∈ e.nodes,
    ∀ k ∈ keysWithin rule p.2, k ∈ keysWithin rule (x.cutBelow cut)

/-- The parts of an expression, whose keys depend on symbols only, are listed. -/
structure PartsListed (rule : Expr → Except GroupError Key) (es : List Expr) (e : Expr) : Prop where
  splits : Splits rule e
  steady : Steady rule e
  listed : ∀ x ∈ partsIn rule e, x ∈ es

theorem PartsListed.of_mem_nodes {rule : Expr → Except GroupError Key} {es : List Expr} {e x : Expr}
    (h : PartsListed rule es e) (hx : x ∈ e.nodes) : PartsListed rule es x := by
  obtain ⟨hs, hsub⟩ := h.splits.of_mem_nodes hx
  exact ⟨hs, fun a ha => h.steady a (Expr.mem_nodes_trans hx ha), fun y hy => h.listed y (hsub y hy)⟩

section Shares

variable {rule : Expr → Except GroupError Key} {es : List Expr} {shared : Sharing.Shared}
  {cut : Expr → Option String}

/-- What is left of a node of a listed expression is of one kind, where all listed ones have their
parts listed. -/
theorem Shares.homogeneous_cutBelow (hrule : Rooted rule) (h : Shares rule es shared cut) {e x : Expr}
    (he : e ∈ es) (hcovered : PartsListed rule es e) (hx : x ∈ e.nodes) :
    ∃ k, Homogeneous rule k (x.cutBelow cut) := by
  have hcov := hcovered.of_mem_nodes hx
  refine (keysWithin_cutBelow hrule h.symbol hcov.splits hcov.steady fun y hy => ?_).2
  -- a part of the node is a part of the listed expression, inside one of its arguments
  have hye := (hcovered.splits.of_mem_nodes hx).2 y hy
  obtain ⟨a, ha, hya⟩ := exists_arg_of_mem_partsIn hcovered.splits hye
  exact h.named y (hcovered.listed y hye) e he a ha hya (isAtom_of_mem_partsIn hcovered.splits hye)

/-- All that sharing returns is of one kind. -/
theorem Shares.homogeneous (hrule : Rooted rule) (h : Shares rule es shared cut)
    (hcovered : ∀ e ∈ es, PartsListed rule es e) :
    ∀ d ∈ shared.parts.map (·.2) ++ shared.exprs, ∃ k, Homogeneous rule k d := by
  intro d hd
  rcases List.mem_append.mp hd with hd | hd
  · obtain ⟨p, hp, rfl⟩ := List.mem_map.mp hd
    obtain ⟨e, he, x, hx, hsub⟩ := h.parts p hp
    obtain ⟨k, hk⟩ := h.homogeneous_cutBelow hrule he (hcovered e he) hx
    exact ⟨k, hk.of_subset hsub⟩
  · obtain ⟨i, hi⟩ := List.getElem?_of_mem hd
    obtain ⟨e, he, hsub⟩ := h.exprs i d hi
    have he := List.mem_of_getElem? he
    obtain ⟨k, hk⟩ := h.homogeneous_cutBelow hrule he (hcovered e he) e.mem_nodes_self
    rw [Expr.cutAt_eq] at hsub
    cases hc : cut e with
    | some n =>
      refine ⟨Key.plain, fun j hj => ?_⟩
      have hnone := hsub j hj
      rw [hc, hrule.keysWithin_leaf rfl] at hnone
      cases hnone
    | none =>
      rw [hc] at hsub
      exact ⟨k, hk.of_subset hsub⟩

end Shares

theorem mem_expressions {vs : List Value} {es : List Expr} (h : expressions vs = .ok es) :
    vs = es.map .expr := by
  induction vs generalizing es with
  | nil => cases h; rfl
  | cons v vs ih =>
    cases v with
    | expr e =>
      obtain ⟨ds, hds, h⟩ := bind_eq_ok.mp h
      cases h
      rw [List.map_cons, ih hds]
    | _ => cases h

/-- Each bound expression is one that sharing returns, simplified. -/
theorem mem_bind {share : List Expr → Sharing.Shared} {simplify : Expr → Expr} {merged : List Value}
    {es : List Expr} (hes : expressions merged = .ok es) {names : List String} {b : Bindings}
    (h : Plan.bind share simplify merged names = .ok b) :
    ∀ p ∈ b, ∃ d ∈ (share es).parts.map (·.2) ++ (share es).exprs, p.2 = simplify d := by
  intro p hp
  unfold Plan.bind at h
  obtain ⟨es', hes', h⟩ := bind_eq_ok.mp h
  obtain rfl : es = es' := Except.ok.inj (hes.symm.trans hes')
  obtain ⟨ts, _, h⟩ := bind_eq_ok.mp h
  cases h
  have hmem := Table.mem_of_mem_ofList hp
  obtain ⟨q, hq, rfl⟩ := List.mem_map.mp hmem
  refine ⟨q.2, ?_, rfl⟩
  rcases List.mem_append.mp hq with hq | hq
  · obtain ⟨r, hr, rfl⟩ := List.mem_map.mp hq
    exact List.mem_append_left _ (List.mem_map_of_mem hr)
  · refine List.mem_append_right _ ?_
    have hout := (List.of_mem_zip hq).2
    split at hout
    · cases hout
    · exact List.mem_of_mem_drop hout

/-- The parts of each factor as it is given are among the listed values. -/
def Found (s : Setting) (factors : Table String Value) (merged : List Value) : Prop :=
  ∀ p ∈ factors, ∀ e, p.2 = .expr e →
    Splits s.rule e ∧ ∀ x ∈ partsIn s.rule e, Value.expr x ∈ merged

section Found

variable {s : Setting} {simplify : Expr → Expr} {factors : Table String Value} {merged : List Value}
  {syms : List String}

/-- Factors that simplifying does not change have their own parts listed. -/
theorem found_of_simplify_eq (hm : merge s simplify factors = .ok (merged, syms))
    (h : ∀ p ∈ factors, ∀ e, p.2 = .expr e → simplify e = e) : Found s factors merged := by
  intro p hp e he
  obtain ⟨parts, rfl, hsplits, hparts⟩ := merge_ok hm
  have hvalue : expression p.2 = .ok e := by rw [he]; rfl
  obtain ⟨d, hd, hs⟩ := hsplits p hp
  obtain rfl : d = e := Except.ok.inj (hd.symm.trans hvalue)
  rw [h p hp d he] at hs
  refine ⟨hs, fun x hx => List.mem_append_left _ (List.mem_map_of_mem ((hparts x).mpr ?_))⟩
  exact ⟨p, hp, d, hvalue, by rwa [h p hp d he]⟩

/-- All that is listed has its parts listed, where the factors have. -/
theorem Found.covered {es : List Expr} (hm : merge s simplify factors = .ok (merged, syms))
    (hes : expressions merged = .ok es) (hfound : Found s factors merged)
    (hsteady : ∀ p ∈ factors, ∀ e, p.2 = .expr e → Steady s.rule e ∧ Steady s.rule (simplify e)) :
    ∀ e ∈ es, PartsListed s.rule es e := by
  have hmerged := mem_expressions hes
  have hlisted : ∀ x, Value.expr x ∈ merged → x ∈ es := by
    intro x hx
    rw [hmerged] at hx
    obtain ⟨y, hy, hxy⟩ := List.mem_map.mp hx
    cases hxy
    exact hy
  obtain ⟨parts, hlist, hsplits, hparts⟩ := merge_ok hm
  have hvalues : ∀ p ∈ factors, ∃ d, p.2 = .expr d := by
    intro p hp
    have hmem : p.2 ∈ merged := hlist ▸ List.mem_append_right _ (List.mem_map_of_mem hp)
    rw [hmerged] at hmem
    obtain ⟨d, _, hd⟩ := List.mem_map.mp hmem
    exact ⟨d, hd.symm⟩
  intro e he
  have hmem : Value.expr e ∈ merged := hmerged ▸ List.mem_map_of_mem he
  rw [hlist] at hmem
  rcases List.mem_append.mp hmem with hpart | hfactor
  · -- a part of a simplified factor, all parts of which are listed
    obtain ⟨x, hx, hxe⟩ := List.mem_map.mp hpart
    cases hxe
    obtain ⟨p, hp, d, hd, hpart⟩ := (hparts e).mp hx
    obtain ⟨d', hd'⟩ := hvalues p hp
    obtain rfl : d = d' := by
      rw [hd'] at hd
      exact (Except.ok.inj hd).symm
    obtain ⟨c, hc, hs⟩ := hsplits p hp
    obtain rfl : c = d := Except.ok.inj (hc.symm.trans hd)
    have hcovered : PartsListed s.rule es (simplify c) :=
      ⟨hs, (hsteady p hp c hd').2, fun y hy => hlisted y (hlist ▸
        List.mem_append_left _ (List.mem_map_of_mem ((hparts y).mpr ⟨p, hp, c, hd, hy⟩)))⟩
    exact hcovered.of_mem_nodes (mem_nodes_of_mem_partsIn hs hpart)
  · obtain ⟨p, hp, hpe⟩ := List.mem_map.mp hfactor
    obtain ⟨hs, hsub⟩ := hfound p hp e hpe
    exact ⟨hs, (hsteady p hp e hpe).1, fun x hx => hlisted x (hsub x hx)⟩

end Found

namespace Graph

variable {s : Setting} {b : Bindings}

/-- The key of an expression of one kind is not mixed. -/
theorem classOf_ne_mixed {e : Expr} {k : Key} (h : Homogeneous s.rule k e) :
    classOf s (some (.expr e)) ≠ .error (.group .mixed) := by
  intro hclass
  rcases hsplit : split s.rule e with ⟨m, r⟩
  simp only [classOf, hsplit] at hclass
  cases r with
  | error x =>
    cases hclass
    obtain ⟨a, _, ha⟩ := split_error hsplit
    exact Key.ofRoot_ne_mixed _ _ a ha
  | ok ks =>
    obtain ⟨_, ks', j, hsplit', _, hj, _⟩ := h.sole (splits_of_split hsplit).1
    rw [hsplit] at hsplit'
    cases hsplit'
    simp only [hj] at hclass
    cases hclass

/-- Where bound expressions are of one kind, keys are not mixed. -/
theorem start_ne_mixed (h : ∀ p ∈ b, ∃ k, Homogeneous s.rule k p.2) :
    start s (asValues b) ≠ .error (.group .mixed) := by
  intro hmixed
  rcases start_cases s (asValues b) with ⟨x, hx, hstart⟩ | ⟨g₀, g, r, hc, hr, hstart⟩
  · rw [hmixed] at hstart
    cases hstart
    exact create_ne_group _ _ hx
  · have hfail : (classifyAll s g₀).2 = .error (.group .mixed) := by
      rw [hr]
      exact map_eq_error.mp (hstart.symm.trans hmixed)
    obtain ⟨hb, _, hsources⟩ := create_bound hc
    rcases classifyAll_error hb.wellFormed hfail with ⟨hcyc, _⟩ | ⟨v, hv, hclass⟩
    · cases hcyc
    by_cases hp : g₀.pred v = []
    · -- a source stands for itself and has no grouped operators
      obtain ⟨c, d, hc, hget, -, hexpr⟩ := hsources v hv hp
      rw [hget, Option.bind_some, hexpr] at hclass
      unfold Content.ofSource at hc
      split at hc
      · cases hc; cases hclass
      · cases hc; cases hclass
      · cases hc
    · obtain ⟨e, he⟩ := hb.exists_binding hp
      obtain ⟨c, d, hget, hd, _, hx⟩ := hb.column v e (binds_asValues.mpr he)
      obtain ⟨k, hk⟩ := h _ (binds_asValues.mp hd)
      rw [hget, Option.bind_some, hx] at hclass
      exact classOf_ne_mixed hk hclass

/-- Where bound expressions are of one kind, so is each column that is not given. -/
theorem Started.oneKind {g : Graph} (hg : Started s (asValues b) g)
    (h : ∀ p ∈ b, ∃ k, Homogeneous s.rule k p.2) {v : String} (hv : v ∈ g.vertices)
    (hp : g.pred v ≠ []) : OneKind s g v := by
  obtain ⟨e, he⟩ := hg.toBound.exists_binding hp
  obtain ⟨c, d, hget, hd, _, hx⟩ := hg.column v e (binds_asValues.mpr he)
  obtain ⟨k, hk⟩ := h _ (binds_asValues.mp hd)
  obtain ⟨c', d', m, ks, j, hget', hx', hsplit, hsole, hkey, _⟩ := hg.classified v hv
  rw [hget] at hget'
  cases hget'
  rw [hx] at hx'
  cases hx'
  obtain ⟨_, ks', j', hsplit', _, hj', hhom, _⟩ := hk.sole (splits_of_split hsplit).1
  rw [hsplit] at hsplit'
  cases hsplit'
  rw [hsole] at hj'
  cases hj'
  exact ⟨c, d, j, hget, hx, hkey, hhom⟩

/-- A mean of ranks and the rank of that mean. -/
def meanThenRank : Table String Value :=
  [("f", .expr (meanOf (rankOf (.symbol "OPEN")))),
    ("h", .expr (rankOf (meanOf (rankOf (.symbol "OPEN")))))]

/-- The two parts that `meanThenRank` is computed in, before the last rank. -/
def meanThenRankCut (e : Expr) : Option String :=
  if e = rankOf (.symbol "OPEN") then some "_x_0"
  else if e = meanOf (rankOf (.symbol "OPEN")) then some "_x_1" else none

/-- What merging lists for `meanThenRank`. -/
def meanThenRankListed : List Expr :=
  [rankOf (.symbol "OPEN"), meanOf (rankOf (.symbol "OPEN")), meanOf (rankOf (.symbol "OPEN")),
    rankOf (meanOf (rankOf (.symbol "OPEN")))]

/-- What sharing makes of it. -/
def meanThenRankShared : Sharing.Shared where
  parts := [("_x_0", rankOf (.symbol "OPEN")), ("_x_1", meanOf (.symbol "_x_0"))]
  exprs := [.symbol "_x_0", .symbol "_x_1", .symbol "_x_1", rankOf (.symbol "_x_1")]

theorem extract_meanThenRank : Sharing.extract "_x_" meanThenRankListed = meanThenRankShared := by
  decide +kernel

theorem shares_meanThenRank :
    Shares (Setting.rule {}) meanThenRankListed meanThenRankShared meanThenRankCut where
  symbol n := by simp [meanThenRankCut, rankOf, meanOf]
  named := by decide +kernel
  exprs i d hd := by
    rcases i with _ | _ | _ | _ | i <;> cases hd <;> exact ⟨_, rfl, by decide +kernel⟩
  parts := by decide +kernel

/-- What `meanThenRank` is bound as. -/
def meanThenRankBindings : Bindings :=
  [(.column "_x_0", rankOf (.symbol "OPEN")), (.column "_x_1", meanOf (.symbol "_x_0")),
    (.column "f", .symbol "_x_1"), (.column "h", rankOf (.symbol "_x_1"))]

/-- One price or another, whichever way two prices are compared. -/
def choiceOn (a b : String) : Expr :=
  .apply (.named "if_else")
    [.apply (.rel .eq) [.symbol a, .symbol b], .symbol "HIGH", .symbol "LOW"]

/-- The mean of a rank of such a choice, and what is bound for it. -/
def meanOfChoice : Table String Value := [("g", .expr (meanOf (rankOf (choiceOn "OPEN" "CLOSE"))))]

def meanOfChoiceBindings : Bindings :=
  [(.column "_x_0", choiceOn "CLOSE" "OPEN"),
    (.column "g", meanOf (rankOf (choiceOn "CLOSE" "OPEN")))]

end Graph

end Plan

end FactorPlan
