import FactorPlan.Proofs.Dependency
import FactorPlan.Proofs.Splitting
import FactorPlan.Proofs.Stock

/-!
What a column uses. Two ways through an expression find its symbols: splitting it by group
meets them, which is what a column records of its expression, and the symbols of its arguments
are listed, which is where the edges of the graph come from.

  1. `Rooted.split_symbols`: splitting meets each symbol where it occurs, whatever the groups.
  2. `count_symbols`: the symbols of an expression are the nodes that are symbols.
  3. `Bound.mem_pred_iff`: the edges to a bound column come from the origins of its expression.
  4. `start_records_occurrences`: so a computed column records how often each of its
     predecessors occurs in its expression, and nothing else.
-/

namespace FactorPlan

/-! ## Symbols of an expression -/

namespace Expr

theorem symbol?_cases (e : Expr) : (∃ n, e = .symbol n) ∨ symbol? e = none := by
  cases e with
  | symbol n => exact Or.inl ⟨n, rfl⟩
  | _ => exact Or.inr rfl

theorem symbol?_eq_some_iff {e : Expr} {n : String} : symbol? e = some n ↔ e = .symbol n := by
  rcases e.symbol?_cases with ⟨m, rfl⟩ | h
  · simp [symbol?]
  · rw [h]
    refine ⟨fun hn => (by cases hn), ?_⟩
    rintro rfl
    cases h

theorem symbols_of_not_symbol {e : Expr} (h : symbol? e = none) :
    e.symbols = e.args.flatMap symbols := by
  have hne : ∀ n, e ≠ .symbol n := by
    rintro n rfl
    cases h
  exact (Plan.Graph.symbols_eq_argumentSymbols hne).trans (symbolsList_eq e.args)

/-- The symbols of an expression are its nodes that are symbols, in order. -/
theorem symbols_eq_filterMap (e : Expr) : e.symbols = e.nodes.filterMap symbol? := by
  induction e using args_induction with
  | h e ih =>
    rcases e.symbol?_cases with ⟨n, rfl⟩ | h
    · rfl
    · rw [symbols_of_not_symbol h, nodes_eq, List.filterMap_cons_none h, List.filterMap_flatMap]
      exact List.flatMap_congr ih

theorem symbols_eq_nil_iff {e : Expr} : e.symbols = [] ↔ ∀ n, .symbol n ∉ e.nodes := by
  rw [symbols_eq_filterMap, List.filterMap_eq_nil_iff]
  constructor
  · intro h n hn
    cases h _ hn
  · intro h a ha
    rcases a.symbol?_cases with ⟨n, rfl⟩ | hnone
    · exact absurd ha (h n)
    · exact hnone

theorem count_symbols (e : Expr) (n : String) : e.symbols.count n = e.nodes.count (.symbol n) := by
  rw [symbols_eq_filterMap, List.count_filterMap, List.count_eq_countP]
  refine List.countP_congr fun a _ => ?_
  simp [symbol?_eq_some_iff]

end Expr

/-! ## Symbols met by splitting -/

namespace Grouping

variable {rule : Expr → Except GroupError Key}

theorem splitList_symbols {as : List Expr} {m : Met} {below : List (List Key)}
    (has : ∀ a ∈ as, ∀ m ks, split rule a = (m, .ok ks) → m.symbols = a.symbols)
    (h : splitList rule as = (m, .ok below)) : m.symbols = as.flatMap Expr.symbols := by
  induction as generalizing m below with
  | nil => cases h; rfl
  | cons a as ih =>
    obtain ⟨m₁, ks, m₂, below₂, ha, hl, rfl, rfl⟩ := splitList_cons_ok h
    obtain ⟨hfirst, hrest⟩ := List.forall_mem_cons.mp has
    rw [List.flatMap_cons, ← hfirst m₁ ks ha, ← ih hrest hl]
    rfl

/-- Splitting meets the symbols of an expression, in order and with repetitions. -/
theorem Rooted.split_symbols (hrule : Rooted rule) {e : Expr} {m : Met} {ks : List Key}
    (h : split rule e = (m, .ok ks)) : m.symbols = e.symbols := by
  induction e using Expr.args_induction generalizing m ks with
  | h e ih =>
    obtain ⟨own, m₀, below, hown, hl, -, hsymbols, -⟩ := split_ok h
    have hargs : m₀.symbols = e.args.flatMap Expr.symbols :=
      splitList_symbols (fun a ha m ks hm => ih a ha hm) hl
    rw [hsymbols, hargs]
    rcases e.symbol?_cases with ⟨n, rfl⟩ | hne
    · -- a symbol is computed on whole columns, so it is noted
      rw [hrule.leaf _ rfl] at hown
      cases hown
      rfl
    · have hnone : ownSymbol e = [] := by
        cases e with
        | symbol n => cases hne
        | _ => rfl
      rw [hnone, ite_self, List.append_nil, Expr.symbols_of_not_symbol hne]

end Grouping

/-! ## The columns of a graph -/

namespace Plan

namespace Graph

open Formula (Value)

variable {s : Setting} {bs : List (Slot × Value)} {g : Graph}

/-- A column is bound once. -/
theorem Binds.unique (hkeys : (Table.keys bs).Nodup) {v : String} {d e : Expr} (hd : Binds bs v d)
    (he : Binds bs v e) : d = e := by
  have hget := (Table.mem_iff_get? hkeys _ _).mp hd
  rw [(Table.mem_iff_get? hkeys _ _).mp he] at hget
  cases hget
  rfl

theorem Bound.mem_pred_iff (h : Bound bs g) (hkeys : (Table.keys bs).Nodup) {v : String} {e : Expr}
    (he : Binds bs v e) {p : String} : p ∈ g.pred v ↔ p ∈ origins e := by
  rw [Digraph.mem_pred, h.edges]
  constructor
  · rintro ⟨d, hd, hp⟩
    exact hd.unique hkeys he ▸ hp
  · exact fun hp => ⟨e, he, hp⟩

/-- A computed column has the expression that it is bound to, and the symbols met in splitting it. -/
theorem Started.computed (h : Started s bs g) {v : String} (hv : g.pred v ≠ []) :
    ∃ c e, g.get? v = some c ∧ c.expr = some (.expr e) ∧ Binds bs v e ∧ c.symbols = some e.symbols := by
  obtain ⟨u, hu⟩ := Digraph.exists_mem_of_pred_ne_nil hv
  obtain ⟨d, hd, -⟩ := (h.edges u v).mp hu
  obtain ⟨c, e, hc, he, -, hexpr⟩ := h.column v d hd
  obtain ⟨c', e', m, ks, k, hc', hexpr', hsplit, -, -, hsymbols⟩ :=
    h.classified v ((Digraph.mem_vertices_iff g v).mpr ⟨c, hc⟩)
  rw [hc] at hc'
  cases hc'
  rw [hexpr] at hexpr'
  cases hexpr'
  exact ⟨c, e, hc, hexpr, he, hsymbols.trans (congrArg some (s.rooted.split_symbols hsplit))⟩

/-- **A column records what its edges stand for.** In a setting of either kind, splitting an
expression that is no symbol meets the symbols of its arguments, in order and with repetitions. So
in the graph of columns that are bound once, a column that is not given and does not just stand for
another one records the columns that it has edges from, each as often as it occurs in its
expression; where the expression has no symbols, it records none. -/
theorem start_records_occurrences :
    (∀ (s : Setting) (e : Expr) (m : Met) (ks : List Key), e.isSymbol = false →
      Grouping.split s.rule e = (m, .ok ks) → m.symbols = e.argumentSymbols) ∧
    ∀ (s : Setting) (bs : List (Slot × Value)) (g : Graph), (Table.keys bs).Nodup →
      start s bs = .ok g → ∀ v, g.pred v ≠ [] → ∃ c e ss, g.get? v = some c ∧
        c.expr = some (.expr e) ∧ c.symbols = some ss ∧ (e.isSymbol = false →
          ss = e.argumentSymbols ∧ (∀ n, ss.count n = e.nodes.count (.symbol n)) ∧
          (ss ≠ [] → ∀ p, p ∈ g.pred v ↔ p ∈ ss) ∧ ((∀ n, .symbol n ∉ e.nodes) → ss = [])) := by
  have hargs : ∀ e : Expr, e.isSymbol = false → e.symbols = e.argumentSymbols := by
    refine fun e he => symbols_eq_argumentSymbols fun n hn => ?_
    rw [hn] at he
    cases he
  refine ⟨fun s e m ks he h => (s.rooted.split_symbols h).trans (hargs e he), ?_⟩
  intro s bs g hkeys hstart v hv
  have hs := start_started hstart
  obtain ⟨c, e, hc, hexpr, he, hsymbols⟩ := hs.computed hv
  refine ⟨c, e, e.symbols, hc, hexpr, hsymbols, fun hne => ⟨hargs e hne, e.count_symbols, ?_, ?_⟩⟩
  · intro hsome p
    rw [hs.toBound.mem_pred_iff hkeys he, origins_eq_symbols hsome]
  · exact fun hnone => Expr.symbols_eq_nil_iff.mpr hnone

/-- A column without symbols, and one that uses it once and another column twice. -/
def usedTwice : List (Slot × Value) :=
  [(.column "k", .expr (.apply (.named "today") [])),
    (.column "a", .expr (.sum [.symbol "OPEN", .product [.symbol "k", .symbol "OPEN"]]))]

/-- An operator over time, listed by its name. -/
def correlated : Expr := .apply (.named "corr") [.symbol "OPEN", .symbol "k", .symbol "OPEN"]

/-- Both occurrences are met and recorded, and one edge stands for them. -/
theorem usedTwice_records :
    (∃ m, Grouping.split (Setting.rule { naming := .byList ["corr"] [] [] }) correlated =
      (m, .ok [["ts", "asset", "date"]]) ∧ m.symbols = ["OPEN", "k", "OPEN"]) ∧
    ∃ g c d, start {} usedTwice = .ok g ∧
      g.pred "a" = ["OPEN", "k"] ∧ g.get? "a" = some c ∧ c.symbols = some ["OPEN", "k", "OPEN"] ∧
      (∀ p, p ∈ g.pred "a" ↔ p ∈ ["OPEN", "k", "OPEN"]) ∧
      g.pred "k" = ["today"] ∧ g.get? "k" = some d ∧ d.symbols = some [] := by
  have hsplit : Grouping.split (Setting.rule { naming := .byList ["corr"] [] [] }) correlated =
      ({ symbols := ["OPEN", "k", "OPEN"] }, .ok [["ts", "asset", "date"]]) := rfl
  refine ⟨⟨_, hsplit, start_records_occurrences.1 _ correlated _ _ rfl hsplit⟩, ?_⟩
  let g : Graph := (start {} usedTwice).toOption.getD {}
  have hg : start {} usedTwice = .ok g := rfl
  have ha : g.pred "a" = ["OPEN", "k"] := rfl
  have hk : g.pred "k" = ["today"] := rfl
  have hexpr : ∀ {v c d e}, g.get? v = some c → c.expr = some (.expr e) → g.exprOf v = some d →
      e = d := by
    intro v c d e hc he hd
    rw [(exprOf_eq_some_iff g v e).mpr ⟨c, hc, he⟩] at hd
    exact Option.some.inj hd
  have hrecords := start_records_occurrences.2 {} usedTwice g (by decide) hg
  obtain ⟨c, e, ss, hc, he, hss, hused⟩ := hrecords "a" (by rw [ha]; simp)
  obtain rfl := hexpr hc he rfl
  obtain ⟨rfl, -, hpred, -⟩ := hused rfl
  obtain ⟨d, e, ss, hd, he, hss', hused⟩ := hrecords "k" (by rw [hk]; simp)
  obtain rfl := hexpr hd he rfl
  obtain ⟨-, -, -, hnone⟩ := hused rfl
  obtain rfl := hnone (by simp [Expr.nodes, Expr.nodesList])
  exact ⟨g, c, d, hg, ha, hc, hss, hpred (by decide), hk, hd, hss'⟩

end Graph

end Plan

end FactorPlan
