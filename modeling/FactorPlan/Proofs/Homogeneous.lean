import FactorPlan.Proofs.Dependency
import FactorPlan.Proofs.Replacement
import FactorPlan.Proofs.Splitting

/-!
Groups of one kind. Splitting an expression is meant to find the parts that have to be
columns of their own so that each column is computed in groups of one kind. That is what it finds
(`homogeneous_cutBelow`): where the parts that splitting finds are cut off, with whatever else, all
that is left of an expression, and of each of the parts, has grouped operators of one key at most.
-/

namespace FactorPlan

namespace Expr

/-- The expression with named parts cut off, from the top down. -/
def cutAt (cut : Expr → Option String) (e : Expr) : Expr :=
  replaceWith withArgs (fun y => (cut y).map .symbol) e

/-- The expression with named parts of its arguments cut off. -/
def cutBelow (cut : Expr → Option String) (e : Expr) : Expr :=
  e.withArgs (e.args.map (cutAt cut))

theorem withArgs_args (e : Expr) : e.withArgs e.args = e := by cases e <;> rfl

theorem args_withArgs {e : Expr} {us : List Expr} (h : us.length = e.args.length) :
    (e.withArgs us).args = us := by
  cases e with
  | sum ts => rfl
  | product fs => rfl
  | apply f as => rfl
  | power b x =>
    obtain ⟨c, y, rfl⟩ := List.length_eq_two.mp h
    rfl
  | _ => exact (List.length_eq_zero_iff.mp h).symm

theorem fst_replaceFlagList (rebuild : Rebuild) (rule : Expr → Option Expr) (as : List Expr) :
    (replaceFlagList rebuild rule as).1 = as.map (replaceWith rebuild rule) := by
  induction as with
  | nil => simp
  | cons a as ih =>
    rw [replaceFlagList_cons, List.map_cons, ← ih]
    rfl

theorem cutAt_eq (cut : Expr → Option String) (e : Expr) :
    cutAt cut e = match cut e with
      | some n => .symbol n
      | none => cutBelow cut e := by
  cases hc : cut e with
  | some n => rw [cutAt, replaceWith, replaceFlag_of_rule (by rw [hc, Option.map_some])]
  | none =>
    have hrule : (cut e).map symbol = none := by rw [hc, Option.map_none]
    cases he : e.isAtom with
    | true =>
      have hself := e.withArgs_args
      rw [e.args_of_isAtom he] at hself
      rw [cutAt, replaceWith, replaceFlag_leaf he, hrule]
      simp only [cutBelow, e.args_of_isAtom he, List.map_nil, hself, Option.getD_none]
    | false =>
      rw [cutAt, replaceWith, replaceFlag_node he hrule]
      cases hch : (replaceFlagList withArgs (fun y => (cut y).map symbol) e.args).2 with
      | true =>
        simp only [if_true, fst_replaceFlagList]
        rfl
      | false =>
        have hsame := replaceFlagList_of_false hch
        rw [fst_replaceFlagList] at hsame
        simp only [Bool.false_eq_true, if_false]
        rw [cutBelow, show e.args.map (cutAt cut) = e.args from hsame, withArgs_args]

theorem mem_nodes_trans {a b e : Expr} (hb : b ∈ e.nodes) (ha : a ∈ b.nodes) : a ∈ e.nodes := by
  induction e using args_induction with
  | h e ih =>
    rcases mem_nodes_iff.mp hb with rfl | ⟨c, hc, hb⟩
    · exact ha
    · exact mem_nodes_of_arg hc (ih c hc hb)

theorem mem_nodes_of_mem_args {a e : Expr} (h : a ∈ e.args) : a ∈ e.nodes :=
  mem_nodes_of_arg h a.mem_nodes_self

theorem mem_nodes_of_mem_sharedParts {x e : Expr} (h : x ∈ e.sharedParts) : x ∈ e.nodes := by
  rcases e.sharedParts_cases with hp | ⟨a, rest, rfl, _, hp⟩
  · rw [hp] at h
    rw [List.mem_singleton.mp h]
    exact e.mem_nodes_self
  · rw [hp] at h
    exact mem_nodes_of_mem_args (List.mem_cons_of_mem _ (List.mem_filter.mp h).1)

end Expr

namespace Grouping

variable {rule : Expr → Except GroupError Key} {cut : Expr → Option String}

/-! ## Parts of parts -/

theorem Splits.of_mem_nodes {a e : Expr} (hs : Splits rule e) (ha : a ∈ e.nodes) :
    Splits rule a ∧ ∀ x ∈ partsIn rule a, x ∈ partsIn rule e := by
  induction e using Expr.args_induction with
  | h e ih =>
    rcases Expr.mem_nodes_iff.mp ha with rfl | ⟨b, hb, ha⟩
    · exact ⟨hs, fun _ hx => hx⟩
    · obtain ⟨_, _, hargs, _, hparts⟩ := split_cases hs
      obtain ⟨hsa, hsub⟩ := ih b hb (hargs b hb) ha
      refine ⟨hsa, fun x hx => ?_⟩
      rw [hparts]
      exact List.mem_append_left _ (List.mem_flatMap.mpr ⟨b, hb, hsub x hx⟩)

theorem mem_nodes_of_mem_partsIn {x e : Expr} (hs : Splits rule e) (hx : x ∈ partsIn rule e) :
    x ∈ e.nodes := by
  induction e using Expr.args_induction with
  | h e ih =>
    obtain ⟨_, _, hargs, _, hparts⟩ := split_cases hs
    rw [hparts] at hx
    rcases List.mem_append.mp hx with hx | hx
    · obtain ⟨a, ha, hx⟩ := List.mem_flatMap.mp hx
      exact Expr.mem_nodes_of_arg ha (ih a ha (hargs a ha) hx)
    · obtain ⟨a, ha, _, hxa, _⟩ := mem_needed.mp hx
      exact Expr.mem_nodes_of_arg ha (Expr.mem_nodes_of_mem_sharedParts hxa)

/-! ## Cutting off -/

/-- The key of each node does not depend on its arguments but for symbols among them. -/
def Steady (rule : Expr → Except GroupError Key) (e : Expr) : Prop :=
  ∀ a ∈ e.nodes, ∀ f : Expr → Expr, (∀ n, f (.symbol n) = .symbol n) →
    rule (a.withArgs (a.args.map f)) = rule a

theorem keysWithin_cutAt_leaf (hrule : Rooted rule) {a : Expr} (ha : a.isAtom = true) :
    keysWithin rule (a.cutAt cut) = [] := by
  rw [Expr.cutAt_eq]
  cases cut a with
  | some n => exact hrule.keysWithin_leaf rfl
  | none =>
    have : a.cutBelow cut = a := by
      have hself := a.withArgs_args
      rw [a.args_of_isAtom ha] at hself
      rw [Expr.cutBelow, a.args_of_isAtom ha]
      exact hself
    dsimp only
    rw [this]
    exact hrule.keysWithin_leaf ha

theorem keysWithin_cutAt_named (hrule : Rooted rule) {a : Expr} (ha : (cut a).isSome) :
    keysWithin rule (a.cutAt cut) = [] := by
  obtain ⟨n, hn⟩ := Option.isSome_iff_exists.mp ha
  rw [Expr.cutAt_eq, hn]
  exact hrule.keysWithin_leaf rfl

/-- Cutting off the parts by which an expression is kept leaves no grouped operator. -/
theorem keysWithin_cutAt_sharedParts (hrule : Rooted rule) {a : Expr}
    (hnamed : ∀ x ∈ a.sharedParts, (cut x).isSome) : keysWithin rule (a.cutAt cut) = [] := by
  rcases a.sharedParts_cases with hp | ⟨b, rest, rfl, hb, hp⟩
  · exact keysWithin_cutAt_named hrule (hnamed a (by simp [hp]))
  · rw [Expr.cutAt_eq]
    cases cut (.product (b :: rest)) with
    | some n => exact hrule.keysWithin_leaf rfl
    | none =>
      rw [List.eq_nil_iff_forall_not_mem]
      intro k hk
      rcases mem_keysWithin.mp hk with hown | ⟨y, hy, hky⟩
      · obtain ⟨hok, hplain⟩ := mem_ownKey.mp hown
        rw [show (Expr.product (b :: rest)).cutBelow cut =
          .product ((b :: rest).map (Expr.cutAt cut)) from rfl, hrule.product] at hok
        exact hplain (Except.ok.inj hok).symm
      · obtain ⟨x, hx, rfl⟩ := List.mem_map.mp hy
        have hnone : keysWithin rule (x.cutAt cut) = [] := by
          cases hxa : x.isAtom with
          | true => exact keysWithin_cutAt_leaf hrule hxa
          | false =>
            rcases List.mem_cons.mp hx with rfl | hx
            · rw [hb] at hxa; cases hxa
            · refine keysWithin_cutAt_named hrule (hnamed x ?_)
              rw [hp]
              exact List.mem_filter.mpr ⟨hx, by simp [hxa]⟩
        rw [hnone] at hky
        cases hky

/-- Nothing grouped is left of an argument that has to be computed on its own. -/
theorem keysWithin_cutAt_needed (hrule : Rooted rule) {e a : Expr} {own : Key} (ha : a ∈ e.args)
    (hnamed : ∀ x ∈ needed own e.args (e.args.map (outerKeys rule)) (keysBelow rule e), (cut x).isSome)
    (hwhy : 2 ≤ (keysBelow rule e).length ∨ (own ≠ Key.plain ∧ own ∉ outerKeys rule a)) :
    keysWithin rule (a.cutAt cut) = [] := by
  cases hatom : a.isAtom with
  | true => exact keysWithin_cutAt_leaf hrule hatom
  | false =>
    exact keysWithin_cutAt_sharedParts hrule fun x hx =>
      hnamed x (mem_needed.mpr ⟨a, ha, hatom, hx, hwhy⟩)

/-- Where of each argument only what is outermost in it is left, all that is left is the key of the
root, or the one key below it. -/
theorem keysWithin_cutBelow_cases (hrule : Rooted rule) {e : Expr} {own : Key}
    (hown : rule (e.cutBelow cut) = .ok own)
    (hleft : ∀ a ∈ e.args, ∀ j ∈ keysWithin rule (a.cutAt cut), j ∈ outerKeys rule a)
    (hnamed : ∀ x ∈ needed own e.args (e.args.map (outerKeys rule)) (keysBelow rule e), (cut x).isSome)
    {j : Key} (hj : j ∈ keysWithin rule (e.cutBelow cut)) :
    (own ≠ Key.plain ∧ j = own) ∨ (j ∈ keysBelow rule e ∧ (keysBelow rule e).length ≤ 1 ∧
      (own ≠ Key.plain → own ∈ keysBelow rule e)) := by
  rcases mem_keysWithin.mp hj with hself | ⟨y, hy, hjy⟩
  · obtain ⟨hok, hplain⟩ := mem_ownKey.mp hself
    rw [hown] at hok
    cases hok
    exact Or.inl ⟨hplain, rfl⟩
  · rw [show (e.cutBelow cut).args = _ from Expr.args_withArgs (by simp)] at hy
    obtain ⟨a, ha, rfl⟩ := List.mem_map.mp hy
    have hbelow : ∀ k, k ≠ Key.plain → k ∈ outerKeys rule a → k ∈ keysBelow rule e :=
      fun k hk hka => mem_keysBelow.mpr ⟨hk, a, ha, hka⟩
    refine Or.inr ⟨hbelow j (ne_plain_of_mem_keysWithin hjy) (hleft a ha j hjy), ?_, fun hown => ?_⟩
    · by_contra h2
      rw [keysWithin_cutAt_needed hrule ha hnamed (Or.inl (by omega))] at hjy
      cases hjy
    · by_contra hno
      rw [keysWithin_cutAt_needed hrule ha hnamed
        (Or.inr ⟨hown, fun h => hno (hbelow own hown h)⟩)] at hjy
      cases hjy

/-- What is left of an expression when the parts found in it are cut off: keys that were
outermost, and not more than one. -/
theorem keysWithin_cutBelow (hrule : Rooted rule) (hcut : ∀ n, cut (.symbol n) = none) {e : Expr}
    (hs : Splits rule e) (hsteady : Steady rule e) (hnamed : ∀ x ∈ partsIn rule e, (cut x).isSome) :
    (∀ j ∈ keysWithin rule (e.cutBelow cut), j ∈ outerKeys rule e) ∧
      ∃ k, Homogeneous rule k (e.cutBelow cut) := by
  induction e using Expr.args_induction with
  | h e ih =>
    obtain ⟨own, hr, hargs, hkeys, hparts⟩ := split_cases hs
    rw [hparts] at hnamed
    have hroot : rule (e.cutBelow cut) = .ok own := by
      rw [← hr]
      refine hsteady e e.mem_nodes_self _ fun n => ?_
      rw [Expr.cutAt_eq, hcut]
      rfl
    -- of an argument there is left what is outermost in it, and nothing where it is cut off
    have hleft : ∀ a ∈ e.args, ∀ j ∈ keysWithin rule (a.cutAt cut), j ∈ outerKeys rule a := by
      intro a ha j hj
      have hsub := (ih a ha (hargs a ha)
        (fun b hb => hsteady b (Expr.mem_nodes_of_arg ha hb))
        (fun x hx => hnamed x (List.mem_append_left _ (List.mem_flatMap.mpr ⟨a, ha, hx⟩)))).1
      rw [Expr.cutAt_eq] at hj
      cases hc : cut a with
      | some n =>
        rw [hc, hrule.keysWithin_leaf rfl] at hj
        cases hj
      | none =>
        rw [hc] at hj
        exact hsub j hj
    have hcases := fun j (hj : j ∈ keysWithin rule (e.cutBelow cut)) => keysWithin_cutBelow_cases
      hrule hroot hleft (fun x hx => hnamed x (List.mem_append_right _ hx)) hj
    rw [hkeys]
    by_cases hown : own = Key.plain
    · -- the root brings no key: there is at most one below
      rw [if_pos hown]
      have hbelow : ∀ j ∈ keysWithin rule (e.cutBelow cut),
          j ∈ keysBelow rule e ∧ (keysBelow rule e).length ≤ 1 := by
        intro j hj
        rcases hcases j hj with ⟨h, _⟩ | ⟨hjb, hlen, _⟩
        · exact absurd hown h
        · exact ⟨hjb, hlen⟩
      refine ⟨fun j hj => (hbelow j hj).1, (keysBelow rule e).headD Key.plain, fun j hj => ?_⟩
      obtain ⟨hjb, hlen⟩ := hbelow j hj
      refine eq_of_length_le_one hlen hjb ?_
      cases hb : keysBelow rule e with
      | nil => rw [hb] at hjb; cases hjb
      | cons k ks => simp
    · -- the root brings a key: what is below has the same
      rw [if_neg hown]
      have hone : ∀ j ∈ keysWithin rule (e.cutBelow cut), j = own := by
        intro j hj
        rcases hcases j hj with ⟨_, rfl⟩ | ⟨hjb, hlen, hmem⟩
        · rfl
        · exact eq_of_length_le_one hlen hjb (hmem hown)
      exact ⟨fun j hj => List.mem_singleton.mpr (hone j hj), own, hone⟩

/-- **Splitting finds enough.** Where at least the parts found in an expression are cut off, what
is left of it and what is left of each of the parts has grouped operators of one key only. -/
theorem homogeneous_cutBelow (hrule : Rooted rule) (hcut : ∀ n, cut (.symbol n) = none) {e : Expr}
    (hs : Splits rule e) (hsteady : Steady rule e) (hnamed : ∀ x ∈ partsIn rule e, (cut x).isSome) :
    ∀ x ∈ e :: partsIn rule e, ∃ k, Homogeneous rule k (x.cutBelow cut) := by
  intro x hx
  have hnode : x ∈ e.nodes := by
    rcases List.mem_cons.mp hx with rfl | hx
    · exact x.mem_nodes_self
    · exact mem_nodes_of_mem_partsIn hs hx
  obtain ⟨hsx, hsub⟩ := hs.of_mem_nodes hnode
  exact (keysWithin_cutBelow hrule hcut hsx (fun a ha => hsteady a (Expr.mem_nodes_trans hnode ha))
    fun y hy => hnamed y (hsub y hy)).2

end Grouping

namespace Plan

open Formula (Value)
open Grouping

/-! ## Operators within groups -/

/-- Whether a name is that of an operator within groups. -/
def Naming.isWithinGroup : Naming → String → Bool
  | .byLetters, name => name.toList.take 3 = ['g', 'p', '_']
  | .byList time market group, name => name ∉ time ∧ name ∉ market ∧ name ∈ group

/-- The first argument of every operator within groups is a symbol. -/
def GroupedBySymbols (s : Setting) (e : Expr) : Prop :=
  ∀ f as, Expr.apply (.named f) as ∈ e.nodes → Naming.isWithinGroup s.naming f = true →
    ∃ n rest, as = .symbol n :: rest

/-- The operators within groups are grouped by given columns. -/
def GroupedBy (s : Setting) (given : String → Prop) (e : Expr) : Prop :=
  ∀ f as, Expr.apply (.named f) as ∈ e.nodes → Naming.isWithinGroup s.naming f = true →
    ∃ n rest, as = .symbol n :: rest ∧ given n

instance {rule : Expr → Except GroupError Key} {k : Key} {e : Expr} :
    Decidable (Homogeneous rule k e) :=
  inferInstanceAs (Decidable (∀ j ∈ keysWithin rule e, j = k))

variable {s : Setting} {given : String → Prop}

/-- Whether the node is no operator within groups, or is grouped by a given column. -/
def groupedAt (s : Setting) (given : String → Prop) [DecidablePred given] : Expr → Bool
  | .apply (.named f) (.symbol n :: _) => !Naming.isWithinGroup s.naming f || decide (given n)
  | .apply (.named f) _ => !Naming.isWithinGroup s.naming f
  | _ => true

theorem groupedBy_iff [DecidablePred given] {e : Expr} :
    GroupedBy s given e ↔ ∀ a ∈ e.nodes, groupedAt s given a = true := by
  constructor
  · intro h a ha
    unfold groupedAt
    split
    · rename_i f n rest
      cases hf : Naming.isWithinGroup s.naming f with
      | false => rfl
      | true =>
        obtain ⟨_, _, heq, hn⟩ := h f _ ha hf
        cases heq
        exact decide_eq_true hn
    · rename_i f as hfirst
      cases hf : Naming.isWithinGroup s.naming f with
      | false => rfl
      | true =>
        obtain ⟨n, rest, heq, _⟩ := h f _ ha hf
        exact absurd heq (hfirst n rest)
    · rfl
  · intro h f as ha hf
    have hat := h _ ha
    unfold groupedAt at hat
    split at hat
    · rename_i heq
      cases heq
      rw [hf] at hat
      exact ⟨_, _, rfl, of_decide_eq_true hat⟩
    · rename_i heq
      cases heq
      rw [hf] at hat
      cases hat
    · rename_i hother
      exact absurd rfl (hother f as)

instance [DecidablePred given] {e : Expr} : Decidable (GroupedBy s given e) :=
  decidable_of_iff _ groupedBy_iff.symm

theorem GroupedBy.bySymbols {given : String → Prop} {e : Expr} (h : GroupedBy s given e) :
    GroupedBySymbols s e := by
  intro f as ha hf
  obtain ⟨n, rest, has, _⟩ := h f as ha hf
  exact ⟨n, rest, has⟩

theorem GroupedBySymbols.groupedBy {e : Expr} (h : GroupedBySymbols s e) :
    GroupedBy s (fun _ => True) e := by
  intro f as ha hf
  obtain ⟨n, rest, has⟩ := h f as ha hf
  exact ⟨n, rest, has, trivial⟩

instance {e : Expr} : Decidable (GroupedBySymbols s e) :=
  decidable_of_iff (GroupedBy s (fun _ => True) e) ⟨GroupedBy.bySymbols, GroupedBySymbols.groupedBy⟩

theorem ofGroup_congr (date : String) {as bs : List Expr} (h : as.head? = bs.head?) :
    Key.ofGroup date as = Key.ofGroup date bs := by
  cases as with
  | nil =>
    cases bs with
    | nil => rfl
    | cons b bs => cases h
  | cons a as =>
    cases bs with
    | nil => cases h
    | cons b bs =>
      cases h
      rfl

/-- The key of an operator depends on its first argument at most, and only for operators within
groups. -/
theorem ofOperator_congr (c : Columns) {n : Naming} {f : String} {as bs : List Expr}
    (h : Naming.isWithinGroup n f = true → as.head? = bs.head?) :
    Key.ofOperator c n f as = Key.ofOperator c n f bs := by
  cases n with
  | byLetters =>
    simp only [Naming.isWithinGroup, decide_eq_true_eq] at h
    simp only [Key.ofOperator]
    generalize f.toList = cs at h ⊢
    split
    · rfl
    · rfl
    · exact ofGroup_congr c.date (h rfl)
    · rfl
    · rfl
  | byList time market group =>
    simp only [Naming.isWithinGroup, decide_eq_true_eq] at h
    simp only [Key.ofOperator]
    by_cases h1 : f ∈ time
    · rw [if_pos h1, if_pos h1]
    · by_cases h2 : f ∈ market
      · rw [if_neg h1, if_neg h1, if_pos h2, if_pos h2]
      · by_cases h3 : f ∈ group
        · rw [if_neg h1, if_neg h1, if_neg h2, if_neg h2, if_pos h3, if_pos h3,
            ofGroup_congr c.date (h ⟨h1, h2, h3⟩)]
        · rw [if_neg h1, if_neg h1, if_neg h2, if_neg h2, if_neg h3, if_neg h3]

theorem GroupedBySymbols.steady {e : Expr} (h : GroupedBySymbols s e) :
    Steady s.rule e := by
  intro a ha f hf
  cases a with
  | apply g as =>
    cases g with
    | named g =>
      refine ofOperator_congr s.columns fun hg => ?_
      obtain ⟨n, rest, rfl⟩ := h g as ha hg
      simp [Expr.args, hf n]
    | _ => rfl
  | power b x => rfl
  | _ => rfl

/-! ## Bound columns -/

namespace Graph

/-- The grouped operators of the expression of a column, at any depth, are of its key. -/
def OneKind (s : Setting) (g : Graph) (v : String) : Prop :=
  ∃ c e k, g.get? v = some c ∧ c.expr = some (.expr e) ∧ c.key = some k ∧ Homogeneous s.rule k e

/-- The bindings as they are planned. -/
abbrev asValues (b : Bindings) : List (Slot × Value) := b.map (fun p => (p.1, Value.expr p.2))

theorem binds_asValues {b : Bindings} {v : String} {e : Expr} :
    Binds (asValues b) v e ↔ (Slot.column v, e) ∈ b := by
  simp [Binds, asValues]

/-- A column that is not given is that of a binding. -/
theorem Bound.exists_binding {b : Bindings} {g : Graph} (h : Bound (asValues b) g) {v : String}
    (hp : g.pred v ≠ []) : ∃ e, (Slot.column v, e) ∈ b := by
  obtain ⟨u, hu⟩ := Digraph.exists_mem_of_pred_ne_nil hp
  obtain ⟨e, he, _⟩ := (h.edges u v).mp hu
  exact ⟨e, binds_asValues.mp he⟩

/-- A rank across the market. -/
def rankOf (e : Expr) : Expr := .apply (.named "cs_rank") [e]

/-- A mean over time. -/
def meanOf (e : Expr) : Expr := .apply (.named "ts_mean") [e]

end Graph

end Plan

end FactorPlan
