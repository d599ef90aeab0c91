import FactorPlan.Proofs.Homogeneous

/-!
Cutting at the parts that splitting finds. Splitting goes through exactly where every node has a
key or is computed on whole columns (`splits_iff`); a node that is cut below has the same key as
before where that depends on symbols only. So what is left of an expression, and of each part of
it, when those parts are cut off can be split again, and then there is one key to be found and no
more: that of all grouped operators that are left (`split_cutBelow`).
-/

namespace FactorPlan

namespace Expr

variable {cut : Expr → Option String}

/-- The nodes of an expression that is cut are symbols, or nodes of it that are cut. -/
theorem mem_nodes_cutBelow {a e : Expr} (h : a ∈ (e.cutBelow cut).nodes) :
    (∃ n, a = .symbol n) ∨ ∃ b ∈ e.nodes, a = b.cutBelow cut := by
  induction e using args_induction with
  | h e ih =>
    rcases mem_nodes_iff.mp h with rfl | ⟨u, hu, ha⟩
    · exact Or.inr ⟨e, e.mem_nodes_self, rfl⟩
    · rw [show (e.cutBelow cut).args = _ from args_withArgs (List.length_map _)] at hu
      obtain ⟨b, hb, rfl⟩ := List.mem_map.mp hu
      rw [cutAt_eq] at ha
      cases hc : cut b with
      | some n =>
        rw [hc] at ha
        exact Or.inl ⟨n, List.mem_singleton.mp ha⟩
      | none =>
        rw [hc] at ha
        rcases ih b hb ha with hsym | ⟨d, hd, rfl⟩
        · exact Or.inl hsym
        · exact Or.inr ⟨d, mem_nodes_of_arg hb hd, rfl⟩

theorem isAtom_of_mem_sharedParts {x e : Expr} (he : e.isAtom = false) (hx : x ∈ e.sharedParts) :
    x.isAtom = false := by
  rcases e.sharedParts_cases with hp | ⟨a, rest, rfl, _, hp⟩
  · rw [hp] at hx
    rw [List.mem_singleton.mp hx]
    exact he
  · rw [hp] at hx
    simpa using (List.mem_filter.mp hx).2

end Expr

namespace Grouping

variable {rule : Expr → Except GroupError Key} {cut : Expr → Option String}

theorem splitList_of_splits {as : List Expr} (h : ∀ a ∈ as, Splits rule a) :
    ∃ m below, splitList rule as = (m, .ok below) := by
  induction as with
  | nil => exact ⟨_, _, rfl⟩
  | cons a as ih =>
    obtain ⟨ha, has⟩ := List.forall_mem_cons.mp h
    obtain ⟨m, hm, _⟩ := split_of_splits ha
    obtain ⟨m', below, hm'⟩ := ih has
    exact ⟨_, _, by rw [splitList, hm, hm']; rfl⟩

/-- Splitting goes through where every node has a key. -/
theorem splits_iff {e : Expr} : Splits rule e ↔ ∀ a ∈ e.nodes, ∃ k, rule a = .ok k := by
  constructor
  · intro hs a ha
    obtain ⟨k, hk, _⟩ := split_cases (hs.of_mem_nodes ha).1
    exact ⟨k, hk⟩
  · induction e using Expr.args_induction with
    | h e ih =>
      intro h
      obtain ⟨own, hown⟩ := h e e.mem_nodes_self
      obtain ⟨m, below, hbelow⟩ := splitList_of_splits fun a ha =>
        ih a ha fun b hb => h b (Expr.mem_nodes_of_arg ha hb)
      have hsplit : ∃ m ks, split rule e = (m, .ok ks) := by
        rw [split_eq]
        unfold settle
        rw [hown, hbelow]
        dsimp only
        split
        · exact ⟨_, _, rfl⟩
        · exact ⟨_, _, rfl⟩
      obtain ⟨m, ks, hsplit⟩ := hsplit
      exact (splits_of_split hsplit).1

/-- What is left of an expression that splits can be split again. -/
theorem Splits.cutBelow (hrule : Rooted rule) (hcut : ∀ n, cut (.symbol n) = none) {e : Expr}
    (hs : Splits rule e) (hsteady : Steady rule e) : Splits rule (e.cutBelow cut) := by
  rw [splits_iff] at hs ⊢
  intro a ha
  rcases Expr.mem_nodes_cutBelow ha with ⟨n, rfl⟩ | ⟨b, hb, rfl⟩
  · exact ⟨_, hrule.leaf _ rfl⟩
  · obtain ⟨k, hk⟩ := hs b hb
    -- symbols are not cut, so a node has the first argument that its key depends on
    refine ⟨k, (hsteady b hb _ fun n => ?_).trans hk⟩
    rw [Expr.cutAt_eq, hcut]
    rfl

theorem nodup_outerKeys {e : Expr} (hs : Splits rule e) : (outerKeys rule e).Nodup := by
  obtain ⟨own, _, _, hkeys, _⟩ := split_cases hs
  rw [hkeys]
  split
  · exact nodup_keysBelow e
  · exact List.nodup_singleton own

/-- Parts are no leaves. -/
theorem isAtom_of_mem_partsIn {x e : Expr} (hs : Splits rule e) (hx : x ∈ partsIn rule e) :
    x.isAtom = false := by
  induction e using Expr.args_induction with
  | h e ih =>
    obtain ⟨_, _, hargs, _, hparts⟩ := split_cases hs
    rw [hparts] at hx
    rcases List.mem_append.mp hx with hx | hx
    · obtain ⟨a, ha, hx⟩ := List.mem_flatMap.mp hx
      exact ih a ha (hargs a ha) hx
    · obtain ⟨a, _, hatom, hxa, _⟩ := mem_needed.mp hx
      exact Expr.isAtom_of_mem_sharedParts hatom hxa

/-- Names for the listed parts, by which they are cut off. -/
def namesFor (parts : List Expr) (name : Expr → String) (y : Expr) : Option String :=
  if y ∈ parts then some (name y) else none

/-- An expression of one kind that splits has one key to be found at most, and it is that of its
grouped operators. -/
theorem Homogeneous.sole {e : Expr} {k : Key} (h : Homogeneous rule k e) (hs : Splits rule e) :
    ∃ m js j, split rule e = (m, .ok js) ∧ js.length ≤ 1 ∧ soleKey js = .ok j ∧
      Homogeneous rule j e ∧ (keysWithin rule e = [] → j = Key.plain) := by
  obtain ⟨m, hsplit, _⟩ := split_of_splits hs
  have hsub := outerKeys_subset hs
  have hlen : (outerKeys rule e).length ≤ 1 :=
    length_le_one_of_eq (nodup_outerKeys hs) fun j hj => h j (hsub j hj)
  obtain ⟨j, hj, hall⟩ := soleKey_of_length_le_one hlen
  refine ⟨m, _, j, hsplit, hlen, hj, fun i hi => ?_, fun hnil => ?_⟩
  · -- the outermost key is among those within, all of which are equal
    cases hks : outerKeys rule e with
    | nil =>
      rw [keysWithin_eq_nil hs hks] at hi
      cases hi
    | cons k' ks =>
      have hk' : k' ∈ outerKeys rule e := by rw [hks]; exact List.mem_cons_self
      exact ((h i hi).trans (h k' (hsub k' hk')).symm).trans (hall k' hk')
  · have hnone : outerKeys rule e = [] :=
      List.eq_nil_iff_forall_not_mem.mpr fun i hi => by
        have := hsub i hi
        rw [hnil] at this
        cases this
    rw [hnone] at hj
    exact (Except.ok.inj hj).symm

end Grouping

namespace Plan

open Grouping

/-- **Splitting cuts at every boundary.** Let the parts that splitting finds in an expression, with
the first arguments of operators within groups being symbols, be replaced by symbols wherever they
occur below the root of the expression or of one of the parts. What is left in each case has
grouped operators of one key only; splitting it goes through and finds that key at most, and it is
its sole key. Where no grouped operator is left, it is computed on whole columns. -/
theorem split_cutBelow (s : Setting) {e : Expr} {m : Met} {ks : List Key}
    (hsplit : split s.rule e = (m, .ok ks)) (hgrouped : GroupedBySymbols s e)
    (name : Expr → String) :
    ∀ x ∈ e :: m.parts, ∃ m' js k,
      split s.rule (x.cutBelow (namesFor m.parts name)) = (m', .ok js) ∧ js.length ≤ 1 ∧
      soleKey js = .ok k ∧ Homogeneous s.rule k (x.cutBelow (namesFor m.parts name)) ∧
      (keysWithin s.rule (x.cutBelow (namesFor m.parts name)) = [] → k = Key.plain) := by
  intro x hx
  obtain ⟨hs, _, hparts⟩ := splits_of_split hsplit
  rw [← hparts] at hx ⊢
  have hcut : ∀ n, namesFor (partsIn s.rule e) name (.symbol n) = none := fun n =>
    if_neg fun hn => by cases isAtom_of_mem_partsIn hs hn
  have hnamed : ∀ y ∈ partsIn s.rule e, (namesFor (partsIn s.rule e) name y).isSome := by
    intro y hy
    rw [namesFor, if_pos hy]
    rfl
  have hnode : x ∈ e.nodes := by
    rcases List.mem_cons.mp hx with rfl | hx
    · rw [Expr.nodes_eq]; exact List.mem_cons_self
    · exact mem_nodes_of_mem_partsIn hs hx
  obtain ⟨k, hk⟩ := homogeneous_cutBelow s.rooted hcut hs hgrouped.steady hnamed x hx
  exact hk.sole ((hs.of_mem_nodes hnode).1.cutBelow s.rooted hcut
    fun a ha => hgrouped.steady a (Expr.mem_nodes_trans hnode ha))

/-- A mean over a rank and a rank within sectors of a negated mean: each stands below another kind
of operator. -/
def meanOfRanks : Expr :=
  .apply (.named "ts_mean") [.sum [.apply (.named "cs_rank") [.symbol "OPEN"],
    .apply (.named "gp_rank") [.symbol "SECTOR",
      .product [.negOne, .apply (.named "ts_mean") [.symbol "CLOSE"]]]]]

/-- Four parts are found: the mean without its sign, the two ranks and their sum. -/
theorem split_cutBelow_meanOfRanks : ∃ m ks, split (Setting.rule {}) meanOfRanks = (m, .ok ks) ∧
    m.parts.length = 4 ∧ ∀ x ∈ meanOfRanks :: m.parts, ∃ m' js k,
      split (Setting.rule {}) (x.cutBelow (namesFor m.parts fun _ => "x")) = (m', .ok js) ∧
      js.length ≤ 1 ∧ soleKey js = .ok k ∧
      Homogeneous (Setting.rule {}) k (x.cutBelow (namesFor m.parts fun _ => "x")) ∧
      (keysWithin (Setting.rule {}) (x.cutBelow (namesFor m.parts fun _ => "x")) = [] →
        k = Key.plain) := by
  have hsplit : split (Setting.rule {}) meanOfRanks = ((split (Setting.rule {}) meanOfRanks).1,
    .ok [Key.overTime "asset" "date"]) := rfl
  exact ⟨_, _, hsplit, by decide, split_cutBelow {} hsplit (by decide) fun _ => "x"⟩

end Plan

end FactorPlan
