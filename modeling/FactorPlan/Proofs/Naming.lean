import FactorPlan.Proofs.Splitting

/-!
The two ways of telling the grouping of an operator from its name: by its first three letters, and
by lists of names. With the names that begin with the letters for lists (`Naming.listing`) both
give the same key to every operator whose name has three letters at least
(`ofOperator_listing`).

Splitting an expression looks at its nodes from the top down and stops at the first one without a
key (`failure?_split`), so rules that agree up to there split it alike, and meet the same parts and
symbols until they fail (`split_congr`). A shorter name has no third letter to look at: splitting
by letters stops there, and by lists it goes on (`namings_agree_iff`, `short_name_stops`).
-/

namespace FactorPlan

namespace Grouping

variable {rule rule' : Expr → Except GroupError Key}

/-! ## Failures of splitting -/

/-- Why there is no result. -/
def failure? {α : Type} : Except GroupError α → Option GroupError
  | .error x => some x
  | .ok _ => none

theorem failure?_eq_some_iff {α : Type} {r : Except GroupError α} {x : GroupError} :
    failure? r = some x ↔ r = .error x := by
  cases r <;> simp [failure?]

theorem failure?_settle (e : Expr) (below : Met × Except GroupError (List (List Key))) :
    failure? (settle rule e below).2 = (failure? (rule e)).or (failure? below.2) := by
  obtain ⟨m, r⟩ := below
  unfold settle
  cases rule e with
  | error x => rfl
  | ok own =>
    cases r with
    | error x => rfl
    | ok below =>
      dsimp only
      split <;> rfl

theorem failure?_follow (a : Met × Except GroupError (List Key))
    (b : Met × Except GroupError (List (List Key))) :
    failure? (follow a b).2 = (failure? a.2).or (failure? b.2) := by
  obtain ⟨m, r⟩ := a
  cases r with
  | error x => rfl
  | ok ks => cases hb : b.2 <;> simp [follow, hb, failure?, Except.map]

/-- Splitting fails as the first node without a key does. -/
theorem failure?_split (e : Expr) :
    failure? (split rule e).2 = e.nodes.findSome? (fun x => failure? (rule x)) := by
  induction e using Expr.args_induction with
  | h e ih =>
    have hlist : ∀ as : List Expr, (∀ a ∈ as, a ∈ e.args) → failure? (splitList rule as).2 =
        (as.flatMap Expr.nodes).findSome? (fun x => failure? (rule x)) := by
      intro as
      induction as with
      | nil => intro _; rfl
      | cons a as ihas =>
        intro hsub
        rw [splitList, failure?_follow, List.flatMap_cons, List.findSome?_append,
          ih a (hsub a List.mem_cons_self), ihas fun b hb => hsub b (List.mem_cons_of_mem a hb)]
    rw [split_eq, failure?_settle, Expr.nodes_eq, List.findSome?_cons, hlist e.args fun _ ha => ha]
    cases failure? (rule e) <;> rfl

/-! ## Rules that agree up to the first failure -/

/-- Two rules give the same for each listed expression that has only expressions with a key before
it. -/
def AgreeUpTo (rule rule' : Expr → Except GroupError Key) (xs : List Expr) : Prop :=
  ∀ before x after, xs = before ++ x :: after → (∀ y ∈ before, failure? (rule y) = none) →
    rule x = rule' x

namespace AgreeUpTo

theorem head {x : Expr} {xs : List Expr} (h : AgreeUpTo rule rule' (x :: xs)) : rule x = rule' x :=
  h [] x xs rfl (by simp)

theorem left {xs ys : List Expr} (h : AgreeUpTo rule rule' (xs ++ ys)) : AgreeUpTo rule rule' xs :=
  fun before x after hxs => h before x (after ++ ys) (by rw [hxs]; simp)

theorem right {xs ys : List Expr} (h : AgreeUpTo rule rule' (xs ++ ys))
    (hxs : ∀ y ∈ xs, failure? (rule y) = none) : AgreeUpTo rule rule' ys := by
  intro before x after hys hbefore
  refine h (xs ++ before) x after (by rw [hys]; simp) fun y hy => ?_
  rcases List.mem_append.mp hy with hy | hy
  · exact hxs y hy
  · exact hbefore y hy

end AgreeUpTo

/-- Rules that agree up to the first failure split an expression alike: they find the same keys and
meet the same parts and symbols, or they fail alike and have met the same until then. -/
theorem split_congr {e : Expr} (h : AgreeUpTo rule rule' e.nodes) : split rule e = split rule' e := by
  induction e using Expr.args_induction with
  | h e ih =>
    have hlist : ∀ as : List Expr, (∀ a ∈ as, a ∈ e.args) →
        AgreeUpTo rule rule' (as.flatMap Expr.nodes) → splitList rule as = splitList rule' as := by
      intro as
      induction as with
      | nil => intro _ _; rfl
      | cons a as ihas =>
        intro hsub hagree
        rw [List.flatMap_cons] at hagree
        rw [splitList, splitList, ← ih a (hsub a List.mem_cons_self) hagree.left]
        have hfail : failure? (split rule a).2 = _ := failure?_split a
        cases hs : split rule a with
        | mk m r =>
          rw [hs] at hfail
          cases r with
          | error x => rfl
          | ok ks =>
            -- no node of `a` fails, so the rules agree on what comes after it
            rw [ihas (fun b hb => hsub b (List.mem_cons_of_mem a hb))
              (hagree.right (List.findSome?_eq_none_iff.mp hfail.symm))]
    rw [Expr.nodes_eq] at h
    have hroot := h.head
    rw [split_eq, split_eq]
    unfold settle
    rw [← hroot]
    cases hr : rule e with
    | error x => rfl
    | ok own =>
      have hbelow : AgreeUpTo rule rule' (e.args.flatMap Expr.nodes) := by
        rw [← List.singleton_append] at h
        exact h.right (by simp [hr, failure?])
      rw [hlist e.args (fun _ ha => ha) hbelow]

end Grouping

/-! ## Names -/

namespace Expr

/-- The name of the function that a node applies, if it is known by name only. -/
def functionName? : Expr → Option String
  | .apply (.named f) _ => some f
  | _ => none

/-- The names of the functions in an expression that are known by name only. -/
def functionNames (e : Expr) : List String := e.nodes.filterMap functionName?

/-- Those of the names that begin with the given letters. -/
def namesFrom (letters : List Char) (e : Expr) : List String :=
  e.functionNames.filter (fun f => letters <+: f.toList)

end Expr

/-- The lists of the names in an expression that begin with the letters of a grouping. -/
def Naming.listing (e : Expr) : Naming :=
  .byList (e.namesFrom ['t', 's', '_']) (e.namesFrom ['c', 's', '_']) (e.namesFrom ['g', 'p', '_'])

namespace Key

variable {c : Columns} {e : Expr} {f : String}

theorem mem_namesFrom (h : f ∈ e.functionNames) (letters : List Char) :
    f ∈ e.namesFrom letters ↔ letters <+: f.toList := by
  simp [Expr.namesFrom, h]

/-- By lists an operator of an expression has the key that its first letters say. -/
theorem ofOperator_listing (h : f ∈ e.functionNames) (args : List Expr) :
    ofOperator c (.listing e) f args =
      if ['t', 's', '_'] <+: f.toList then .ok (overTime c.asset c.date)
      else if ['c', 's', '_'] <+: f.toList then .ok (acrossMarket c.date)
      else if ['g', 'p', '_'] <+: f.toList then ofGroup c.date args
      else .ok plain := by
  simp only [ofOperator, Naming.listing, mem_namesFrom h]

/-- By letters it has the same one, if there are three of them. -/
theorem ofOperator_byLetters (args : List Expr) :
    ofOperator c .byLetters f args =
      if f.length < 3 then .error .shortName
      else if ['t', 's', '_'] <+: f.toList then .ok (overTime c.asset c.date)
      else if ['c', 's', '_'] <+: f.toList then .ok (acrossMarket c.date)
      else if ['g', 'p', '_'] <+: f.toList then ofGroup c.date args
      else .ok plain := by
  rw [← String.length_toList]
  simp only [ofOperator]
  generalize f.toList = l
  split
  · simp
  · simp
  · rw [if_neg (by simp)]
    simp
  · rename_i ht hc hg
    simp only [List.length_cons, List.cons_prefix_cons, List.nil_prefix, and_true]
    rw [if_neg (by omega), if_neg fun h => ht h.1.symm h.2.1.symm h.2.2.symm,
      if_neg fun h => hc h.1.symm h.2.1.symm h.2.2.symm, if_neg fun h => hg h.1.symm h.2.1.symm h.2.2.symm]
  · rename_i hshort
    rcases l with _ | ⟨a, _ | ⟨b, _ | ⟨d, l⟩⟩⟩
    · rfl
    · rfl
    · rfl
    · exact absurd rfl (hshort a b d l)

end Key

namespace Grouping

open Key

/-- Splitting by letters meets a function whose name has fewer than three letters, and every node
before it has a key. -/
def MeetsShortName (c : Columns) (e : Expr) : Prop :=
  ∃ before f as after, e.nodes = before ++ Expr.apply (.named f) as :: after ∧ f.length < 3 ∧
    ∀ x ∈ before, ∃ k, Key.ofRoot c .byLetters x = .ok k

variable {c : Columns} {e : Expr}

theorem functionName_mem {f : String} {as : List Expr} (h : .apply (.named f) as ∈ e.nodes) :
    f ∈ e.functionNames := List.mem_filterMap.mpr ⟨_, h, rfl⟩

/-- The two ways give a node the same key, or fail alike, unless its name is short. -/
theorem ofRoot_listing {x : Expr} (hx : x ∈ e.nodes) (hlong : ∀ f as, x = .apply (.named f) as → 3 ≤ f.length) :
    Key.ofRoot c .byLetters x = Key.ofRoot c (.listing e) x := by
  unfold ofRoot
  split
  · rename_i f as
    have hf := hlong f as rfl
    rw [ofOperator_byLetters, ofOperator_listing (functionName_mem hx), if_neg (by omega)]
  · rfl

theorem ofRoot_ne_shortName (x : Expr) (hx : x ∈ e.nodes) :
    Key.ofRoot c (.listing e) x ≠ .error .shortName := by
  unfold ofRoot
  split
  · rename_i f as
    rw [ofOperator_listing (functionName_mem hx)]
    have hgroup : ofGroup c.date as ≠ .error .shortName := by
      unfold ofGroup
      split
      · simp
      · split <;> simp
    split
    · simp
    · split
      · simp
      · split
        · exact hgroup
        · simp
  · simp

/-- Splitting by letters that meets a short name fails there. -/
theorem MeetsShortName.failure (h : MeetsShortName c e) :
    (split (Key.ofRoot c .byLetters) e).2 = .error .shortName := by
  obtain ⟨before, f, as, after, hnodes, hshort, hbefore⟩ := h
  have hnone : before.findSome? (fun x => failure? (Key.ofRoot c .byLetters x)) = none := by
    rw [List.findSome?_eq_none_iff]
    intro x hx
    obtain ⟨k, hk⟩ := hbefore x hx
    rw [hk]
    rfl
  have hfail : Key.ofRoot c .byLetters (.apply (.named f) as) = .error .shortName := by
    rw [ofRoot, ofOperator_byLetters, if_pos hshort]
  rw [← failure?_eq_some_iff, failure?_split, hnodes, List.findSome?_append, hnone, List.findSome?_cons, hfail]
  rfl

/-- Splitting by lists does not fail for a short name. -/
theorem split_listing_ne_shortName : (split (Key.ofRoot c (.listing e)) e).2 ≠ .error .shortName := by
  rw [Ne, ← failure?_eq_some_iff, failure?_split]
  intro h
  obtain ⟨x, hx, hfail⟩ := List.exists_of_findSome?_eq_some h
  exact ofRoot_ne_shortName x hx (failure?_eq_some_iff.mp hfail)

/-- Where no short name is met, the two ways agree up to the first failure. -/
theorem agreeUpTo_listing (h : ¬ MeetsShortName c e) :
    AgreeUpTo (Key.ofRoot c .byLetters) (Key.ofRoot c (.listing e)) e.nodes := by
  intro before x after hnodes hbefore
  refine ofRoot_listing (by rw [hnodes]; simp) ?_
  rintro f as rfl
  by_contra hshort
  refine h ⟨before, f, as, after, hnodes, by omega, fun y hy => ?_⟩
  have hy := hbefore y hy
  cases hk : Key.ofRoot c .byLetters y with
  | error z => rw [hk] at hy; cases hy
  | ok k => exact ⟨k, rfl⟩

/-- **The two ways of naming agree but for short names.** For every expression, splitting by letters and
splitting by the lists of the names with those letters find the same keys and meet the same parts and
symbols, or fail alike having met the same, exactly where splitting by letters meets no name of fewer
than three letters. Otherwise it fails for want of a letter, and splitting by lists does not. So they
agree wherever all names have three letters. -/
theorem namings_agree_iff (c : Columns) (e : Expr) :
    (split (Key.ofRoot c .byLetters) e = split (Key.ofRoot c (.listing e)) e ↔ ¬ MeetsShortName c e) ∧
    (MeetsShortName c e → (split (Key.ofRoot c .byLetters) e).2 = .error .shortName ∧
      (split (Key.ofRoot c (.listing e)) e).2 ≠ .error .shortName) ∧
    ((∀ f ∈ e.functionNames, 3 ≤ f.length) →
      split (Key.ofRoot c .byLetters) e = split (Key.ofRoot c (.listing e)) e) := by
  have hagree : ¬ MeetsShortName c e →
      split (Key.ofRoot c .byLetters) e = split (Key.ofRoot c (.listing e)) e :=
    fun h => split_congr (agreeUpTo_listing h)
  refine ⟨⟨fun heq h => ?_, hagree⟩, fun h => ⟨h.failure, split_listing_ne_shortName⟩, fun hlong => hagree ?_⟩
  · exact split_listing_ne_shortName (heq ▸ h.failure)
  · rintro ⟨before, f, as, after, hnodes, hshort, -⟩
    have hmem : .apply (.named f) as ∈ e.nodes := by rw [hnodes]; simp
    have := hlong f (functionName_mem hmem)
    omega

/-- A function with a name of one letter. -/
def shortCall : Expr := .apply (.named "f") [.symbol "OPEN"]

/-- By letters it has no key; by lists it is computed on whole columns. -/
theorem short_name_stops :
    split (Key.ofRoot {} .byLetters) shortCall = ({}, .error .shortName) ∧
    split (Key.ofRoot {} (.listing shortCall)) shortCall = ({ symbols := ["OPEN"] }, .ok []) ∧
    ¬ ∀ (c : Columns) (e : Expr), (∀ f ∈ e.functionNames, f ≠ "") →
      split (Key.ofRoot c .byLetters) e = split (Key.ofRoot c (.listing e)) e := by
  have hletters : split (Key.ofRoot {} .byLetters) shortCall = ({}, .error .shortName) := by decide
  have hlists : split (Key.ofRoot {} (.listing shortCall)) shortCall =
      ({ symbols := ["OPEN"] }, .ok []) := by decide
  refine ⟨hletters, hlists, fun h => ?_⟩
  have heq := h {} shortCall (by decide)
  rw [hletters, hlists] at heq
  cases heq

end Grouping

end FactorPlan
