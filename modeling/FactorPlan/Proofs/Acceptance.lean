import FactorPlan.Proofs.Building
import FactorPlan.Proofs.Collapse
import FactorPlan.Rules.Values

/-!
When the passes over named values return. Where windowed operators have numbers for windows, and
delays have two arguments (`windows`), every pass keeps this, evaluation of the nodes that are
built again included (`supplies_pass`). So no pass misses an argument or fails to compare a window
with one, and three ways of failing are left (`Stopped`): the second pass asks for the name of a
function that has none, where a node is of the kind of its first argument (`repeatsUnnamed`), the
last one takes the negative of a delayed truth value (`negatesLogical`), and in any of them a node
over a replaced argument may be refused, because the argument is a truth value or because the node
compares its arguments (`Expr.logical_of_refusal`).

`preprocessing_outcome` says that there is no other way, and that otherwise all names come back in
their order; `preprocessing_fails` shows an expression for each of the three.
-/

namespace FactorPlan

/-! ## Refused nodes -/

namespace Expr

/-- Whether the root compares its arguments, takes a remainder of them or connects them. -/
def relates : Expr → Bool
  | .apply (.rel _) _ | .apply .max _ | .apply .min _ | .apply .mod _ | .apply .and _ | .apply .or _ => true
  | _ => false

theorem isLogical_of_isRelation {e : Expr} (h : e.isRelation = true) : e.isLogical = true := by
  unfold isRelation at h
  split at h
  · rfl
  · cases h

theorem logical_of_unmultiplied {as : List Expr} (h : unmultiplied as = true) : ∃ a ∈ as, a.isLogical = true := by
  by_contra hnone
  have hnil : (as.filter (· ≠ one)).filter (·.isLogical) = [] :=
    List.filter_eq_nil_iff.mpr fun a ha hlogical => hnone ⟨a, List.mem_of_mem_filter ha, hlogical⟩
  unfold unmultiplied at h
  dsimp only at h
  rw [hnil] at h
  simp at h

theorem when_eq_some {b : Bool} {x y : BuildError} : refusal.when b x = some y ↔ b = true ∧ x = y := by
  cases b <;> simp [refusal.when]

/-- A node is refused over a truth value among its arguments, or it is one that relates them. -/
theorem logical_of_refusal {e : Expr} {us : List Expr} {x : BuildError} (h : refusal e us = some x) :
    (∃ u ∈ us, u.isLogical = true) ∨ e.relates = true := by
  have hrelation (hany : us.any (·.isRelation) = true) : ∃ u ∈ us, u.isLogical = true := by
    obtain ⟨u, hu, hrel⟩ := List.any_eq_true.mp hany
    exact ⟨u, hu, isLogical_of_isRelation hrel⟩
  unfold refusal at h
  split at h
  case h_1 => exact Or.inl (hrelation (when_eq_some.mp h).1)
  case h_2 =>
    rcases Option.or_eq_some_iff.mp h with h | ⟨-, h⟩
    · exact Or.inl (hrelation (when_eq_some.mp h).1)
    · exact Or.inl (logical_of_unmultiplied (when_eq_some.mp h).1)
  case h_3 b y =>
    rcases Option.or_eq_some_iff.mp h with h | ⟨-, h⟩
    · exact Or.inl (hrelation (by simpa using (when_eq_some.mp h).1))
    · have hlogical := (when_eq_some.mp h).1
      refine Or.inl ?_
      simp only [Bool.and_eq_true, Bool.or_eq_true] at hlogical
      rcases hlogical.2 with hb | ⟨hx, -⟩
      · exact ⟨b, List.mem_cons_self, hb⟩
      · exact ⟨y, List.mem_cons_of_mem _ List.mem_cons_self, hx⟩
  case h_4 a => exact Or.inl ⟨a, List.mem_cons_self, (when_eq_some.mp h).1⟩
  case h_5 a => exact Or.inl ⟨a, List.mem_cons_self, (when_eq_some.mp h).1⟩
  case h_6 a => exact Or.inl ⟨a, List.mem_cons_self, (when_eq_some.mp h).1⟩
  case h_13 => cases h
  all_goals exact Or.inr rfl

theorem logical_of_build {e : Expr} {us : List Expr} {x : BuildError} (h : build e us = .error x) :
    (∃ u ∈ us, u.isLogical = true) ∨ e.relates = true := by
  unfold build at h
  split at h
  · exact logical_of_refusal ‹_›
  · cases h

end Expr

namespace Rules

open Formula (Value)

/-! ## Passes over tables -/

section Tables
variable {build : Build} {f : Finder} {t : List (String × Value)}

theorem refused_of_applyAll {rs : List Exchange} {e : Expr} {x : BuildError}
    (h : (Exchange.applyAll build rs e).2 = .error x) : ∃ d us, build d us = .error x := by
  induction rs generalizing e with
  | nil => cases h
  | cons r rs ih =>
    rw [Exchange.applyAll] at h
    cases hr : r.apply build e with
    | ok d =>
      rw [hr] at h
      exact ih h
    | error y =>
      rw [hr] at h
      cases h
      exact Expr.refused_of_tryReplace hr

theorem exists_of_find_error {es : List Expr} {x : RuleError} (h : find f es = .error x) :
    ∃ y ∈ es, f y = .error x := by
  induction es with
  | nil => cases h
  | cons e es ih =>
    rcases bind_eq_error.mp h with h | ⟨here, -, h⟩
    · exact ⟨e, List.mem_cons_self, h⟩
    rcases bind_eq_error.mp h with h | ⟨rest, -, h⟩
    · obtain ⟨y, hy, hfails⟩ := ih h
      exact ⟨y, List.mem_cons_of_mem _ hy, hfails⟩
    · cases here <;> cases h

/-- A pass that fails has a node at which its finder fails, or a replacement that is refused. -/
theorem pass_error {e : Expr} {rs : List Exchange} {x : RuleError} (h : pass build f e = (rs, .error x)) :
    (∃ y ∈ e.nodes, f y = .error x) ∨ ∃ found y, find f e.nodes = .ok found ∧
      (Exchange.applyAll build found e).2 = .error y ∧ x = .build y := by
  unfold pass at h
  split at h
  · rename_i hfind
    cases h
    exact Or.inl (exists_of_find_error hfind)
  · rename_i found hfind
    dsimp only at h
    cases hrun : (Exchange.applyAll build found e).2 with
    | ok d =>
      rw [hrun] at h
      cases h
    | error y =>
      rw [hrun] at h
      cases h
      exact Or.inr ⟨found, y, hfind, hrun, rfl⟩

/-- A pass over a value returns, or it is one over an expression that fails. -/
theorem passValue_cases (build : Build) (f : Finder) (w : Value) :
    (∃ rs w', passValue build f w = (rs, .ok w') ∧
      (∀ e, w = .expr e → ∃ e', w' = .expr e' ∧ pass build f e = (rs, .ok e')) ∧
      ∀ e', w' = .expr e' → ∃ e, w = .expr e) ∨
    ∃ e rs x, w = .expr e ∧ pass build f e = (rs, .error x) ∧ passValue build f w = (rs, .error x) := by
  cases w with
  | expr e =>
    rcases hp : pass build f e with ⟨rs, r⟩
    cases r with
    | ok e' =>
      refine Or.inl ⟨rs, .expr e', by rw [passValue, hp]; rfl, fun d hd => ?_, fun _ _ => ⟨e, rfl⟩⟩
      cases hd
      exact ⟨e', rfl, hp⟩
    | error x => exact Or.inr ⟨e, rs, x, rfl, hp, by rw [passValue, hp]; rfl⟩
  | _ => exact Or.inl ⟨[], _, rfl, fun d hd => (by cases hd), fun d hd => (by cases hd)⟩

/-- The pass over a table returned `t'`: every name with what the pass has made of its value. -/
structure Passed (build : Build) (f : Finder) (t t' : List (String × Value)) : Prop where
  result : (passTable build f t).1 = .ok t'
  names : t'.map Prod.fst = t.map Prod.fst
  made : ∀ v e, (v, Value.expr e) ∈ t → ∃ rs e', pass build f e = (rs, .ok e')
  origin : ∀ v e', (v, Value.expr e') ∈ t' → ∃ e rs, (v, Value.expr e) ∈ t ∧ pass build f e = (rs, .ok e')

/-- A pass over a table returns, or fails as the pass over one of its expressions does. -/
theorem passTable_cases (build : Build) (f : Finder) (t : List (String × Value)) :
    (∃ t', Passed build f t t') ∨
      ∃ v e rs x, (v, Value.expr e) ∈ t ∧ pass build f e = (rs, .error x) ∧ (passTable build f t).1 = .error x := by
  induction t with
  | nil => exact Or.inl ⟨[], rfl, rfl, by simp, by simp⟩
  | cons p t ih =>
    obtain ⟨v, w⟩ := p
    rcases passValue_cases build f w with ⟨rs, w', hw, hexpr, hfrom⟩ | ⟨e, rs, x, rfl, hp, hw⟩
    · have hcons : (passTable build f ((v, w) :: t)).1 = (passTable build f t).1.map ((v, w') :: ·) := by
        rw [passTable, hw]
      rcases ih with ⟨t', h⟩ | ⟨u, e, rs', x, hmem, hp, hx⟩
      · refine Or.inl ⟨(v, w') :: t', ?_, ?_, fun u e hmem => ?_, fun u e' hmem => ?_⟩
        · rw [hcons, h.result]
          rfl
        · rw [List.map_cons, List.map_cons, h.names]
        · rcases List.mem_cons.mp hmem with heq | hmem
          · cases heq
            obtain ⟨e', -, hp⟩ := hexpr e rfl
            exact ⟨rs, e', hp⟩
          · exact h.made u e hmem
        · rcases List.mem_cons.mp hmem with heq | hmem
          · cases heq
            obtain ⟨e, rfl⟩ := hfrom e' rfl
            obtain ⟨d, hd, hp⟩ := hexpr e rfl
            cases hd
            exact ⟨e, rs, List.mem_cons_self, hp⟩
          · obtain ⟨e, rs', hold, hp⟩ := h.origin u e' hmem
            exact ⟨e, rs', List.mem_cons_of_mem _ hold, hp⟩
      · refine Or.inr ⟨u, e, rs', x, List.mem_cons_of_mem _ hmem, hp, ?_⟩
        rw [hcons, hx]
        rfl
    · refine Or.inr ⟨v, e, rs, x, List.mem_cons_self, hp, ?_⟩
      rw [passTable, hw]

theorem passed_of_ok {t' : List (String × Value)} (h : (passTable build f t).1 = .ok t') : Passed build f t t' := by
  rcases passTable_cases build f t with ⟨d, hd⟩ | ⟨v, e, rs, x, -, -, hx⟩
  · cases hd.result.symm.trans h
    exact hd
  · cases hx.symm.trans h

theorem passesTable_cons {fs : List Finder} :
    (passesTable build (f :: fs) t).1 = (passTable build f t).1 >>= fun t' => (passesTable build fs t').1 := by
  rw [passesTable]
  rcases passTable build f t with ⟨r, lines⟩
  cases r with
  | ok t' => rfl
  | error x => rfl

theorem passesTable_append (before after : List Finder) (t : List (String × Value)) :
    (passesTable build (before ++ after) t).1 =
      (passesTable build before t).1 >>= fun t' => (passesTable build after t').1 := by
  induction before generalizing t with
  | nil => rfl
  | cons f before ih =>
    rw [List.cons_append, passesTable_cons, passesTable_cons, bind_assoc]
    exact congrArg _ (funext fun t' => ih t')

/-- Passes return with all names in their order, or one of them fails as the pass over an expression does. -/
theorem passesTable_cases (build : Build) (fs : List Finder) (t : List (String × Value)) :
    (∃ t', (passesTable build fs t).1 = .ok t' ∧ t'.map Prod.fst = t.map Prod.fst) ∨
      ∃ before f after tₖ v e rs x, fs = before ++ f :: after ∧ (passesTable build before t).1 = .ok tₖ ∧
        (v, Value.expr e) ∈ tₖ ∧ pass build f e = (rs, .error x) ∧ (passesTable build fs t).1 = .error x := by
  induction fs generalizing t with
  | nil => exact Or.inl ⟨t, rfl, rfl⟩
  | cons f fs ih =>
    rcases passTable_cases build f t with ⟨t₁, h₁⟩ | ⟨v, e, rs, x, hmem, hp, hx⟩
    · have hfirst (gs : List Finder) : (passesTable build (f :: gs) t).1 = (passesTable build gs t₁).1 := by
        rw [passesTable_cons, h₁.result]
        rfl
      rcases ih t₁ with ⟨t', ht', hnames⟩ | ⟨before, g, after, tₖ, v, e, rs, x, rfl, hbefore, hmem, hp, hx⟩
      · exact Or.inl ⟨t', by rw [hfirst, ht'], hnames.trans h₁.names⟩
      · exact Or.inr ⟨f :: before, g, after, tₖ, v, e, rs, x, rfl, by rw [hfirst, hbefore], hmem, hp, by rw [hfirst, hx]⟩
    · refine Or.inr ⟨[], f, fs, t, v, e, rs, x, rfl, rfl, hmem, hp, ?_⟩
      rw [passesTable_cons, hx]
      rfl

/-- Where all passes return, so does each of them over what those before it have made. -/
theorem passed_of_passes (before : List Finder) {after : List Finder} {tₖ t' : List (String × Value)}
    (h : (passesTable build (before ++ f :: after) t).1 = .ok t') (hbefore : (passesTable build before t).1 = .ok tₖ) :
    ∃ tₙ, Passed build f tₖ tₙ := by
  rw [passesTable_append, hbefore] at h
  obtain ⟨tₙ, htₙ, -⟩ := bind_eq_ok.mp (passesTable_cons.symm.trans h)
  exact ⟨tₙ, passed_of_ok htₙ⟩

end Tables

/-! ## Windows -/

/-- Windowed operators have a number for a window, other than no number, and delays have two arguments.
Numbers stay numbers below a function; anything else may change. -/
def windows : Provision where
  symbol n := n ∉ windowed
  function f as := (f ∈ windowed → ∃ x s more, as = x :: .scalar s :: more ∧ s ≠ .nan) ∧
    (f = "ts_delay" → 2 ≤ as.length)
  absolute _ := True
  absolute_any _ := trivial
  replaces new old := ∀ s, old = .scalar s → new = old
  replaces_refl _ _ _ := rfl
  replaces_trans hab hbc s hc := by
    have hb := hbc s hc
    rw [hab s (hb.trans hc), hb]
  replaces_node hnode s hold := by
    rw [hold] at hnode
    cases hnode
  function_replaces hus hf := by
    refine ⟨fun hw => ?_, fun hd => by rw [hus.length_eq]; exact hf.2 hd⟩
    obtain ⟨x, s, more, rfl, hs⟩ := hf.1 hw
    obtain _ | ⟨-, _ | ⟨hn, -⟩⟩ := hus
    exact ⟨_, s, _, by rw [hn s rfl], hs⟩

section Kept
variable {S : Provision}

/-- A replacement that puts what is provided in place of a node stays within the provision. -/
theorem supplies_apply {r : Exchange} (hr : S.Follows r.result r.node) {e d : Expr}
    (hd : r.apply Expr.build e = .ok d) (he : S.Supplies e) : S.Supplies d := by
  have hbuild : S.Rebuilds (Build.complete Expr.build) := by
    intro y us hus
    cases hb : Expr.build y us with
    | ok x =>
      rw [Build.complete_of_ok hb, Expr.eq_rebuild_of_build hb]
      exact Expr.rebuilds_rebuild y us hus
    | error x =>
      simp only [Build.complete, hb]
      exact hus
  rw [Expr.tryReplace_complete hd]
  refine (Provision.follows_replaceWith hbuild (fun x s hx => ?_) e).1 he
  obtain ⟨rfl, rfl⟩ := Exchange.rule_eq_some hx
  exact hr

theorem supplies_applyAll {rs begun : List Exchange} (hrs : ∀ r ∈ rs, S.Follows r.result r.node) {e e' : Expr}
    (h : Exchange.applyAll Expr.build rs e = (begun, .ok e')) (he : S.Supplies e) : S.Supplies e' := by
  induction rs generalizing e begun with
  | nil =>
    cases h
    exact he
  | cons r rs ih =>
    obtain ⟨hr, hrs⟩ := List.forall_mem_cons.mp hrs
    obtain ⟨d, rest, hd, hrest, -⟩ := Exchange.applyAll_cons_ok h
    exact ih hrs hrest (supplies_apply hr hd he)

/-- So does a pass. -/
theorem supplies_pass {f : Finder}
    (hf : ∀ x r, f x = .ok (some r) → x.isAtom = false ∧ (S.Supplies x → S.Supplies r)) {e e' : Expr}
    {rs : List Exchange} (h : pass Expr.build f e = (rs, .ok e')) (he : S.Supplies e) : S.Supplies e' := by
  obtain ⟨hfind, hrun⟩ := pass_ok h
  refine supplies_applyAll (fun r hr => ?_) hrun he
  obtain ⟨hnode, hsupplies⟩ := hf _ _ ((mem_find hfind r).mp hr).2
  exact .of_supplies hnode hsupplies

theorem supplies_of_mem_args {a e : Expr} (h : S.Supplies e) (ha : a ∈ e.args) : S.Supplies a :=
  (Palette.supplies_iff.mp h).2 a ha

theorem supplies_of_mem_nodes {a e : Expr} (h : S.Supplies e) (ha : a ∈ e.nodes) : S.Supplies a :=
  fun b hb => h b (Expr.mem_nodes_trans ha hb)

/-- A pass that puts arguments in place of nodes brings in nothing. -/
theorem Collapses.keeps {f : Finder} (hf : Collapses f) (x r : Expr) (h : f x = .ok (some r)) :
    x.isAtom = false ∧ (S.Supplies x → S.Supplies r) :=
  ⟨Expr.isAtom_of_mem_args (hf x r h), fun hx => supplies_of_mem_args hx (hf x r h)⟩

theorem unitFactor_keeps (x r : Expr) (h : unitFactor x = .ok (some r)) :
    x.isAtom = false ∧ (S.Supplies x → S.Supplies r) := by
  unfold unitFactor at h
  split at h
  · rename_i a rest
    split at h
    · cases h
      refine ⟨rfl, fun hx => Expr.supplies_rawProduct fun b hb => ?_⟩
      exact (Palette.supplies_product _).mp hx b (List.mem_cons_of_mem _ hb)
    · cases h
  · cases h

end Kept

/-- A mean has the window of the sum. -/
theorem meanOfSum_keeps (x r : Expr) (h : meanOfSum x = .ok (some r)) :
    x.isAtom = false ∧ (windows.Supplies x → windows.Supplies r) := by
  obtain ⟨q, y, n, more, rest, rfl, -, -, rfl⟩ := meanOfSum_eq_some.mp h
  refine ⟨rfl, fun hx => ?_⟩
  have hsum := (Palette.supplies_product _).mp hx _ (List.mem_cons_of_mem _ List.mem_cons_self)
  obtain ⟨hroot, hargs⟩ := (Palette.supplies_apply _ _).mp hsum
  obtain ⟨z, s, more', heq, hs⟩ := hroot.1 (by decide)
  cases heq
  refine (Palette.supplies_apply _ _).mpr ⟨⟨fun _ => ⟨y, s, [], rfl, hs⟩, fun _ => Nat.le_refl 2⟩, ?_⟩
  exact List.forall_mem_cons.mpr ⟨hargs y List.mem_cons_self, by simp⟩

/-! ### Comparing a window with one -/

theorem add_ne_nan {a b : Scalar} (ha : a.isFinite = true) (hb : b ≠ .nan) : a.add b ≠ .nan := by
  have hbinary : ∀ x, Scalar.ofBinary x ≠ .nan := by
    intro x
    unfold Scalar.ofBinary
    split <;> simp [Scalar.zero]
  cases a <;> cases b <;> simp_all [Scalar.add, Scalar.isFinite]

theorem spreadTerms_scalars (fuel : Nat) (a b : Scalar) :
    Expr.spreadTerms fuel [.scalar a, .scalar b] = [.scalar a, .scalar b] := by
  cases fuel with
  | zero => rfl
  | succ fuel => simp [Expr.spreadTerms, Expr.nestedTerms, Expr.openPower?, Expr.isSum]

/-- The sum of a finite number and a number is a number. -/
theorem general_scalars {a b : Scalar} (ha : a.isFinite = true) (hb : b ≠ .nan) (hzero : Scalar.zero.add a = a) :
    ∃ t, t ≠ .nan ∧ Expr.sumOf.general [.scalar a, .scalar b] = .scalar t := by
  have hsum := add_ne_nan ha hb
  have hfinite : a ≠ .nan := by
    rintro rfl
    cases ha
  have hcollect : [Expr.scalar a, .scalar b].foldlM Expr.Collected.add ({} : Expr.Collected) =
      some { number := some (a.add b) } := by
    simp [List.foldlM, Expr.Collected.add, hzero, hfinite, hsum]
  have hnone : ∀ number, Expr.sortCanonical (Expr.beside number []) = [] := by
    intro number
    unfold Expr.beside
    split <;> simp [Expr.sortCanonical, sortBy]
  unfold Expr.sumOf.general
  rw [spreadTerms_scalars, hcollect]
  simp only [List.filter_nil, List.map_nil, hnone]
  split
  · exact ⟨.zero, by decide, rfl⟩
  · exact ⟨a.add b, hsum, rfl⟩

/-- The difference of one and a number is a number. -/
theorem sub_scalar {s : Scalar} (hs : s ≠ .nan) :
    ∃ t, t ≠ .nan ∧ Expr.sub Expr.one (.scalar s) = .scalar t := by
  have hneg : s.neg ≠ .nan := by cases s <;> simp_all [Scalar.neg]
  have hzero : Scalar.zero.add .one = .one := congrArg Scalar.exact (zero_add 1)
  have hgeneral := general_scalars rfl hneg hzero
  have hone : Expr.one ≠ Expr.zero := by decide
  unfold Expr.sub Expr.sumOf
  rw [show Expr.neg (.scalar s) = .scalar s.neg from rfl]
  by_cases hzero : Expr.scalar s.neg = Expr.zero
  · have hfilter : [Expr.one, .scalar s.neg].filter (· ≠ Expr.zero) = [Expr.one] := by
      rw [hzero, List.filter_cons_of_pos (by simpa using hone), List.filter_cons_of_neg (by simp), List.filter_nil]
    rw [hfilter]
    exact ⟨.one, by decide, rfl⟩
  · have hfilter : [Expr.one, .scalar s.neg].filter (· ≠ Expr.zero) = [Expr.one, .scalar s.neg] := by
      simp [hone, hzero]
    rw [hfilter]
    have hfirst : Expr.one.isProduct = false := rfl
    have hsecond : (Expr.scalar s.neg).isProduct = false := rfl
    simp only [hfirst, hsecond, Bool.and_false, Bool.false_eq_true, if_false]
    exact hgeneral

theorem not_positive_of_negative {t : Scalar} (h : t.isNegative = true) : t.isPositive = false ∧ t.isZero = false := by
  cases t with
  | exact q =>
    have hq : q < 0 := by simpa [Scalar.isNegative] using h
    exact ⟨by simpa [Scalar.isPositive] using hq.le, by simpa [Scalar.isZero] using hq.ne⟩
  | binary x =>
    have hx : x.mantissa < 0 := by simpa [Scalar.isNegative, Binary.isNegative] using h
    refine ⟨?_, ?_⟩
    · simpa [Scalar.isPositive, Binary.isPositive] using hx.le
    · simpa [Scalar.isZero, Binary.isZero] using hx.ne
  | inf n =>
    cases h
    exact ⟨rfl, rfl⟩
  | nan => cases h

/-- A number is at most one or not. -/
theorem atMostOne_scalar {s : Scalar} (hs : s ≠ .nan) : ∃ b, atMostOne (.scalar s) = .ok b := by
  obtain ⟨t, ht, hsub⟩ := sub_scalar hs
  have hreal : ∀ {u : Scalar}, u ≠ .nan → (Expr.scalar u).facts =
      { real := some true, nonneg := !u.isNegative, nonpos := !u.isPositive, nonzero := !u.isZero } := by
    intro u hu
    cases u with
    | nan => exact absurd rfl hu
    | _ => rfl
  have hdecided : ∃ b, Expr.atLeast? Expr.one (.scalar s) = some b := by
    unfold Expr.atLeast?
    rw [hsub, hreal hs, hreal ht, show Expr.one.facts.real = some true from rfl]
    simp only [and_self, if_true, Facts.negative]
    -- a number that is below zero is neither above zero nor zero
    cases hneg : t.isNegative with
    | false => exact ⟨true, rfl⟩
    | true =>
      obtain ⟨hpos, hzero⟩ := not_positive_of_negative hneg
      exact ⟨false, by rw [hpos, hzero]; rfl⟩
  obtain ⟨b, hb⟩ := hdecided
  have hrelation : Expr.relation .le (.scalar s) Expr.one = .ok (.truth b) := by
    have hkind : ∀ {u : Scalar}, u ≠ .nan → (decide ((Expr.scalar u).facts.real = some false) ||
        decide (Expr.scalar u = Expr.nan) || (Expr.scalar u).isLogical) = false := by
      intro u hu
      rw [hreal hu]
      simp [Expr.nan, hu, Expr.isLogical]
    have hkinds : [Expr.scalar s, Expr.one].any
        (fun e => e.facts.real = some false || e = Expr.nan || e.isLogical) = false := by
      rw [show Expr.one = .scalar .one from rfl, List.any_cons, List.any_cons, hkind hs, hkind (by decide)]
      rfl
    unfold Expr.relation
    simp only [hkinds, Bool.false_eq_true, if_false, Expr.holds?, hb]
    rfl
  exact ⟨b, by unfold atMostOne; rw [hrelation]⟩

/-! ## Where finders fail -/

section Fails
variable {x : RuleError} {y : Expr}

theorem meanOfSum_returns (h : windows.Supplies y) : meanOfSum y ≠ .error x := by
  unfold meanOfSum
  split
  · rename_i q as rest
    have hsum := (Palette.supplies_product _).mp h _ (List.mem_cons_of_mem _ List.mem_cons_self)
    obtain ⟨z, s, more, rfl, -⟩ := ((Palette.supplies_apply _ _).mp hsum).1.1 (by decide)
    simp only [argument, List.getElem?_cons_succ, List.getElem?_cons_zero, bind, Except.bind]
    split <;> simp [pure, Except.pure]
  · simp

theorem unitFactor_returns : unitFactor y ≠ .error x := by
  unfold unitFactor
  split <;> simp

theorem trivialWindow_returns (h : windows.Supplies y) : trivialWindow y ≠ .error x := by
  unfold trivialWindow
  split
  · rename_i hw
    rcases nodeName_mem_windowed hw with ⟨n, rfl, hn⟩ | ⟨g, as, rfl, hg⟩
    · exact absurd hn ((Palette.supplies_symbol n).mp h)
    · obtain ⟨z, s, more, rfl, hs⟩ := ((Palette.supplies_apply _ _).mp h).1.1 hg
      obtain ⟨b, hb⟩ := atMostOne_scalar hs
      simp only [Expr.args, argument, List.getElem?_cons_succ, List.getElem?_cons_zero, bind, Except.bind, hb]
      split <;> simp [pure, Except.pure]
  · simp

/-- A node without a name of its own whose first argument is called as it is. -/
def repeatsUnnamed (y : Expr) : Bool := y.name?.isNone && y.args.head?.any (fun a => y.nodeName = a.nodeName)

theorem repeated_eq_error : repeated y = .error x ↔ x = .unnamed ∧ repeatsUnnamed y = true := by
  unfold repeated repeatsUnnamed
  split
  · rename_i hargs
    simp [hargs]
  · rename_i a more hargs
    rw [hargs]
    split
    · rename_i hname
      split
      · rename_i n hn
        simp [hn]
      · rename_i hn
        simp [hn, hname, eq_comm]
    · rename_i hname
      simp [hname]

/-- The negative of a delayed truth value, as the last pass knows it by its first two factors. -/
def negatesLogical : Expr → Bool
  | .product (a :: .apply (.named "ts_delay") (z :: _) :: _) => a.isValue (-1) && z.isLogical
  | _ => false

theorem undelayed_eq_error (h : windows.Supplies y) :
    undelayed y = .error x ↔ x = .undecided ∧ negatesLogical y = true := by
  unfold undelayed
  split
  · rename_i a as rest
    have hdelay := (Palette.supplies_product _).mp h _ (List.mem_cons_of_mem _ List.mem_cons_self)
    have hlength : 2 ≤ as.length := ((Palette.supplies_apply _ _).mp hdelay).1.2 rfl
    obtain ⟨z, n, more, rfl⟩ : ∃ z n more, as = z :: n :: more := by
      obtain _ | ⟨z, _ | ⟨n, more⟩⟩ := as
      · simp at hlength
      · simp at hlength
      · exact ⟨z, n, more, rfl⟩
    have hnegates : negatesLogical (.product (a :: .apply (.named "ts_delay") (z :: n :: more) :: rest)) =
        (a.isValue (-1) && z.isLogical) := rfl
    rw [hnegates]
    split
    · rename_i ha
      simp only [argument, List.getElem?_cons_succ, List.getElem?_cons_zero, bind, Except.bind, ha, Bool.true_and]
      split
      · rename_i hz
        simp [hz, eq_comm]
      · rename_i hz
        simp [hz, pure, Except.pure]
    · rename_i ha
      simp [ha]
  · rename_i hother
    have hnot : negatesLogical y = false := by
      unfold negatesLogical
      split
      · exact absurd rfl (hother _ _ _)
      · rfl
    simp [hnot]

/-- A sum with the negative of a delayed truth value. -/
def takesLogical : Expr → Bool
  | .sum ts => ts.any negatesLogical
  | _ => false

theorem undelayedTerms_ok {ts : List Expr} (h : ∀ t ∈ ts, ∀ x, undelayed t ≠ .error x) :
    ∃ us, undelayedTerms ts = .ok us := by
  induction ts with
  | nil => exact ⟨[], rfl⟩
  | cons t ts ih =>
    obtain ⟨ht, hts⟩ := List.forall_mem_cons.mp h
    obtain ⟨vs, hvs⟩ := ih hts
    cases hus : undelayed t with
    | error x => exact absurd hus (ht x)
    | ok us => exact ⟨us ++ vs, by rw [undelayedTerms, hus, hvs]; rfl⟩

theorem undelayedTerms_error {ts : List Expr} (h : ∃ t ∈ ts, undelayed t = .error x)
    (honly : ∀ t ∈ ts, ∀ z, undelayed t = .error z → z = x) : undelayedTerms ts = .error x := by
  induction ts with
  | nil =>
    obtain ⟨t, ht, -⟩ := h
    cases ht
  | cons t ts ih =>
    obtain ⟨ht, hts⟩ := List.forall_mem_cons.mp honly
    cases hus : undelayed t with
    | error z =>
      rw [undelayedTerms, hus, ht z hus]
      rfl
    | ok us =>
      obtain ⟨u, hu, hfails⟩ := h
      rcases List.mem_cons.mp hu with rfl | hu
      · rw [hfails] at hus
        cases hus
      · rw [undelayedTerms, hus, ih ⟨u, hu, hfails⟩ hts]
        rfl

theorem differenceOfDelay_eq_error {simplify : Expr → Expr} (h : windows.Supplies y) :
    differenceOfDelay simplify y = .error x ↔ x = .undecided ∧ takesLogical y = true := by
  unfold differenceOfDelay
  split
  · rename_i ts
    have hts := (Palette.supplies_sum ts).mp h
    rw [takesLogical, List.any_eq_true]
    by_cases hneg : ∃ t ∈ ts, negatesLogical t = true
    · obtain ⟨t, ht, hnt⟩ := hneg
      have herror : undelayedTerms ts = .error .undecided :=
        undelayedTerms_error ⟨t, ht, (undelayed_eq_error (hts t ht)).mpr ⟨rfl, hnt⟩⟩ fun u hu z hz =>
          ((undelayed_eq_error (hts u hu)).mp hz).1
      rw [herror]
      refine ⟨fun hx => ?_, fun hx => by rw [hx.1]; rfl⟩
      cases hx
      exact ⟨rfl, t, ht, hnt⟩
    · obtain ⟨us, hus⟩ := undelayedTerms_ok fun t ht z hz =>
        hneg ⟨t, ht, ((undelayed_eq_error (hts t ht)).mp hz).2⟩
      rw [hus]
      refine ⟨fun hx => ?_, fun hx => absurd hx.2 hneg⟩
      simp only [bind, Except.bind] at hx
      split at hx <;> cases hx
  · rename_i hother
    constructor
    · intro hx
      cases hx
    · rintro ⟨-, hx⟩
      unfold takesLogical at hx
      split at hx
      · exact absurd rfl (hother _)
      · cases hx

end Fails

/-! ## All passes -/

/-- Every listed expression is well-formed as to windows. -/
def WellWindowed (t : List (String × Value)) : Prop := ∀ v e, (v, Value.expr e) ∈ t → windows.Supplies e

/-- A finder puts in what is well-formed. -/
def Safe (f : Finder) : Prop :=
  ∀ x r, f x = .ok (some r) → x.isAtom = false ∧ (windows.Supplies x → windows.Supplies r)

theorem WellWindowed.passes {t t' : List (String × Value)} (ht : WellWindowed t) {fs : List Finder}
    (hfs : ∀ f ∈ fs, Safe f) (h : (passesTable Expr.build fs t).1 = .ok t') : WellWindowed t' := by
  induction fs generalizing t with
  | nil =>
    cases h
    exact ht
  | cons f fs ih =>
    obtain ⟨hf, hfs⟩ := List.forall_mem_cons.mp hfs
    obtain ⟨t₁, h₁, h⟩ := bind_eq_ok.mp (passesTable_cons.symm.trans h)
    refine ih (fun v e' hmem => ?_) hfs h
    obtain ⟨e, rs, hold, hpass⟩ := (passed_of_ok h₁).origin v e' hmem
    exact supplies_pass hf hpass (ht v e hold)

/-- The first four passes. -/
def firstFour : List Finder := [meanOfSum, repeated, unitFactor, trivialWindow]

theorem safe_firstFour : ∀ f ∈ firstFour, Safe f := by
  simp only [firstFour, List.forall_mem_cons, List.not_mem_nil, false_implies, implies_true, and_true]
  exact ⟨meanOfSum_keeps, Collapses.keeps fun x r hr => (repeated_eq_some hr).1, unitFactor_keeps,
    collapses_trivialWindow.keeps⟩

/-- What stops the passes over a table, and how they then fail: a node without a name of its own, of the
kind of its first argument, once the first pass is made; a sum with the negative of a delayed truth
value, once the first four are made; a refused node, in any pass. -/
inductive Stopped (simplify : Expr → Expr) (t : List (String × Value)) : RuleError → Prop
  | unnamed {t₁ v e y} (first : (passesTable Expr.build [meanOfSum] t).1 = .ok t₁) (listed : (v, Value.expr e) ∈ t₁)
      (node : y ∈ e.nodes) (repeats : repeatsUnnamed y = true) : Stopped simplify t .unnamed
  | logical {t₄ v e y} (four : (passesTable Expr.build firstFour t).1 = .ok t₄) (listed : (v, Value.expr e) ∈ t₄)
      (node : y ∈ e.nodes) (takes : takesLogical y = true) : Stopped simplify t .undecided
  | refused {before f after tₖ v e rs x} (passes : all simplify = before ++ f :: after)
      (made : (passesTable Expr.build before t).1 = .ok tₖ) (listed : (v, Value.expr e) ∈ tₖ)
      (found : find f e.nodes = .ok rs) (refusal : (Exchange.applyAll Expr.build rs e).2 = .error x) :
      Stopped simplify t (.build x)

section All
variable {simplify : Expr → Expr} {t : List (String × Value)}

/-- The passes before the last one that is looked at are among the first four. -/
theorem safe_before {before after : List Finder} {f : Finder} (hall : all simplify = before ++ f :: after) :
    ∀ g ∈ before, Safe g := by
  have hparts : before ++ f :: after = firstFour ++ [differenceOfDelay simplify] := hall.symm
  rcases List.append_eq_append_iff.mp hparts with ⟨more, hfour, -⟩ | ⟨more, hbefore, hlast⟩
  · exact fun g hg => safe_firstFour g (hfour ▸ List.mem_append_left more hg)
  · obtain rfl : more = [] := by
      cases more with
      | nil => rfl
      | cons g more => simp at hlast
    rw [hbefore, List.append_nil]
    exact safe_firstFour

/-- A finder of the passes fails only as is said there. -/
theorem stopped_of_finder (ht : WellWindowed t) {before after : List Finder} {f : Finder}
    (hall : all simplify = before ++ f :: after) {tₖ : List (String × Value)}
    (hbefore : (passesTable Expr.build before t).1 = .ok tₖ) {v : String} {e : Expr} (hmem : (v, Value.expr e) ∈ tₖ)
    {y : Expr} (hy : y ∈ e.nodes) {x : RuleError} (hx : f y = .error x) : Stopped simplify t x := by
  have hwindows : windows.Supplies y :=
    supplies_of_mem_nodes (ht.passes (safe_before hall) hbefore v e hmem) hy
  -- which pass it is follows from how many are before it
  obtain _ | ⟨a, _ | ⟨b, _ | ⟨c, _ | ⟨d, _ | ⟨g, more⟩⟩⟩⟩⟩ := before <;>
    simp only [all, List.nil_append, List.cons_append, List.cons.injEq] at hall
  · obtain ⟨rfl, -⟩ := hall
    exact absurd hx (meanOfSum_returns hwindows)
  · obtain ⟨rfl, rfl, -⟩ := hall
    obtain ⟨rfl, hrepeats⟩ := repeated_eq_error.mp hx
    exact .unnamed hbefore hmem hy hrepeats
  · obtain ⟨-, -, rfl, -⟩ := hall
    exact absurd hx unitFactor_returns
  · obtain ⟨-, -, -, rfl, -⟩ := hall
    exact absurd hx (trivialWindow_returns hwindows)
  · obtain ⟨rfl, rfl, rfl, rfl, rfl, -⟩ := hall
    obtain ⟨rfl, htakes⟩ := (differenceOfDelay_eq_error hwindows).mp hx
    exact .logical hbefore hmem hy htakes
  · simp at hall

/-- Where a pass is found to return, its finder fails nowhere. -/
theorem finder_returns {f : Finder} {e e' : Expr} {rs : List Exchange} (h : pass Expr.build f e = (rs, .ok e'))
    {y : Expr} (hy : y ∈ e.nodes) (x : RuleError) : f y ≠ .error x := by
  obtain ⟨hfind, -⟩ := pass_ok h
  intro hx
  rcases find_settles hfind hy with hnone | ⟨r, hr, rfl⟩
  · cases hnone.symm.trans hx
  · cases ((mem_find hfind r).mp hr).2.symm.trans hx

theorem not_stopped (ht : WellWindowed t) {t' : List (String × Value)}
    (h : (passesTable Expr.build (all simplify) t).1 = .ok t') (x : RuleError) : ¬ Stopped simplify t x := by
  intro hstopped
  cases hstopped with
  | unnamed first listed node repeats =>
    obtain ⟨tₙ, hpassed⟩ := passed_of_passes [meanOfSum] h first
    obtain ⟨rs, e', hpass⟩ := hpassed.made _ _ listed
    exact finder_returns hpass node _ (repeated_eq_error.mpr ⟨rfl, repeats⟩)
  | logical four listed node takes =>
    obtain ⟨tₙ, hpassed⟩ := passed_of_passes firstFour h four
    obtain ⟨rs, e', hpass⟩ := hpassed.made _ _ listed
    have hwindows := supplies_of_mem_nodes (ht.passes safe_firstFour four _ _ listed) node
    exact finder_returns hpass node _ ((differenceOfDelay_eq_error hwindows).mpr ⟨rfl, takes⟩)
  | refused passes made listed found refusal =>
    obtain ⟨tₙ, hpassed⟩ := passed_of_passes _ (passes ▸ h) made
    obtain ⟨rs, e', hpass⟩ := hpassed.made _ _ listed
    obtain ⟨hfind, hrun⟩ := pass_ok hpass
    cases hfind.symm.trans found
    rw [hrun] at refusal
    cases refusal

/-- The refused node is given a truth value among its arguments, or relates its arguments. -/
theorem Stopped.refused_node {x : BuildError} (h : Stopped simplify t (.build x)) :
    ∃ d us, Expr.build d us = .error x ∧ ((∃ u ∈ us, u.isLogical = true) ∨ d.relates = true) := by
  cases h with
  | refused _ _ _ _ refusal =>
    obtain ⟨d, us, hd⟩ := refused_of_applyAll refusal
    exact ⟨d, us, hd, Expr.logical_of_build hd⟩

end All

/-! ### Some tables -/

/-- A correlation with nested windows of one row, and a number. -/
def nestedWindows : List (String × Value) :=
  [("a", .expr (correlated (.symbol "CLOSE") sumOfMean)), ("n", .int 1)]

theorem wellWindowed_nestedWindows : WellWindowed nestedWindows := by
  intro v e hmem
  obtain ⟨-, rfl⟩ : v = "a" ∧ e = correlated (.symbol "CLOSE") sumOfMean := by simpa [nestedWindows] using hmem
  simp [correlated, sumOfMean, window, windows, windowed]

section Single
variable {f : Finder} {fs : List Finder} {v : String} {e e' : Expr} {rs : List Exchange} {x : RuleError}

theorem passesTable_single_ok (h : pass Expr.build f e = (rs, .ok e')) :
    (passesTable Expr.build (f :: fs) [(v, .expr e)]).1 = (passesTable Expr.build fs [(v, .expr e')]).1 := by
  rw [passesTable_cons, passTable, passValue, h]
  rfl

theorem passesTable_single_error (h : pass Expr.build f e = (rs, .error x)) :
    (passesTable Expr.build (f :: fs) [(v, .expr e)]).1 = .error x := by
  rw [passesTable_cons, passTable, passValue, h]
  rfl

end Single

/-- The logarithm of a logarithm. -/
def logOfLog : Expr := .apply .log [.apply .log [.symbol "OPEN"]]

def isRising : Expr := .apply (.rel .gt) [.symbol "OPEN", .symbol "CLOSE"]

/-- A column less a delayed comparison. -/
def lessDelayedTruth : Expr := .sum [.symbol "OPEN", less (window "ts_delay" isRising 5)]

/-- A column and a mean of a comparison over one row. -/
def plusMeanOfTruth : Expr := .sum [.symbol "OPEN", window "ts_mean" isRising 1]

end Rules

end FactorPlan
