import FactorPlan.Proofs.Building
import FactorPlan.Proofs.Homogeneous
import FactorPlan.Proofs.Values
import FactorPlan.Rules.Passes
import Mathlib.Data.Rat.Cast.Defs

/-!
Replacing nodes by expressions of the same value. A replacement goes through a tree from the top
and builds again the nodes whose arguments changed, so it keeps the value where what is put in
has the value of what it stands for and building keeps values (`eval_replaceIn`). The
replacements that a pass has found are made one after the other, each in the result of those
before (`eval_applyAll`). Building is not followed: that it keeps values is assumed, of the nodes
that are built in a run and of no others (`Interpretation.Keeps`, `Exchange.Keeps`).
-/

namespace FactorPlan

variable {D : Type*} {A : Interpretation D} {ρ : String → D} {build : Build}

theorem evalList_eq_map (as : List Expr) : Expr.evalList A ρ as = as.map (Expr.eval A ρ) := by
  induction as with
  | nil => rfl
  | cons a as ih => rw [Expr.evalList, ih, List.map_cons]

/-! ## One replacement -/

/-- The nodes of an expression that a replacement builds again have the values of the nodes over their
new arguments. -/
def Interpretation.Keeps (A : Interpretation D) (ρ : String → D) (build : Build)
    (rule : Expr → Option Expr) (e : Expr) : Prop :=
  ∀ y ∈ e.nodes, ∀ us d, Expr.replaceInList build rule y.args = .ok (us, true) → build y us = .ok d →
    d.eval A ρ = (y.withArgs us).eval A ρ

namespace Expr

variable {rule : Expr → Option Expr}

theorem evalList_replaceInList {as : List Expr}
    (h : ∀ a ∈ as, ∀ p, replaceIn build rule a = .ok p → p.1.eval A ρ = a.eval A ρ)
    {q : List Expr × Bool} (hq : replaceInList build rule as = .ok q) :
    evalList A ρ q.1 = evalList A ρ as := by
  induction as generalizing q with
  | nil =>
    rw [replaceInList] at hq
    cases hq
    rfl
  | cons a as ih =>
    obtain ⟨ha, has⟩ := List.forall_mem_cons.mp h
    rw [replaceInList] at hq
    obtain ⟨p, hp, hq⟩ := bind_eq_ok.mp hq
    obtain ⟨r, hr, hq⟩ := bind_eq_ok.mp hq
    cases hq
    rw [evalList, evalList, ha p hp, ih has hr]

/-- Nodes may be replaced by expressions of the same value. -/
theorem eval_replaceIn (hrule : ∀ x r, rule x = some r → r.eval A ρ = x.eval A ρ) {e : Expr}
    (hkeeps : A.Keeps ρ build rule e) :
    ∀ p, replaceIn build rule e = .ok p → p.1.eval A ρ = e.eval A ρ := by
  induction e using Expr.args_induction with
  | h e ih =>
    intro p h
    -- what is assumed of all nodes holds for the nodes of an argument
    have hargs : ∀ a ∈ e.args, ∀ q, replaceIn build rule a = .ok q → q.1.eval A ρ = a.eval A ρ :=
      fun a ha => ih a ha fun y hy => hkeeps y (mem_nodes_of_arg ha hy)
    cases hr : rule e with
    | some r =>
      rw [replaceIn_of_rule hr] at h
      cases h
      exact hrule e r hr
    | none =>
      cases he : e.isAtom with
      | true =>
        rw [replaceIn_leaf he, hr] at h
        cases h
        rfl
      | false =>
        rw [replaceIn_node he hr] at h
        obtain ⟨⟨us, changed⟩, hq, h⟩ := bind_eq_ok.mp h
        have hvalues := evalList_replaceInList hargs hq
        cases changed with
        | true =>
          obtain ⟨d, hd, h⟩ := bind_eq_ok.mp h
          cases h
          rw [hkeeps e e.mem_nodes_self us d hq hd]
          exact eval_withArgs he hvalues
        | false =>
          cases h
          rfl

theorem replaceInList_of_none {m : Type → Type} [Monad m] [LawfulMonad m]
    {build : Expr → List Expr → m Expr} {as : List Expr}
    (h : ∀ a ∈ as, replaceIn build rule a = pure (a, false)) :
    replaceInList build rule as = pure (as, false) := by
  induction as with
  | nil => rw [replaceInList]
  | cons a as ih =>
    obtain ⟨ha, has⟩ := List.forall_mem_cons.mp h
    simp only [replaceInList, ha, ih has, pure_bind, Bool.or_false]

/-- Where no node has a replacement, nothing is built. -/
theorem replaceIn_of_none {m : Type → Type} [Monad m] [LawfulMonad m]
    {build : Expr → List Expr → m Expr} {e : Expr} (h : ∀ x ∈ e.nodes, rule x = none) :
    replaceIn build rule e = pure (e, false) := by
  induction e using Expr.args_induction with
  | h e ih =>
    have hroot := h e e.mem_nodes_self
    cases he : e.isAtom with
    | true => rw [replaceIn_leaf he, hroot]; rfl
    | false =>
      rw [replaceIn_node he hroot,
        replaceInList_of_none fun a ha => ih a ha fun x hx => h x (mem_nodes_of_arg ha hx), pure_bind]
      rfl

/-- Whether an expression is a function with a name of its own of its arguments. -/
def isNamed : Expr → Bool
  | .apply (.named _) _ => true
  | _ => false

theorem isNamed_iff {e : Expr} : e.isNamed = true ↔ ∃ f as, e = .apply (.named f) as := by
  constructor
  · intro h
    unfold isNamed at h
    split at h
    · exact ⟨_, _, rfl⟩
    · cases h
  · rintro ⟨f, as, rfl⟩
    rfl

/-- A named function is built as it is. -/
theorem build_named (f : String) (as us : List Expr) :
    Expr.build (.apply (.named f) as) us = .ok (.apply (.named f) us) := by
  have hrefusal : refusal (.apply (.named f) as) us = none := by
    unfold refusal
    split <;> first | rfl | cases ‹Expr.apply (.named f) as = _›
  rw [Expr.build, hrefusal, Expr.rebuild, buildBudget, Nat.add_comm, rebuildF] <;> simp [withArgs]

end Expr

/-! ## A pass -/

namespace Exchange

/-- What a replacement puts in place of nodes. -/
def rule (r : Exchange) (x : Expr) : Option Expr := if x = r.node then some r.result else none

theorem rule_node (r : Exchange) : r.rule r.node = some r.result := if_pos rfl

theorem rule_eq_none {r : Exchange} {x : Expr} (h : x ≠ r.node) : r.rule x = none := if_neg h

theorem rule_eq_some {r : Exchange} {x s : Expr} (h : r.rule x = some s) : x = r.node ∧ s = r.result := by
  obtain ⟨hx, hs⟩ := Option.ite_none_right_eq_some.mp h
  exact ⟨hx, (Option.some.inj hs).symm⟩

/-- The replacements, made one after the other, build no node again with another value. -/
def Keeps (A : Interpretation D) (ρ : String → D) (build : Build) : List Exchange → Expr → Prop
  | [], _ => True
  | r :: rs, e => A.Keeps ρ build r.rule e ∧ ∀ d, r.apply build e = .ok d → Keeps A ρ build rs d

theorem eval_apply {r : Exchange} (hr : r.result.eval A ρ = r.node.eval A ρ) {e d : Expr}
    (hkeeps : A.Keeps ρ build r.rule e) (hd : r.apply build e = .ok d) : d.eval A ρ = e.eval A ρ := by
  obtain ⟨p, hp, h⟩ := bind_eq_ok.mp hd
  cases h
  refine Expr.eval_replaceIn (fun x s hx => ?_) hkeeps p hp
  obtain ⟨rfl, rfl⟩ := rule_eq_some hx
  exact hr

theorem applyAll_cons_ok {r : Exchange} {rs begun : List Exchange} {e e' : Expr}
    (h : applyAll build (r :: rs) e = (begun, .ok e')) :
    ∃ d rest, r.apply build e = .ok d ∧ applyAll build rs d = (rest, .ok e') ∧ begun = r :: rest := by
  rw [applyAll] at h
  split at h
  · rename_i d hd
    obtain ⟨hbegun, hresult⟩ := Prod.mk.inj h
    exact ⟨d, _, hd, Prod.ext rfl hresult, hbegun.symm⟩
  · cases h

theorem eval_applyAll {rs begun : List Exchange} (hrs : ∀ r ∈ rs, r.result.eval A ρ = r.node.eval A ρ)
    {e e' : Expr} (hkeeps : Keeps A ρ build rs e) (h : applyAll build rs e = (begun, .ok e')) :
    e'.eval A ρ = e.eval A ρ := by
  induction rs generalizing e begun with
  | nil =>
    cases h
    rfl
  | cons r rs ih =>
    obtain ⟨hfirst, hrest⟩ := hkeeps
    obtain ⟨hr, hrs⟩ := List.forall_mem_cons.mp hrs
    obtain ⟨d, rest, hd, h, -⟩ := applyAll_cons_ok h
    exact (ih hrs (hrest d hd) h).trans (eval_apply hr hfirst hd)

/-- A run that returns has made all replacements. -/
theorem begun_of_ok {rs begun : List Exchange} {e e' : Expr} (h : applyAll build rs e = (begun, .ok e')) :
    begun = rs := by
  induction rs generalizing e begun with
  | nil =>
    cases h
    rfl
  | cons r rs ih =>
    obtain ⟨d, rest, -, hrest, rfl⟩ := applyAll_cons_ok h
    rw [ih hrest]

/-- Where only named functions stand above the node, no value is changed by building again. -/
theorem keeps_of_named {r : Exchange} {e : Expr}
    (h : ∀ y ∈ e.nodes, (∃ a ∈ y.args, r.node ∈ a.nodes) → y.isNamed = true) :
    A.Keeps ρ Expr.build r.rule e := by
  intro y hy us d hus hd
  have hbelow : ∃ a ∈ y.args, r.node ∈ a.nodes := by
    by_contra hnone
    push Not at hnone
    have hsame : Expr.replaceInList Expr.build r.rule y.args = pure (y.args, false) :=
      Expr.replaceInList_of_none fun a ha =>
        Expr.replaceIn_of_none fun x hx => rule_eq_none fun heq => hnone a ha (heq ▸ hx)
    cases hsame.symm.trans hus
  obtain ⟨f, as, rfl⟩ := Expr.isNamed_iff.mp (h y hy hbelow)
  rw [Expr.build_named] at hd
  cases hd
  rfl

end Exchange

namespace Rules

/-- A pass finds the nodes that have a replacement. -/
theorem mem_find {f : Finder} {es : List Expr} {rs : List Exchange} (h : find f es = .ok rs) (r : Exchange) :
    r ∈ rs ↔ r.node ∈ es ∧ f r.node = .ok (some r.result) := by
  induction es generalizing rs with
  | nil =>
    cases h
    simp
  | cons e es ih =>
    obtain ⟨here, hhere, h⟩ := bind_eq_ok.mp h
    obtain ⟨rest, hrest, h⟩ := bind_eq_ok.mp h
    have hcons : r.node ∈ e :: es ∧ f r.node = .ok (some r.result) ↔
        (r.node = e ∧ here = some r.result) ∨ r ∈ rest := by
      rw [ih hrest, List.mem_cons, or_and_right]
      refine or_congr_left (and_congr_right fun heq => ?_)
      rw [heq, hhere, Except.ok.injEq]
    rw [hcons]
    cases here with
    | none =>
      cases h
      simp
    | some s =>
      cases h
      obtain ⟨node, result⟩ := r
      simp only [List.mem_cons, Exchange.mk.injEq, Option.some.injEq]
      exact or_congr_left (and_congr_right fun _ => eq_comm)

/-- A pass that returns has made all the replacements that it found. -/
theorem pass_ok {f : Finder} {e e' : Expr} {rs : List Exchange} (h : pass build f e = (rs, .ok e')) :
    find f e.nodes = .ok rs ∧ Exchange.applyAll build rs e = (rs, .ok e') := by
  unfold pass at h
  split at h
  · cases h
  · rename_i found hfind
    rcases hrun : Exchange.applyAll build found e with ⟨begun, result⟩
    rw [hrun] at h
    cases result with
    | error x => cases h
    | ok d =>
      cases h
      cases Exchange.begun_of_ok hrun
      exact ⟨hfind, hrun⟩

end Rules

/-! ## Interpretations over a field -/

section Field
variable {K : Type*} [Field K]

/-- Numbers, sums and products mean in a field what they are there. -/
structure Interpretation.OverField (A : Interpretation K) : Prop where
  exact : ∀ q : Rat, A.scalar (.exact q) = q
  binary : ∀ x : Binary, A.scalar (.binary x) = x.toRat
  sum : ∀ as, A.sum as = as.sum
  product : ∀ as, A.product as = as.prod

variable {A : Interpretation K} {ρ : String → K}

theorem eval_sum (hA : A.OverField) (ts : List Expr) :
    (Expr.sum ts).eval A ρ = (ts.map (Expr.eval A ρ)).sum := by
  rw [Expr.eval, hA.sum, evalList_eq_map]

theorem eval_product (hA : A.OverField) (fs : List Expr) :
    (Expr.product fs).eval A ρ = (fs.map (Expr.eval A ρ)).prod := by
  rw [Expr.eval, hA.product, evalList_eq_map]

theorem toRat?_of_sameValue {s : Scalar} {n : Int} (h : s.sameValue (.exact n) = true) :
    s.toRat? = some (n : Rat) := by
  have horder : s.order? (.exact n) = some .eq := by simpa [Scalar.sameValue] using h
  -- two numbers have the order of their values
  have heq : ∀ p : Rat, (if p < n then Ordering.lt else if p = n then .eq else .gt) = .eq → p = n := by
    intro p hp
    split at hp
    · cases hp
    · split at hp
      · assumption
      · cases hp
  cases s with
  | exact q => exact congrArg some (heq q (Option.some.inj horder))
  | binary x => exact congrArg some (heq x.toRat (Option.some.inj horder))
  | inf b => cases b <;> simp [Scalar.order?] at horder
  | nan => simp [Scalar.order?] at horder

/-- A number, of whatever kind, has its value. -/
theorem eval_of_isValue (hA : A.OverField) {e : Expr} {n : Int} (h : e.isValue n = true) :
    e.eval A ρ = n := by
  cases e with
  | scalar s =>
    have hvalue := toRat?_of_sameValue h
    cases s with
    | exact q =>
      rw [Expr.eval, hA.exact, Option.some.inj hvalue]
      exact Rat.cast_intCast n
    | binary x =>
      have hx : x.toRat = n := Option.some.inj hvalue
      rw [Expr.eval, hA.binary, hx]
      exact Rat.cast_intCast n
    | inf b => cases hvalue
    | nan => cases hvalue
  | _ => cases h

end Field

end FactorPlan
