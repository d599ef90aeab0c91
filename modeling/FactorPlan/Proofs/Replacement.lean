import FactorPlan.Expr.Query
import FactorPlan.Proofs.Outcomes
import Mathlib.Data.List.Forall2

/-!
Replacing nodes of an expression. `Relates.replaceWith` is the one induction over the
replacement: a relation between new and old expressions that holds where the rule
gives a replacement, and that passes from arguments to nodes, holds between the result
and the expression. From it follows where the symbols come from when an expression is
put in place of a symbol (`symbols_putFor`).
-/

namespace FactorPlan

/-- Building that leaves a node as it stands over its arguments where it is refused. -/
def Build.complete (build : Build) : Rebuild := fun e us =>
  match build e us with
  | .ok x => x
  | .error _ => e.withArgs us

/-- Building that evaluates nothing. -/
def Build.unevaluated : Build := Rebuild.always Expr.withArgs

theorem Build.complete_of_ok {build : Build} {e x : Expr} {us : List Expr}
    (h : build e us = .ok x) : build.complete e us = x := by
  simp only [Build.complete, h]

@[simp] theorem Rebuild.complete_always (rebuild : Rebuild) :
    rebuild.always.complete = rebuild := rfl

namespace Expr

mutual
/-- Induction over the arguments of nodes. -/
theorem args_induction {P : Expr → Prop} (h : ∀ e, (∀ a ∈ e.args, P a) → P e) : (e : Expr) → P e
  | .symbol _ => h _ (by simp [args])
  | .scalar _ => h _ (by simp [args])
  | .constant _ => h _ (by simp [args])
  | .truth _ => h _ (by simp [args])
  | .sum ts => h _ (args_inductionList h ts)
  | .product fs => h _ (args_inductionList h fs)
  | .power b x => h _ (List.forall_mem_cons.mpr ⟨args_induction h b,
      List.forall_mem_singleton.mpr (args_induction h x)⟩)
  | .apply _ as => h _ (args_inductionList h as)

theorem args_inductionList {P : Expr → Prop} (h : ∀ e, (∀ a ∈ e.args, P a) → P e) :
    (as : List Expr) → ∀ a ∈ as, P a
  | [] => by simp
  | a :: as => List.forall_mem_cons.mpr ⟨args_induction h a, args_inductionList h as⟩
end

variable {rebuild : Rebuild} {rule : Expr → Option Expr}

section

variable {m : Type → Type} [Monad m] {build : Expr → List Expr → m Expr}

theorem replaceIn_leaf {e : Expr} (he : e.isAtom = true) :
    replaceIn build rule e = pure ((rule e).getD e, (rule e).isSome) := by
  cases e <;> simp only [isAtom, Bool.false_eq_true] at he <;>
    simp only [replaceIn] <;> cases rule _ <;> rfl

theorem replaceIn_of_rule {e r : Expr} (h : rule e = some r) :
    replaceIn build rule e = pure (r, true) := by
  cases e <;> simp only [replaceIn, h]

/-- A node without a replacement of its own is built again where an argument changed. -/
theorem replaceIn_node [LawfulMonad m] {e : Expr} (he : e.isAtom = false) (hr : rule e = none) :
    replaceIn build rule e = (do
      let p ← replaceInList build rule e.args
      if p.2 then return (← build e p.1, true) else return (e, false)) := by
  cases e <;> simp only [isAtom, Bool.true_eq_false] at he <;>
    simp only [replaceIn, hr, args, replaceInList, bind_assoc, pure_bind, Bool.or_false]

end

theorem replaceFlag_leaf {e : Expr} (he : e.isAtom = true) :
    replaceFlag rebuild rule e = ((rule e).getD e, (rule e).isSome) :=
  replaceIn_leaf (m := Id) he

theorem replaceFlag_of_rule {e r : Expr} (h : rule e = some r) :
    replaceFlag rebuild rule e = (r, true) :=
  replaceIn_of_rule (m := Id) h

theorem replaceFlag_node {e : Expr} (he : e.isAtom = false) (hr : rule e = none) :
    replaceFlag rebuild rule e =
      if (replaceFlagList rebuild rule e.args).2 then
        (rebuild e (replaceFlagList rebuild rule e.args).1, true)
      else (e, false) :=
  replaceIn_node (m := Id) he hr

@[simp] theorem replaceFlagList_nil : replaceFlagList rebuild rule [] = ([], false) := by
  rw [replaceFlagList, replaceInList]
  rfl

@[simp] theorem replaceFlagList_cons (a : Expr) (as : List Expr) :
    replaceFlagList rebuild rule (a :: as) =
      ((replaceFlag rebuild rule a).1 :: (replaceFlagList rebuild rule as).1,
        (replaceFlag rebuild rule a).2 || (replaceFlagList rebuild rule as).2) := by
  rw [replaceFlagList, replaceInList]
  rfl

/-- Where nothing is replaced, the expression is what it was. -/
theorem replaceFlag_of_false {e : Expr} (h : (replaceFlag rebuild rule e).2 = false) :
    (replaceFlag rebuild rule e).1 = e := by
  cases hr : rule e with
  | some r => simp [replaceFlag_of_rule hr] at h
  | none =>
    cases he : e.isAtom with
    | true => simp [replaceFlag_leaf he, hr]
    | false =>
      rw [replaceFlag_node he hr] at h ⊢
      split at h
      · cases h
      · rw [if_neg ‹_›]

theorem replaceFlagList_of_false {as : List Expr}
    (h : (replaceFlagList rebuild rule as).2 = false) :
    (replaceFlagList rebuild rule as).1 = as := by
  induction as with
  | nil => simp
  | cons a as ih =>
    simp only [replaceFlagList_cons, Bool.or_eq_false_iff] at h ⊢
    rw [replaceFlag_of_false h.1, ih h.2]

/-- A relation between new and old expressions that holds for the rule and for leaves, and for
nodes whose arguments are so related, built again or not. -/
structure Relates (rebuild : Rebuild) (rule : Expr → Option Expr) (R : Expr → Expr → Prop) :
    Prop where
  replaced : ∀ e r, rule e = some r → R r e
  leaf : ∀ e, rule e = none → e.isAtom = true → R e e
  same : ∀ e, e.isAtom = false → List.Forall₂ R e.args e.args → R e e
  rebuilt : ∀ e us, e.isAtom = false → List.Forall₂ R us e.args → R (rebuild e us) e

namespace Relates

variable {R : Expr → Expr → Prop}

theorem at_leaf (h : Relates rebuild rule R) {e : Expr} (he : e.isAtom = true) :
    R (replaceFlag rebuild rule e).1 e := by
  rw [replaceFlag_leaf he]
  cases hr : rule e with
  | none => exact h.leaf e hr he
  | some r => exact h.replaced e r hr

theorem at_node (h : Relates rebuild rule R) {e : Expr} (he : e.isAtom = false)
    (hargs : List.Forall₂ R (replaceFlagList rebuild rule e.args).1 e.args) :
    R (replaceFlag rebuild rule e).1 e := by
  cases hr : rule e with
  | some r =>
    rw [replaceFlag_of_rule hr]
    exact h.replaced e r hr
  | none =>
    rw [replaceFlag_node he hr]
    cases hch : (replaceFlagList rebuild rule e.args).2 with
    | true => exact h.rebuilt e _ he hargs
    | false =>
      rw [replaceFlagList_of_false hch] at hargs
      exact h.same e he hargs

theorem at_list {as : List Expr} (h : ∀ a ∈ as, R (replaceFlag rebuild rule a).1 a) :
    List.Forall₂ R (replaceFlagList rebuild rule as).1 as := by
  induction as with
  | nil =>
    rw [replaceFlagList_nil]
    exact .nil
  | cons a as ih =>
    obtain ⟨ha, has⟩ := List.forall_mem_cons.mp h
    rw [replaceFlagList_cons]
    exact .cons ha (ih has)

theorem replaceFlag (h : Relates rebuild rule R) (e : Expr) :
    R (Expr.replaceFlag rebuild rule e).1 e := by
  induction e using args_induction with
  | h e ih =>
    cases he : e.isAtom with
    | true => exact h.at_leaf he
    | false => exact h.at_node he (at_list ih)

theorem replaceWith (h : Relates rebuild rule R) (e : Expr) :
    R (Expr.replaceWith rebuild rule e) e := h.replaceFlag e

end Relates

/-! ## Building that is refused

A replacement in which no node is refused is that of the completed building, so what
holds of replacement where every node can be built carries over to it. -/

section

variable {build : Build}

theorem replaceFlagList_complete {as : List Expr}
    (h : ∀ a ∈ as, ∀ p, replaceIn build rule a = .ok p → replaceFlag build.complete rule a = p)
    {q : List Expr × Bool} (hq : replaceInList build rule as = .ok q) :
    replaceFlagList build.complete rule as = q := by
  induction as generalizing q with
  | nil =>
    rw [replaceInList] at hq
    rw [replaceFlagList_nil]
    exact Except.ok.inj hq
  | cons a as ih =>
    obtain ⟨ha, has⟩ := List.forall_mem_cons.mp h
    rw [replaceInList] at hq
    obtain ⟨p, hp, hq⟩ := bind_eq_ok.mp hq
    obtain ⟨r, hr, hq⟩ := bind_eq_ok.mp hq
    rw [replaceFlagList_cons, ha p hp, ih has hr]
    exact Except.ok.inj hq

/-- Where no node is refused, replacement is that of the completed building. -/
theorem replaceFlag_complete (e : Expr) :
    ∀ p, replaceIn build rule e = .ok p → replaceFlag build.complete rule e = p := by
  induction e using args_induction with
  | h e ih =>
    intro p h
    cases hr : rule e with
    | some r =>
      rw [replaceIn_of_rule hr] at h
      rw [replaceFlag_of_rule hr]
      exact Except.ok.inj h
    | none =>
      cases he : e.isAtom with
      | true =>
        rw [replaceIn_leaf he] at h
        rw [replaceFlag_leaf he]
        exact Except.ok.inj h
      | false =>
        rw [replaceIn_node he hr] at h
        obtain ⟨q, hq, h⟩ := bind_eq_ok.mp h
        rw [replaceFlag_node he hr, replaceFlagList_complete ih hq]
        split at h
        · obtain ⟨x, hx, h⟩ := bind_eq_ok.mp h
          rw [if_pos ‹_›, Build.complete_of_ok hx]
          exact Except.ok.inj h
        · rw [if_neg ‹_›]
          exact Except.ok.inj h

theorem refused_of_replaceInList {as : List Expr} {x : BuildError}
    (h : ∀ a ∈ as, replaceIn build rule a = .error x → ∃ d us, build d us = .error x)
    (hx : replaceInList build rule as = .error x) : ∃ d us, build d us = .error x := by
  induction as with
  | nil =>
    rw [replaceInList] at hx
    cases hx
  | cons a as ih =>
    obtain ⟨ha, has⟩ := List.forall_mem_cons.mp h
    rw [replaceInList] at hx
    rcases bind_eq_error.mp hx with hx | ⟨_, _, hx⟩
    · exact ha hx
    rcases bind_eq_error.mp hx with hx | ⟨_, _, hx⟩
    · exact ih has hx
    · cases hx

/-- A replacement fails only where a node is refused. -/
theorem refused_of_replaceIn {x : BuildError} (e : Expr) :
    replaceIn build rule e = .error x → ∃ d us, build d us = .error x := by
  induction e using args_induction with
  | h e ih =>
    intro h
    cases hr : rule e with
    | some r =>
      rw [replaceIn_of_rule hr] at h
      cases h
    | none =>
      cases he : e.isAtom with
      | true =>
        rw [replaceIn_leaf he] at h
        cases h
      | false =>
        rw [replaceIn_node he hr] at h
        rcases bind_eq_error.mp h with h | ⟨q, _, h⟩
        · exact refused_of_replaceInList ih h
        split at h
        · rcases bind_eq_error.mp h with h | ⟨_, _, h⟩
          · exact ⟨e, q.1, h⟩
          · cases h
        · cases h

theorem tryReplace_complete {e y : Expr} (h : tryReplace build rule e = .ok y) :
    y = replaceWith build.complete rule e := by
  obtain ⟨p, hp, h⟩ := bind_eq_ok.mp h
  rw [replaceWith, replaceFlag_complete e p hp]
  exact (Except.ok.inj h).symm

theorem refused_of_tryReplace {e : Expr} {x : BuildError} (h : tryReplace build rule e = .error x) :
    ∃ d us, build d us = .error x := by
  rcases bind_eq_error.mp h with h | ⟨_, _, h⟩
  · exact refused_of_replaceIn e h
  · cases h

theorem tryReplace_always (e : Expr) :
    tryReplace rebuild.always rule e = .ok (replaceWith rebuild rule e) := by
  cases h : tryReplace rebuild.always rule e with
  | ok y => rw [tryReplace_complete h, Rebuild.complete_always]
  | error x =>
    obtain ⟨d, us, hd⟩ := refused_of_tryReplace h
    cases hd

end

/-! ## An expression for a symbol -/

/-- The expression `d` with `e` in place of a symbol. -/
def putFor (rebuild : Rebuild) (v : String) (e d : Expr) : Expr :=
  replaceWith rebuild (fun y => if y = .symbol v then some e else none) d

/-- Building a node again brings in no symbols. -/
def BringsNone (build : Build) : Prop :=
  ∀ e us d, e.isAtom = false → us.length = e.args.length → build e us = .ok d →
    ∀ x ∈ d.symbols, x ∈ symbolsList us

theorem symbols_of_node {e : Expr} (he : e.isAtom = false) : e.symbols = symbolsList e.args := by
  cases e <;> simp [isAtom] at he <;> simp [symbols, args, symbolsList]

theorem symbols_withArgs {e : Expr} {us : List Expr} (he : e.isAtom = false)
    (hlen : us.length = e.args.length) : (e.withArgs us).symbols = symbolsList us := by
  cases e with
  | power b p =>
    obtain ⟨c, q, rfl⟩ : ∃ c q, us = [c, q] := List.length_eq_two.mp hlen
    simp [withArgs, symbols, symbolsList]
  | sum _ => simp [withArgs, symbols]
  | product _ => simp [withArgs, symbols]
  | apply _ _ => simp [withArgs, symbols]
  | _ => cases he

theorem bringsNone_unevaluated : BringsNone .unevaluated := by
  intro e us d he hlen hd x hx
  cases hd
  rwa [symbols_withArgs he hlen] at hx

/-- The completed building brings in no symbols either. -/
theorem BringsNone.complete {build : Build} (h : BringsNone build) :
    BringsNone build.complete.always := by
  intro e us d he hlen hd x hx
  cases hd
  cases hb : build e us with
  | ok y =>
    rw [Build.complete_of_ok hb] at hx
    exact h e us y he hlen hb x hx
  | error y =>
    simp only [Build.complete, hb] at hx
    rwa [symbols_withArgs he hlen] at hx

/-- The symbols are those that were there before, but for the one replaced, and those of the
expression put in its place. -/
theorem symbols_putFor (hr : BringsNone rebuild.always) (v : String) (e d : Expr) :
    ∀ x ∈ (putFor rebuild v e d).symbols,
      (x ∈ d.symbols ∧ x ≠ v) ∨ (x ∈ e.symbols ∧ v ∈ d.symbols) := by
  let R (new old : Expr) : Prop := ∀ x ∈ new.symbols,
    (x ∈ old.symbols ∧ x ≠ v) ∨ (x ∈ e.symbols ∧ v ∈ old.symbols)
  -- what holds for the arguments holds for all their symbols together
  have hlist : ∀ us as : List Expr, List.Forall₂ R us as → ∀ x ∈ symbolsList us,
      (x ∈ symbolsList as ∧ x ≠ v) ∨ (x ∈ e.symbols ∧ v ∈ symbolsList as) := by
    intro us as h
    induction h with
    | nil => simp [symbolsList]
    | cons hab _ ih =>
      intro x hx
      simp only [symbolsList, List.mem_append] at hx ⊢
      rcases hx with hx | hx
      · rcases hab x hx with ⟨h1, h2⟩ | ⟨h1, h2⟩
        · exact Or.inl ⟨Or.inl h1, h2⟩
        · exact Or.inr ⟨h1, Or.inl h2⟩
      · rcases ih x hx with ⟨h1, h2⟩ | ⟨h1, h2⟩
        · exact Or.inl ⟨Or.inr h1, h2⟩
        · exact Or.inr ⟨h1, Or.inr h2⟩
  refine (Relates.replaceWith (R := R) ⟨?_, ?_, ?_, ?_⟩ d :)
  · intro y r hy x hx
    split at hy
    · rename_i hyv
      cases hy
      exact Or.inr ⟨hx, by simp [hyv, symbols]⟩
    · cases hy
  · intro y hy hleaf x hx
    refine Or.inl ⟨hx, ?_⟩
    rintro rfl
    cases y <;> simp [symbols, isAtom] at hx hleaf
    simp [hx] at hy
  · intro y hy hargs x hx
    rw [symbols_of_node hy] at hx ⊢
    exact hlist _ _ hargs x hx
  · intro y us hy hargs x hx
    rw [symbols_of_node hy]
    exact hlist us _ hargs x (hr y us _ hy hargs.length_eq rfl x hx)

end Expr

end FactorPlan
