import FactorPlan.Proofs.Replacement
import FactorPlan.Proofs.Splitting

/-!
What an expression may be made of. A `Palette` says which symbols may occur, and which named
functions and absolute values over which arguments; `Supplies` says that an expression is made of
nothing else. A `Provision`, which lets all absolute values be, also says what may take the place of
an argument: a function that may stand over some arguments may stand over those that take their
places.

`Rebuilds` says of a way of building nodes that it brings in nothing new. Where it does not,
replacing nodes by others of the provision stays within it (`follows_replaceWith`,
`follows_mapBottomUp`).
-/

namespace FactorPlan

/-- What an expression may be made of: symbols of some names, and named functions and absolute values
over some arguments. -/
structure Palette where
  symbol : String → Prop
  function : String → List Expr → Prop
  absolute : List Expr → Prop

namespace Palette

variable (S : Palette)

/-- The root of the expression is provided; what is none of the three always is. -/
@[simp] def Admits : Expr → Prop
  | .symbol n => S.symbol n
  | .apply (.named f) as => S.function f as
  | .apply .abs as => S.absolute as
  | _ => True

/-- All nodes of the expression are provided. -/
def Supplies (e : Expr) : Prop := ∀ a ∈ e.nodes, S.Admits a

variable {S}

theorem supplies_iff {e : Expr} : S.Supplies e ↔ S.Admits e ∧ ∀ a ∈ e.args, S.Supplies a :=
  Expr.forall_mem_nodes

@[simp, grind =] theorem supplies_symbol (n : String) : S.Supplies (.symbol n) ↔ S.symbol n := by
  rw [supplies_iff]
  simp [Expr.args]

@[simp, grind .] theorem supplies_scalar (s : Scalar) : S.Supplies (.scalar s) := by
  rw [supplies_iff]
  simp [Expr.args]

@[simp, grind .] theorem supplies_constant (c : Constant) : S.Supplies (.constant c) := by
  rw [supplies_iff]
  simp [Expr.args]

@[simp, grind .] theorem supplies_truth (b : Bool) : S.Supplies (.truth b) := by
  rw [supplies_iff]
  simp [Expr.args]

@[simp, grind =] theorem supplies_sum (ts : List Expr) :
    S.Supplies (.sum ts) ↔ ∀ t ∈ ts, S.Supplies t := by
  simp [supplies_iff (e := .sum ts), Expr.args]

@[simp, grind =] theorem supplies_product (fs : List Expr) :
    S.Supplies (.product fs) ↔ ∀ f ∈ fs, S.Supplies f := by
  simp [supplies_iff (e := .product fs), Expr.args]

@[simp, grind =] theorem supplies_power (b x : Expr) :
    S.Supplies (.power b x) ↔ S.Supplies b ∧ S.Supplies x := by
  simp [supplies_iff (e := .power b x), Expr.args]

@[simp, grind =] theorem supplies_apply (f : Func) (as : List Expr) :
    S.Supplies (.apply f as) ↔ S.Admits (.apply f as) ∧ ∀ a ∈ as, S.Supplies a := by
  simp only [supplies_iff (e := .apply f as), Expr.args]

end Palette

/-- A palette that says what may be put in place of arguments. -/
structure Provision extends Palette where
  absolute_any : ∀ as, absolute as
  /-- An expression may take the place of another below a function. -/
  replaces : Expr → Expr → Prop
  replaces_refl : ∀ e, replaces e e
  replaces_trans : ∀ {a b c}, replaces a b → replaces b c → replaces a c
  /-- Anything may take the place of what is no leaf. -/
  replaces_node : ∀ {new old}, old.isAtom = false → replaces new old
  function_replaces : ∀ {f us as}, List.Forall₂ replaces us as → function f as → function f us

namespace Provision

open Palette

variable (S : Provision)

/-- Building a node again takes nothing that the node over its new arguments is not made of. -/
def Rebuilds (rebuild : Rebuild) : Prop :=
  ∀ e us, S.Supplies (e.withArgs us) → S.Supplies (rebuild e us)

/-- The new expression is made of what the old one is, and may take its place. -/
def Follows (new old : Expr) : Prop := (S.Supplies old → S.Supplies new) ∧ S.replaces new old

variable {S}

/-! ## Replacing within a provision -/

namespace Follows

theorem refl (e : Expr) : S.Follows e e := ⟨id, S.replaces_refl e⟩

theorem trans {a b c : Expr} (hab : S.Follows a b) (hbc : S.Follows b c) : S.Follows a c :=
  ⟨fun h => hab.1 (hbc.1 h), S.replaces_trans hab.2 hbc.2⟩

/-- What is no leaf may become anything made of the same. -/
theorem of_supplies {new old : Expr} (hold : old.isAtom = false)
    (h : S.Supplies old → S.Supplies new) : S.Follows new old :=
  ⟨h, S.replaces_node hold⟩

/-- The node over the new arguments. -/
theorem withArgs {e : Expr} {us : List Expr} (hnode : e.isAtom = false)
    (hus : List.Forall₂ S.Follows us e.args) (h : S.Supplies e) : S.Supplies (e.withArgs us) := by
  have hargs : ∀ u ∈ us, S.Supplies u := by
    have hold := (supplies_iff.mp h).2
    generalize e.args = as at hus hold
    induction hus with
    | nil => simp
    | cons hu _ ih =>
      obtain ⟨ha, has⟩ := List.forall_mem_cons.mp hold
      exact List.forall_mem_cons.mpr ⟨hu.1 ha, ih has⟩
  cases e with
  | sum ts => exact (supplies_sum us).mpr hargs
  | product fs => exact (supplies_product us).mpr hargs
  | power b x =>
    obtain ⟨c, y, rfl⟩ := List.length_eq_two.mp hus.length_eq
    simpa [Expr.withArgs] using hargs
  | apply g as =>
    refine (supplies_apply g us).mpr ⟨?_, hargs⟩
    have hg := ((supplies_apply g as).mp h).1
    -- a named function must be one that may stand over the new arguments
    cases g with
    | named f => exact S.function_replaces (hus.imp fun _ _ hu => hu.2) hg
    | abs => exact S.absolute_any us
    | _ => trivial
  | _ => cases hnode

section Rebuild
variable {rebuild : Rebuild} (hr : S.Rebuilds rebuild)
include hr

theorem rebuilt {e : Expr} {us : List Expr} (hnode : e.isAtom = false)
    (hus : List.Forall₂ S.Follows us e.args) : S.Follows (rebuild e us) e :=
  of_supplies hnode fun h => hr e us (withArgs hnode hus h)

/-- A node kept in one case, and built again in the other. -/
theorem kept_or_rebuilt {e : Expr} {us : List Expr} {p : Prop} [Decidable p]
    (hnode : e.isAtom = false) (hus : List.Forall₂ S.Follows us e.args) :
    S.Follows (if p then e else rebuild e us) e := by
  split
  · exact .refl e
  · exact rebuilt hr hnode hus

end Rebuild

end Follows

section Rebuild
variable {rebuild : Rebuild}

theorem follows_replaceWith (hr : S.Rebuilds rebuild) {rule : Expr → Option Expr}
    (hrule : ∀ e r, rule e = some r → S.Follows r e) (e : Expr) :
    S.Follows (Expr.replaceWith rebuild rule e) e :=
  (Expr.Relates.replaceWith (R := S.Follows) ⟨hrule, fun e _ _ => .refl e, fun e _ _ => .refl e,
    fun _ _ => Follows.rebuilt hr⟩ e :)

mutual
theorem follows_mapBottomUp (hr : S.Rebuilds rebuild) {f : Expr → Expr}
    (hf : ∀ e, S.Follows (f e) e) : (e : Expr) → S.Follows (Expr.mapBottomUp rebuild f e) e
  | .symbol _ => hf _
  | .scalar _ => hf _
  | .constant _ => hf _
  | .truth _ => hf _
  | .sum ts => (hf _).trans (.kept_or_rebuilt hr rfl (follows_mapBottomUpList hr hf ts))
  | .product fs => (hf _).trans (.kept_or_rebuilt hr rfl (follows_mapBottomUpList hr hf fs))
  | .power b x => (hf _).trans (.kept_or_rebuilt hr rfl
      (.cons (follows_mapBottomUp hr hf b) (.cons (follows_mapBottomUp hr hf x) .nil)))
  | .apply _ as => (hf _).trans (.kept_or_rebuilt hr rfl (follows_mapBottomUpList hr hf as))

theorem follows_mapBottomUpList (hr : S.Rebuilds rebuild) {f : Expr → Expr}
    (hf : ∀ e, S.Follows (f e) e) :
    (as : List Expr) → List.Forall₂ S.Follows (Expr.mapBottomUpList rebuild f as) as
  | [] => .nil
  | a :: as => .cons (follows_mapBottomUp hr hf a) (follows_mapBottomUpList hr hf as)
end

end Rebuild

end Provision

end FactorPlan
