import FactorPlan.Proofs.Provision

/-!
What an expression is made of. A `Stock` says which symbols and which named functions may
occur, a function together with its first argument where that is a symbol; `Supplies` says
that an expression is made of nothing else. A stock is a provision that looks at first arguments
only (`Stock.provision`), so what holds for provisions holds for it. Putting an expression in
place of a symbol stays within the stock (`supplies_putFor`).
-/

namespace FactorPlan

namespace Expr

/-- The name of a symbol. -/
def symbol? : Expr → Option String
  | .symbol n => some n
  | _ => none

theorem symbolsList_eq (as : List Expr) : symbolsList as = as.flatMap symbols := by
  induction as with
  | nil => rfl
  | cons a as ih => rw [symbolsList, ih, List.flatMap_cons]

end Expr

/-- What an expression may be made of: symbols of some names, and named functions, each with the
name of its first argument where that is a symbol. -/
structure Stock where
  symbol : String → Prop
  function : String → Option String → Prop
  /-- A function that may stand over a first argument that is no symbol may stand over any. -/
  open_first : ∀ f n, function f none → function f (some n)

namespace Stock

variable (S : Stock)

/-- The root of the expression is in the stock; what is neither a symbol nor a named function always
is. -/
@[simp] def Admits : Expr → Prop
  | .symbol n => S.symbol n
  | .apply (.named f) as => S.function f (as.head?.bind Expr.symbol?)
  | _ => True

/-- All nodes of the expression are in the stock. -/
def Supplies (e : Expr) : Prop := ∀ a ∈ e.nodes, S.Admits a

variable {S}

theorem supplies_iff {e : Expr} : S.Supplies e ↔ S.Admits e ∧ ∀ a ∈ e.args, S.Supplies a :=
  Expr.forall_mem_nodes

@[simp, grind =] theorem supplies_symbol (n : String) : S.Supplies (.symbol n) ↔ S.symbol n := by
  rw [supplies_iff]
  simp [Expr.args]

@[simp, grind .] theorem supplies_scalar (s : Scalar) : S.Supplies (.scalar s) := by
  rw [supplies_iff]
  simp [Expr.args]

@[simp, grind .] theorem supplies_constant (c : Constant) : S.Supplies (.constant c) := by
  rw [supplies_iff]
  simp [Expr.args]

@[simp, grind .] theorem supplies_truth (b : Bool) : S.Supplies (.truth b) := by
  rw [supplies_iff]
  simp [Expr.args]

@[simp, grind =] theorem supplies_sum (ts : List Expr) :
    S.Supplies (.sum ts) ↔ ∀ t ∈ ts, S.Supplies t := by
  simp [supplies_iff (e := .sum ts), Expr.args]

@[simp, grind =] theorem supplies_product (fs : List Expr) :
    S.Supplies (.product fs) ↔ ∀ f ∈ fs, S.Supplies f := by
  simp [supplies_iff (e := .product fs), Expr.args]

@[simp, grind =] theorem supplies_power (b x : Expr) :
    S.Supplies (.power b x) ↔ S.Supplies b ∧ S.Supplies x := by
  simp [supplies_iff (e := .power b x), Expr.args]

@[simp, grind =] theorem supplies_apply (f : Func) (as : List Expr) :
    S.Supplies (.apply f as) ↔ S.Admits (.apply f as) ∧ ∀ a ∈ as, S.Supplies a := by
  simp only [supplies_iff (e := .apply f as), Expr.args]

/-- The stock of some symbols and all functions. -/
def ofSymbols (p : String → Prop) : Stock := ⟨p, fun _ _ => True, fun _ _ => id⟩

theorem supplies_ofSymbols {p : String → Prop} {e : Expr} :
    (ofSymbols p).Supplies e ↔ ∀ x ∈ e.symbols, p x := by
  induction e using Expr.args_induction with
  | _ e ih =>
    rw [supplies_iff]
    cases he : e.isAtom with
    | true => cases e <;> simp_all [Expr.symbols, Expr.args, Expr.isAtom, ofSymbols]
    | false =>
      have hroot : (ofSymbols p).Admits e := by
        cases e with
        | apply f _ => cases f <;> trivial
        | symbol n => cases he
        | _ => trivial
      rw [Expr.symbols_of_node he, Expr.symbolsList_eq, and_iff_right hroot,
        List.forall_mem_flatMap]
      exact forall₂_congr ih

/-! ## Replacing within a stock -/

/-- The stock as a provision: a function looks at its first argument only. -/
def provision (S : Stock) : Provision where
  symbol := S.symbol
  function f as := S.function f (as.head?.bind Expr.symbol?)
  absolute _ := True
  absolute_any _ := trivial
  replaces new old := ∀ f, S.function f old.symbol? → S.function f new.symbol?
  replaces_refl _ _ := id
  replaces_trans hab hbc f hf := hab f (hbc f hf)
  replaces_node {new old} hold f hf := by
    have hsymbol : old.symbol? = none := by cases old <;> simp_all [Expr.isAtom, Expr.symbol?]
    rw [hsymbol] at hf
    cases new.symbol? with
    | none => exact hf
    | some n => exact S.open_first f n hf
  function_replaces hus hf := by
    cases hus with
    | nil => exact hf
    | cons hu _ => exact hu _ hf

theorem supplies_provision {e : Expr} : S.provision.Supplies e ↔ S.Supplies e := by
  refine forall₂_congr fun a _ => ?_
  cases a with
  | apply f as => cases f <;> exact Iff.rfl
  | _ => exact Iff.rfl

/-- An expression of the stock may be put in place of a symbol, unless a function may stand over the
symbol only. -/
theorem supplies_putFor {rebuild : Rebuild} (hr : S.provision.Rebuilds rebuild) {v : String} {e d : Expr}
    (he : S.Supplies e) (hopen : ∀ f, S.function f (some v) → S.function f none) (hd : S.Supplies d) :
    S.Supplies (Expr.putFor rebuild v e d) := by
  refine supplies_provision.mp ((Provision.follows_replaceWith hr (fun y r hy => ?_) d).1
    (supplies_provision.mpr hd))
  split at hy
  · rename_i hyv
    cases hy
    subst hyv
    refine ⟨fun _ => supplies_provision.mpr he, fun f hf => ?_⟩
    cases e.symbol? with
    | none => exact hopen f hf
    | some n => exact S.open_first f n (hopen f hf)
  · cases hy

end Stock

namespace Expr

/-- Building a node again brings in nothing that the node over its new arguments is not made of. -/
def BringsNothing (build : Build) : Prop :=
  ∀ (S : Stock) e us d, build e us = .ok d → S.Supplies (e.withArgs us) → S.Supplies d

namespace BringsNothing

theorem rebuilds {rebuild : Rebuild} (h : BringsNothing rebuild.always) (S : Stock) :
    S.provision.Rebuilds rebuild := fun e us hus =>
  Stock.supplies_provision.mpr (h S e us _ rfl (Stock.supplies_provision.mp hus))

/-- The completed building brings in nothing either. -/
theorem complete {build : Build} (h : BringsNothing build) : BringsNothing build.complete.always := by
  intro S e us d hd hus
  cases hd
  cases hb : build e us with
  | ok y =>
    rw [Build.complete_of_ok hb]
    exact h S e us y hb hus
  | error y =>
    simp only [Build.complete, hb]
    exact hus

theorem bringsNone {build : Build} (h : BringsNothing build) : BringsNone build := by
  intro e us d hnode hlen hd
  refine Stock.supplies_ofSymbols.mp (h (Stock.ofSymbols (· ∈ symbolsList us)) e us d hd ?_)
  exact Stock.supplies_ofSymbols.mpr fun x hx => symbols_withArgs hnode hlen ▸ hx

end BringsNothing

end Expr

end FactorPlan
