import FactorPlan.Algebra.Fraction

/-!
Products of absolute values as the absolute value of a product.

Correspondence:
  `collect_abs` ↔ `collectAbs`
-/

namespace FactorPlan

namespace Expr

/-- What a factor contributes to a joint absolute value: the argument of an
absolute value, or that of its base for a power. -/
def absFactor? : Expr → Option Expr
  | .apply .abs [a] => some a
  | .power (.apply .abs [a]) x => if x.facts.real = some true then some (pow a x) else none
  | _ => none

/-- Joins the absolute values among the factors of an expression. A single one is
left alone unless it stands in the denominator. -/
def joinAbs (e : Expr) : Expr :=
  let (c, fixed) := e.commutingPart
  let inside := c.filterMap absFactor?
  let outside := c.filter (fun f => (absFactor? f).isNone)
  let isReciprocal (a : Expr) : Bool := match a with
    | .power _ x => x.facts.negative
    | _ => false
  if inside.length < 2 && !inside.any isReciprocal then e
  else
    let arg := productOf inside
    let a := absOf arg
    if a.has (fun x => match x with | .apply .abs _ => true | _ => false) then
      let a := match a with
        | .apply .abs _ => a
        | _ => .apply .abs [arg]
      rawProduct (sortCanonical (a :: outside) ++ fixed)
    else productOf (a :: outside ++ fixed)

/-- Joins the absolute values in all products, then in all powers. -/
def collectAbs (e : Expr) : Expr :=
  let products := mapBottomUp rebuild (fun x => if x.isProduct then joinAbs x else x) e
  mapBottomUp rebuild (fun x => if x.isPower then joinAbs x else x) products

end Expr

end FactorPlan
