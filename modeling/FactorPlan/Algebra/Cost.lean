import FactorPlan.Algebra.Fraction

/-!
The cost of an expression: the number of operations that are written to state it.
A minus sign, a division and each application of a function count one; a sum or
product of n parts counts n - 1.

Correspondence:
  `count_ops`             ↔ `cost`
  `shorter` of `simplify` ↔ `shorter`
-/

namespace FactorPlan

namespace Expr

/-- Whether an expression leads with a negative number. -/
def negativeCoeff : Expr → Bool
  | .scalar s => s.isNegative
  | .product (.scalar s :: _) => s.isNegative
  | _ => false

/-- The operations that a node itself stands for, apart from signs and fractions. -/
def nodeCost : Expr → Nat
  | .product fs => fs.length - 1
  | .power _ _ => 1
  | .apply (.rel _) _ => 0
  | .apply .max as => as.length - 1
  | .apply .min as => as.length - 1
  | .apply .and as => as.length - 1
  | .apply .or as => as.length - 1
  | .apply _ _ => 1
  | _ => 0

mutual
/-- The number of operations of an expression, within `fuel` levels. -/
def costF : Nat → Expr → Nat
  | 0, _ => 0
  | fuel + 1, e =>
    match e with
    | .scalar (.exact q) =>
      if q = 1 then 0 else (if q < 0 then 1 else 0) + (if q.den = 1 then 0 else 1)
    | .sum ts =>
      (ts.length - 1) + (if ts.all negativeCoeff then 1 else 0) +
        costListF fuel (ts.map (fun t => if t.negativeCoeff then negateTerm t else t))
    | .product fs =>
      let sign := if e.negativeCoeff then 1 else 0
      let a := if e.negativeCoeff then
          (match fs with
           | f :: rest => if f = negOne then rawProduct rest else negateTerm e
           | [] => e)
        else e
      let (n, d) := a.fraction
      if n.isInteger then sign + 1 + (if scalarIs Scalar.isNegative n then 1 else 0) + costF fuel d
      else if d ≠ one then
        sign + 1 + (if d.isInteger then 0 else costF fuel d) + costF fuel n
      else sign + tailF fuel a
    | e => tailF fuel e

/-- The number of operations of a node that is no fraction. -/
def tailF : Nat → Expr → Nat
  | 0, _ => 0
  | fuel + 1, e =>
    match e with
    | .power b x => if x = negOne then 1 + costF fuel b else 1 + costF fuel b + costF fuel x
    | e => nodeCost e + costListF fuel e.args

def costListF : Nat → List Expr → Nat
  | 0, _ => 0
  | _, [] => 0
  | fuel + 1, a :: as => costF fuel a + costListF fuel as
end

/-- The number of operations of an expression. A relation or connective at the
root counts one more than its arguments. -/
def cost (e : Expr) : Nat :=
  let f (e : Expr) : Nat := costF (8 + 8 * e.size) e
  let rec logical : Nat → Expr → Nat
    | 0, _ => 0
    | fuel + 1, e =>
      match e with
      | .truth _ => 0
      | e => if e.isLogical then 1 + (e.args.map (logical fuel)).sum else f e
  logical (e.size + 1) e

/-- The expression of least cost; of several the first. -/
def shorter (e : Expr) (es : List Expr) : Expr :=
  (es.foldl (fun (best : Expr × Nat) x =>
    let c := x.cost
    if c < best.2 then (x, c) else best) (e, e.cost)).1

end Expr

end FactorPlan
