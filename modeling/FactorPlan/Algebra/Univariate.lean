import FactorPlan.Algebra.Linear
import FactorPlan.Algebra.Polynomial

/-!
Relations between polynomials in a single symbol: the constant goes to the right,
and the coefficients are divided by their common divisor.

Correspondence:
  `Relational._eval_simplify`, a polynomial ↔ `solvePowers`
  `Poly.all_coeffs`                         ↔ `coefficients?`
-/

namespace FactorPlan

namespace Expr

/-- The exponent of `x` in a monomial that has no other generator. -/
def exponentOf? (x : String) (m : Monomial) : Option (Nat × Scalar) :=
  match m.1 with
  | [] => some (0, m.2)
  | [(.symbol y, n)] => if y = x then some (n, m.2) else none
  | _ => none

/-- The coefficients of a polynomial in one symbol, by exponent. -/
def coefficients? (x : String) (e : Expr) : Option (List (Nat × Scalar)) :=
  (monomials e.expand).mapM (exponentOf? x)

/-- The sum of the terms with given coefficients. -/
def ofCoefficients (x : String) (cs : List (Nat × Scalar)) : Expr :=
  sumOf (cs.map (fun c => productOf [.scalar c.2, pow (.symbol x) (ofInt c.1)]))

/-- A relation between polynomials in one symbol with the constant alone on the
right. With a binary coefficient all become binary and are not divided. -/
def solvePowers (r : Rel) (x : String) (cs : List (Nat × Scalar)) : Expr :=
  let build (p q : Expr) : Expr := rebuild (.apply (.rel r) []) [p, q]
  let constant := (cs.lookup 0).getD Scalar.zero
  let powers := cs.filter (fun c => c.1 ≠ 0)
  if cs.any (fun c => c.2.isBinary) then
    let binary (s : Scalar) : Scalar := .binary (Binary.ofRat (s.toRat?.getD 0))
    build (ofCoefficients x (powers.map (fun c => (c.1, binary c.2)))) (neg (.scalar (binary constant)))
  else
    let degree := cs.foldl (fun d c => max d c.1) 0
    let scale := numberGcd ((List.range (degree + 1)).reverse.map (fun k =>
      .scalar ((powers.lookup k).getD .zero)))
    build (ofCoefficients x (powers.map (fun c => (c.1, c.2.div scale))))
      (neg (div (.scalar constant) (.scalar scale)))

end Expr

end FactorPlan
