import FactorPlan.Algebra.Polynomial

/-!
Cancelling: a fraction whose numerator and denominator are expanded polynomials
without a common factor, the denominator having a positive leading coefficient.

Correspondence:
  `cancel` ↔ `cancel`
-/

namespace FactorPlan

namespace Expr

/-- Numerator and denominator without their common factor. With binary
coefficients the common factor has leading coefficient 1; otherwise it takes the
rational content with it. -/
def reduce (gens : List Expr) (inexact : Bool) (p q : Polynomial gens.length) : Expr × Expr :=
  let n := gens.length
  let h := Dense.gcd n p.whole q.whole
  let pw := (Dense.divide n p.whole h).getD p.whole
  let qw := (Dense.divide n q.whole h).getD q.whole
  let sign : Int := if Dense.leading n qw * (if inexact then Dense.leading n h else 1) < 0 then -1 else 1
  if inexact then
    let scale := Dense.ofInt n (sign * Dense.leading n h)
    let number (c : Rat) : Scalar := .binary (Binary.ofRat c)
    let write (w : Dense n) (denom : Nat) : Expr :=
      Polynomial.toExpr gens number { whole := Dense.mul n scale w, denom := denom }
    (write pw p.denom, write qw q.denom)
  else
    let g := Nat.gcd p.denom q.denom
    let write (w : Dense n) (c : Nat) : Expr :=
      Polynomial.toExpr gens .exact { whole := Dense.mul n (Dense.ofInt n (sign * c)) w, denom := 1 }
    (write pw (q.denom / g), write qw (p.denom / g))

/-- The expression as a fraction of expanded polynomials without common factors. -/
def cancel (e : Expr) : Expr :=
  let e := normalSign e
  if e.isScalar || e.isLogical then e
  else
    let e := factorTerms true e
    let (p, q) := e.numerDenom
    let ps := monomials p.expand
    let qs := monomials q.expand
    let gens := sortGenerators ((ps ++ qs).flatMap (fun m => m.1.map (·.1))).eraseDups
    if gens.isEmpty then e.expand
    else
      let inexact := (ps ++ qs).any (fun m => m.2.isBinary)
      let (p, q) := reduce gens inexact (.ofMonomials gens ps) (.ofMonomials gens qs)
      div p q

end Expr

end FactorPlan
