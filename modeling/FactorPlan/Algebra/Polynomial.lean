import FactorPlan.Algebra.Dense
import FactorPlan.Algebra.Expand
import FactorPlan.Algebra.CommonFactor
import FactorPlan.Expr.Display

/-!
Expressions as polynomials. The generators of a polynomial are the symbols,
applied functions and other factors of its terms; they are ordered by their texts,
with trailing digits read as numbers.

Correspondence:
  `Poly`                         ↔ `Polynomial`
  `_sort_gens`                   ↔ `sortGenerators`
  `to_rational` of a coefficient ↔ `coefficient`, `nearestFraction`
-/

namespace FactorPlan

/-! ## Generators -/

/-- The place of a one-letter name among generators: x, y, z come first, then p to
w, then a to o. -/
def letterRank (c : Char) : Nat :=
  if 'x' ≤ c ∧ c ≤ 'z' then 100 + c.toNat
  else if 'p' ≤ c ∧ c ≤ 'w' then 300 + c.toNat
  else 500 + c.toNat

/-- The place of a generator: by rank, text without trailing digits, and the
number these digits stand for. -/
def generatorKey (text : String) : Nat × String × Nat :=
  let digits := (text.toList.reverse.takeWhile Char.isDigit).reverse
  let name := text.toList.take (text.length - digits.length)
  let rank := match name with
    | [c] => if 'a' ≤ c ∧ c ≤ 'z' then letterRank c else 1000
    | _ => 1000
  (rank, String.ofList name, digits.foldl (fun n c => 10 * n + (c.toNat - '0'.toNat)) 0)

/-- Sorts generators into their order. -/
def sortGenerators (es : List Expr) : List Expr :=
  let keyed := es.map (fun e => (e, generatorKey e.text))
  (sortBy (fun a b =>
    ((compare a.2.1 b.2.1).then ((compare a.2.2.1 b.2.2.1).then (compare a.2.2.2 b.2.2.2))) != .gt)
      keyed).map (·.1)

/-! ## Terms -/

/-- A term of a polynomial: powers of generators and a number. -/
abbrev Monomial := FactorTable × Scalar

/-- Reads a factor of a term. A negative power is a power of the reciprocal. -/
def Monomial.times (m : Monomial) (f : Expr) : Monomial :=
  match f with
  | .scalar s => if s.isFinite then (m.1, m.2.mul s) else (m.1.times f 1, m.2)
  | f =>
    let (b, n) := f.wholePower
    if n < 0 then (m.1.times (Expr.pow b Expr.negOne) (-n).toNat, m.2) else (m.1.times b n.toNat, m.2)

/-- The terms of an expanded expression. -/
def monomials (e : Expr) : List Monomial :=
  e.terms.map (fun t => t.factors.foldl Monomial.times (([] : FactorTable), Scalar.one))

/-- The nearest fraction with a denominator of at most `bound`, by the continued
fraction; `q` itself where its denominator is small enough. -/
def nearestFraction (bound : Nat) (q : Rat) : Rat :=
  let rec go : Nat → Int → Int → Int → Int → Int → Int → Rat
    | 0, _, _, _, _, _, _ => q
    | fuel + 1, n, d, p0, q0, p1, q1 =>
      let a := if d = 0 then 0 else n.fdiv d
      let q2 := q0 + a * q1
      if d = 0 ∨ (bound : Int) < q2 then
        let k := ((bound : Int) - q0).fdiv q1
        let r := mkRat (p0 + k * p1) (q0 + k * q1).toNat
        let s := mkRat p1 q1.toNat
        if r = 0 ∨ s = 0 then q
        else if Rat.abs (s - q) ≤ Rat.abs (r - q) then s else r
      else go fuel d (n - a * d) p1 q1 (p0 + a * p1) q2
  if q.den ≤ bound then q else go (2 * q.den.log2 + 8) q.num q.den 0 1 1 0

/-- The largest denominator that stands for a binary coefficient. -/
def coefficientBound : Nat := Nat.pow 2 52 / 100

/-- The rational that stands for a coefficient. -/
def coefficient (s : Scalar) : Rat :=
  match s with
  | .exact q => q
  | s => nearestFraction coefficientBound ((s.toRat?).getD 0)

/-! ## Polynomials over common generators -/

/-- A polynomial over listed generators with rational coefficients: a whole
polynomial divided by a number. -/
structure Polynomial (n : Nat) where
  whole : Dense n
  denom : Nat

namespace Polynomial

/-- The polynomial of listed terms. -/
def ofMonomials (gens : List Expr) (ms : List Monomial) : Polynomial gens.length :=
  let cs := ms.map (fun m => (gens.map (fun g => m.1.exponent g), coefficient m.2))
  let denom := cs.foldl (fun l c => Nat.lcm l c.2.den) 1
  { whole := Dense.ofTerms gens.length (cs.map (fun c => (c.1, (c.2 * (denom : Rat)).num))), denom := denom }

/-- The expression of a polynomial with each coefficient scaled and written by
`number`. -/
def toExpr (gens : List Expr) (number : Rat → Scalar) (p : Polynomial gens.length) : Expr :=
  Expr.sumOf ((Dense.toTerms gens.length p.whole).map (fun t =>
    Expr.productOf (.scalar (number (mkRat t.2 p.denom)) ::
      (gens.zip t.1).filterMap (fun g =>
        if g.2 = 0 then none else some (Expr.pow g.1 (Expr.ofInt g.2))))))

end Polynomial

end FactorPlan
