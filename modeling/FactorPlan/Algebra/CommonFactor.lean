import FactorPlan.Algebra.Content

/-!
Common factors of the terms of a sum. A term is a rational number times whole
powers of factors; `gcdTerms` takes out what all terms share, `together` brings an
expression over common denominators, and `factorTerms` takes common factors out
at every level without doing so.

Correspondence:
  `Factors`, `Term`         ↔ `FactorTable`, `Term`
  `_gcd_terms`, `gcd_terms` ↔ `shared`, `gcdTerms`
  `_mask_nc`                ↔ `maskFixed`
  `together`                ↔ `together`
  `factor_terms`            ↔ `factorTerms`
-/

namespace FactorPlan

/-- Whole powers of factors, in the order in which they were met. -/
abbrev FactorTable := List (Expr × Nat)

namespace FactorTable

/-- The exponent of a factor. -/
def exponent (b : Expr) (t : FactorTable) : Nat := (t.lookup b).getD 0

/-- Multiplies by a power of a factor. -/
def times (b : Expr) (n : Nat) : FactorTable → FactorTable
  | [] => if n = 0 then [] else [(b, n)]
  | (c, m) :: rest => if c = b then (c, m + n) :: rest else (c, m) :: times b n rest

/-- The product of two tables. -/
def mul (s t : FactorTable) : FactorTable := t.foldl (fun s p => times p.1 p.2 s) s

/-- What two tables have in common. -/
def gcd (s t : FactorTable) : FactorTable :=
  (s.map (fun p => (p.1, min p.2 (exponent p.1 t)))).filter (·.2 ≠ 0)

/-- What is left of the first table without the second. -/
def without (s t : FactorTable) : FactorTable :=
  (s.map (fun p => (p.1, p.2 - exponent p.1 t))).filter (·.2 ≠ 0)

/-- The least table that both divide. -/
def lcm (s t : FactorTable) : FactorTable := mul s (without t s)

/-- The product as an expression. -/
def toExpr (t : FactorTable) : Expr :=
  Expr.productOf (t.map (fun p =>
    if p.2 = 1 then p.1
    else
      let (b, x) := p.1.baseExponent
      Expr.pow b (Expr.keepCoeff (.exact p.2) x)))

end FactorTable

/-- A term: a rational number times a fraction of factors. -/
structure Term where
  coeff : Rat := 1
  numer : FactorTable := []
  denom : FactorTable := []

namespace Term

/-- Takes one more factor; the rational content of a sum goes to the number. -/
def times (t : Term) (f : Expr) : Term :=
  let (b, n) := f.wholePower
  let (c, b) := if b.isSum then b.primitive else (1, b)
  let coeff := t.coeff * ((Scalar.ratPow? c n).getD 1)
  if 0 < n then { t with coeff := coeff, numer := t.numer.times b n.toNat }
  else { t with coeff := coeff, denom := t.denom.times b (-n).toNat }

/-- A product as a term. A number that is not rational counts as a factor, apart
from its sign. -/
def ofExpr (e : Expr) : Term :=
  match e with
  | .scalar (.exact q) => { coeff := q }
  | .scalar s =>
    if s.isNegative then ({ coeff := -1 } : Term).times (.scalar s.neg) else ({} : Term).times e
  | .product (.scalar (.exact q) :: fs) => fs.foldl times { coeff := q }
  | .product (.scalar s :: fs) =>
    if s.isNegative then (.scalar s.neg :: fs).foldl times { coeff := -1 }
    else (.scalar s :: fs).foldl times {}
  | e => e.factors.foldl times {}

/-- The term as an expression. -/
def toExpr (t : Term) : Expr :=
  Expr.mul (Expr.ofRat t.coeff) (Expr.div t.numer.toExpr t.denom.toExpr)

/-- What two terms have in common. -/
def gcd (s t : Term) : Term :=
  { coeff := Expr.rationalGcd [s.coeff, t.coeff], numer := s.numer.gcd t.numer, denom := s.denom.gcd t.denom }

/-- The quotient of two terms. -/
def quot (s t : Term) : Term :=
  let numer := s.numer.mul t.denom
  let denom := s.denom.mul t.numer
  { coeff := s.coeff / t.coeff, numer := numer.without denom, denom := denom.without numer }

end Term

namespace Expr

/-! ## Sums -/

/-- What the terms of a sum share, and the sum without it as numerator and
denominator. With `joined` the rest is brought over one denominator; with
`content` its rational content is taken out too. -/
def shared (joined content : Bool) (es : List Expr) : Expr × Expr × Expr :=
  match (es.filter (fun e => !scalarIs Scalar.isZero e)).map Term.ofExpr with
  | [] => (zero, zero, one)
  | [t] => settle (ofRat t.coeff) t.numer.toExpr t.denom.toExpr
  | t :: ts =>
    let common := ts.foldl Term.gcd t
    let rest := (t :: ts).map (fun s => s.quot common)
    if joined then
      let denom := rest.foldl (fun (d : FactorTable) s => d.lcm s.denom) []
      let numers := rest.map (fun s =>
        mul (ofRat s.coeff) (s.numer.mul (denom.without s.denom)).toExpr)
      settle common.toExpr (sumOf numers) denom.toExpr
    else settle common.toExpr (sumOf (rest.map Term.toExpr)) one
where
  /-- Takes the rational content out of the numerator. -/
  settle (common numer denom : Expr) : Expr × Expr × Expr :=
    if content && numer.isSum then
      let (c, numer) := numer.primitive
      (mul common (ofRat c), numer, denom)
    else (common, numer, denom)

/-- The name of a stand-in for factors that keep their place. -/
def standIn (i : Nat) : String := "\x00" ++ toString i

/-- Replaces the factors of each term that keep their place by a symbol of its own. -/
def maskFixed (es : List Expr) : List Expr × List (String × Expr) :=
  let masked := es.mapIdx (fun i e =>
    if e.commutes then (e, [])
    else
      let (c, nc) := e.commutingPart
      (productOf (c ++ [.symbol (standIn i)]), [(standIn i, productOf nc)]))
  (masked.map (·.1), masked.flatMap (·.2))

/-- Puts the masked factors back. -/
def unmaskFixed (reps : List (String × Expr)) (e : Expr) : Expr :=
  if reps.isEmpty then e
  else replace (fun x => match x with | .symbol n => reps.lookup n | _ => none) e

/-- The sum of the listed terms with what they share taken out. -/
def gcdTerms (clear joined content : Bool) (es : List Expr) : Expr :=
  let (es, reps) := maskFixed es
  let (common, numer, denom) := shared joined content es
  let numer := unmaskFixed reps numer
  let (c, factors) := common.splitCoeff
  let (c, numer) := match c with
    | .exact q =>
      if !clear && q.den ≠ 1 && numer.isSum then
        let reduced := mul numer (ofRat (mkRat 1 q.den))
        if reduced.terms.any wholeCoeff then (.exact q.num, reduced) else (c, numer)
      else (c, numer)
    | c => (c, numer)
  keepNumber { clear := clear } c (div (mul factors numer) denom)

/-! ## At every level -/

mutual
/-- The expression over common denominators, with common factors taken out. -/
def together : Expr → Expr
  | .sum ts => gcdTerms true true true (togetherList ts)
  | .product fs => productOf (togetherList fs)
  | .power b x => pow (together b) (together x)
  | .apply f as => rebuild (.apply f as) (togetherList as)
  | e => e

def togetherList : List Expr → List Expr
  | [] => []
  | a :: as => together a :: togetherList as
end

/-- A sum or product with common factors taken out: its content, then the factors of
the rest. -/
def factorNode (factor : Expr → Expr) (sign : Bool) (e : Expr) : Expr :=
  let (c, p) := e.contentPrimitive false
  match p with
  | .sum ts =>
    let ts := ts.map factor
    let (c, ts) := if ts.all negativeCoeff then (c.neg, ts.map neg) else (c, ts)
    keepNumber { clear := false, sign := sign } c (gcdTerms false false false ts)
  | p =>
    let p := if p.args.isEmpty then p else rebuild p (p.args.map factor)
    keepNumber { clear := false, sign := sign } c p

/-- Common factors of sums taken out at every level, within `fuel` levels. With
`sign`, a sum of negative terms gets -1 before it. -/
def factorTermsF : Nat → Bool → Expr → Expr
  | 0, _, e => e
  | fuel + 1, sign, e =>
    match e with
    | .sum _ => factorNode (factorTermsF fuel sign) sign e
    | .product _ => factorNode (factorTermsF fuel sign) sign e
    | e =>
      if e.isAtom then e
      else
        let as := e.args.map (factorTermsF fuel sign)
        if as = e.args then e else rebuild e as

/-- Common factors of sums taken out at every level. -/
def factorTerms (sign : Bool) (e : Expr) : Expr := factorTermsF (2 * e.size + 2) sign e

end Expr

end FactorPlan
