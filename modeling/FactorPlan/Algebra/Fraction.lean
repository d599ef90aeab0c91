import FactorPlan.Expr.Build

/-!
Expressions as fractions. `numerDenom` brings an expression over one denominator,
`fraction` only reads off the factors with negative exponents, and `primitive`
takes the rational content out of a sum.

Correspondence:
  `as_numer_denom` ↔ `numerDenom`
  `fraction`       ↔ `fraction`
  `Expr.primitive` ↔ `primitive`
  `Expr.normal`    ↔ `normal`
-/

namespace FactorPlan

namespace Expr

/-! ## Rational content -/

/-- The rational coefficient of a term and the rest; a coefficient that is not
rational stays in the rest. -/
def rationalCoeff (e : Expr) : Rat × Expr :=
  match e.splitCoeff with
  | (.exact q, m) => (q, m)
  | _ => (1, e)

/-- The greatest rational that divides all listed ones into whole numbers. -/
def rationalGcd (qs : List Rat) : Rat :=
  let n := qs.foldl (fun g q => Nat.gcd g q.num.natAbs) 0
  let d := qs.foldl (fun l q => Nat.lcm l q.den) 1
  mkRat n d

/-- The rational content of a sum and the sum without it. -/
def primitive (e : Expr) : Rat × Expr :=
  match e with
  | .sum ts =>
    let parts := ts.map rationalCoeff
    let content := rationalGcd (parts.map (·.1))
    if content = 1 then (1, e)
    else
      let ts := parts.map (fun p => keepCoeff (.exact (p.1 / content)) p.2)
      match ts with
      | .scalar s :: rest => (content, rawSum (.scalar s :: sortCanonical rest))
      | ts => (content, rawSum (sortCanonical ts))
  | e =>
    let (c, r) := e.splitExactCoeff
    match c with
    | .exact q => if q < 0 then (-q, neg r) else (q, r)
    | _ => (1, e)

/-! ## Numerator and denominator -/

/-- Adds a numerator to those listed for a denominator. -/
def addNumerator (d n : Expr) : List (Expr × List Expr) → List (Expr × List Expr)
  | [] => [(d, [n])]
  | (c, ns) :: rest => if c = d then (c, ns ++ [n]) :: rest else (c, ns) :: addNumerator d n rest

/-- Numerator and denominator, within `fuel` levels. -/
def numerDenomF : Nat → Expr → Expr × Expr
  | 0, e => (e, one)
  | fuel + 1, e =>
    match e with
    | .scalar (.exact q) => (ofInt q.num, ofInt q.den)
    | .sum ts =>
      let (content, p) := primitive (.sum ts)
      let cn := Scalar.exact content.num
      let cd := Scalar.exact content.den
      let table := p.terms.foldl (fun t f => let (n, d) := numerDenomF fuel f; addNumerator d n t) []
      match table with
      | [(d, ns)] => (sumOf (ns.map (keepCoeff cn)), keepCoeff cd d)
      | table =>
        let denoms := table.map (·.1)
        let numers := table.map (fun p => match p.2 with
          | [n] => n
          | ns => sumOf ns)
        let crossed := (denoms.zip numers).mapIdx (fun i p =>
          productOf (denoms.take i ++ [p.2] ++ denoms.drop (i + 1)))
        (keepCoeff cn (sumOf crossed), keepCoeff cd (productOf denoms))
    | .product fs =>
      let parts := fs.map (numerDenomF fuel)
      (productOf (parts.map (·.1)), productOf (parts.map (·.2)))
    | .power _ _ =>
      if !e.commutes then (e, one)
      else
        let (b, x) := e.baseExponent
        let (n, d) := numerDenomF fuel b
        let xf := x.facts
        let negative := xf.negative || (x.isProduct && !xf.positive && x.leadsWithMinus)
        let whole := x.isInteger
        let df := d.facts
        let (n, d) := if df.real = some true || whole then (n, d) else (b, one)
        let df := d.facts
        let (n, d) :=
          if df.nonpos then (neg n, neg d)
          else if !df.positive && !whole then (b, one)
          else (n, d)
        let (n, d, x) := if negative then (d, n, neg x) else (n, d, x)
        (pow n x, pow d x)
    | e => (e, one)

/-- Numerator and denominator. -/
def numerDenom (e : Expr) : Expr × Expr := numerDenomF (e.size + 1) e

/-- Adds the numerator and denominator factors of one factor. -/
def fractionStep (acc : List Expr × List Expr) (f : Expr) : List Expr × List Expr :=
  match f with
  | .power _ _ =>
    if f.commutes then
      let (b, x) := f.baseExponent
      if x.facts.negative then
        (acc.1, acc.2 ++ [if x = negOne then b else pow b (neg x)])
      else if x.facts.positive then (acc.1 ++ [f], acc.2)
      else if x.isProduct then
        let (n, d) := f.numerDenom
        (if n = one then acc.1 else acc.1 ++ [n], acc.2 ++ [d])
      else (acc.1 ++ [f], acc.2)
    else (acc.1 ++ [f], acc.2)
  | .scalar (.exact q) =>
    if q.den = 1 then (acc.1 ++ [f], acc.2)
    else (if q.num = 1 then acc.1 else acc.1 ++ [ofInt q.num], acc.2 ++ [ofInt q.den])
  | f => (acc.1 ++ [f], acc.2)

/-- The factors of an expression apart by the signs of their exponents. -/
def fraction (e : Expr) : Expr × Expr :=
  let (n, d) := e.factors.foldl fractionStep ([], [])
  (productOf n, productOf d)

/-! ## Normal fractions -/

/-- The leading factors that commute, and those from the first that does not; a
negative number other than -1 shows as -1 and its size. -/
def commutingPart (e : Expr) : List Expr × List Expr :=
  let fs := e.factors
  let c := fs.takeWhile (·.commutes)
  let nc := fs.dropWhile (·.commutes)
  match c with
  | .scalar s :: rest =>
    if s.isNegative && s ≠ Scalar.negOne then (negOne :: .scalar s.neg :: rest, nc) else (c, nc)
  | c => (c, nc)

/-- A product of the listed factors that is not distributed: numbers are joined
and the other factors sorted. -/
def plainProduct (es : List Expr) : Expr :=
  let parts := es.reverse.flatMap (fun e => if e.isProduct then (commutingPart e).1.reverse else [e])
  let fixed := es.reverse.flatMap (fun e =>
    if e.isProduct then
      let nc := (commutingPart e).2
      if nc.isEmpty then [] else [rawProduct nc]
    else [])
  let number := parts.foldl (fun n e => match e with | .scalar s => n.mul s | _ => n) Scalar.one
  let rest := sortCanonical (parts.filter (!·.isScalar))
  let lead := if number = .one then [] else [.scalar number]
  rawProduct (lead ++ rest ++ (if fixed.isEmpty then [] else [rawProduct fixed]))

/-- The expression as one fraction. -/
def normal (e : Expr) : Expr :=
  let (n, d) := e.numerDenom
  if d = one then n
  else match d with
    | .scalar s => plainProduct [n, .scalar (Scalar.one.div s)]
    | d => div n d

end Expr

end FactorPlan
