import FactorPlan.Algebra.Expand

/-!
Linear forms: the coefficients of listed symbols in an expression that is linear
in them, and relations between linear forms solved for their symbols.

Correspondence:
  `linear_coeffs`                              ↔ `linear?`
  `Relational._eval_simplify`, one symbol      ↔ `solveOne`
  `Relational._eval_simplify`, several symbols ↔ `solveSeveral`
  `gcd` of the coefficients                    ↔ `numberGcd`
-/

namespace FactorPlan

namespace Expr

/-- A linear form: a constant and the coefficients of symbols. -/
structure Linear where
  constant : Expr := zero
  coeffs : List (String × Expr) := []

namespace Linear

/-- Adds to the coefficient of a symbol. -/
def addCoeff (s : String) (c : Expr) : List (String × Expr) → List (String × Expr)
  | [] => [(s, c)]
  | (t, d) :: rest => if t = s then (t, add d c) :: rest else (t, d) :: addCoeff s c rest

def plus (a b : Linear) : Linear :=
  { constant := add a.constant b.constant
    coeffs := b.coeffs.foldl (fun cs p => addCoeff p.1 p.2 cs) a.coeffs }

/-- The product of two linear forms one of which is constant. -/
def times? (a b : Linear) : Option Linear :=
  if a.coeffs.isEmpty then some (scale a.constant b)
  else if b.coeffs.isEmpty then some (scale b.constant a)
  else none
where
  scale (k : Expr) (l : Linear) : Linear :=
    { constant := mul k l.constant, coeffs := l.coeffs.map (fun p => (p.1, mul k p.2)) }

/-- The coefficient of a symbol. -/
def coeff (l : Linear) (s : String) : Expr := (l.coeffs.lookup s).getD zero

end Linear

mutual
/-- The linear form of an expression in its symbols; none where a symbol stands
anywhere but as a factor of a term. -/
def linear? : Expr → Option Linear
  | .symbol s => some { coeffs := [(s, one)] }
  | .sum ts => linearSum? ts
  | .product fs => linearProduct? fs
  | e => if (e.nodes.any (·.isSymbol)) then none else some { constant := e }

def linearSum? : List Expr → Option Linear
  | [] => some {}
  | t :: ts =>
    match linear? t, linearSum? ts with
    | some a, some b => some (a.plus b)
    | _, _ => none

def linearProduct? : List Expr → Option Linear
  | [] => some { constant := one }
  | f :: fs =>
    match linear? f, linearProduct? fs with
    | some a, some b => a.times? b
    | _, _ => none
end

/-- The greatest common divisor of two rationals: the largest number of which both
are whole multiples. -/
def pairGcd (p q : Rat) : Rat := mkRat (Nat.gcd p.num.natAbs q.num.natAbs) (Nat.lcm p.den q.den)

/-- The common divisor of rationals from left to right, which stops at one. -/
def commonDivisor (g : Rat) : List Rat → Rat
  | [] => g
  | q :: qs =>
    let h := pairGcd g q
    if h = 1 then 1 else commonDivisor h qs

/-- The common divisor of numbers: that of rationals, and one if a number is
binary. A single number divides itself. -/
def numberGcd (es : List Expr) : Scalar :=
  match es.filterMap scalar? with
  | [] => .zero
  | [s] => s
  | ss =>
    if ss.any Scalar.isBinary then .binary (Binary.ofRat 1)
    else
      match ss.filterMap Scalar.toRat? with
      | q :: qs => .exact (commonDivisor q qs)
      | [] => .zero

/-- The symbols of an expression, each once, sorted by name. -/
def freeSymbols (e : Expr) : List String :=
  sortBy (fun a b => a ≤ b)
    (e.nodes.filterMap (fun x => match x with | .symbol s => some s | _ => none)).eraseDups

/-- A relation between linear forms in one symbol, solved for it. -/
def solveOne (r : Rel) (x : String) (l : Linear) : Expr :=
  let m := l.coeff x
  let b := l.constant
  let build (p q : Expr) : Expr := rebuild (.apply (.rel r) []) [p, q]
  if m.facts.nonzero then
    let v := div (neg b) m
    if m.facts.negative then build v (.symbol x) else build (.symbol x) v
  else build b zero

/-- A relation between linear forms in several symbols, with coefficients divided
by their common divisor. A constant goes to the right; without one the first term
stays on the left alone. -/
def solveSeveral (r : Rel) (xs : List String) (l : Linear) : Expr :=
  let build (p q : Expr) : Expr := rebuild (.apply (.rel r) []) [p, q]
  let ms := xs.map l.coeff
  let scale := numberGcd ms
  if scale.isZero then build l.constant zero
  else
    let terms := ((xs.zip ms).filter (fun p => p.2 ≠ zero)).map (fun p =>
      mul (div p.2 (.scalar scale)) (.symbol p.1))
    if l.constant ≠ zero then build (sumOf terms) (div (neg l.constant) (.scalar scale))
    else
      match terms with
      | t :: rest => build t (neg (sumOf rest))
      | [] => build l.constant zero

end Expr

end FactorPlan
