import FactorPlan.Expr.Order

/-!
What is known of the value of an expression without knowing its symbols: whether
it is real and which sign it has. Symbols and named functions may take any
complex value, so only numbers, absolute values and what is built from them have
a known sign.

Correspondence:
  `is_extended_real`, `is_positive`, `is_negative` ↔ `facts`
  `is_number`                                      ↔ `isNumber`
  `evalf` of a number                              ↔ `approx`
  `is_infinite`                                    ↔ `isInfinity`
-/

namespace FactorPlan

/-- What is known of a value. `real` is settled or open; the other fields are true
only when the property is certain. -/
structure Facts where
  real : Option Bool := none
  nonneg : Bool := false
  nonpos : Bool := false
  nonzero : Bool := false
  deriving DecidableEq, Repr

namespace Facts

def positive (f : Facts) : Bool := f.nonneg && f.nonzero
def negative (f : Facts) : Bool := f.nonpos && f.nonzero
def zero (f : Facts) : Bool := f.nonneg && f.nonpos

/-- The facts about a real number. -/
def ofRat (q : Rat) : Facts :=
  { real := some true, nonneg := 0 ≤ q, nonpos := q ≤ 0, nonzero := q != 0 }

def ofScalar (s : Scalar) : Facts :=
  match s with
  | .nan => {}
  | s =>
    { real := some true, nonneg := !s.isNegative, nonpos := !s.isPositive, nonzero := !s.isZero }

/-- The facts about a product of two factors. -/
def mul (f g : Facts) : Facts :=
  { real := if f.real = some true ∧ g.real = some true then some true else none
    nonneg := (f.nonneg && g.nonneg) || (f.nonpos && g.nonpos)
    nonpos := (f.nonneg && g.nonpos) || (f.nonpos && g.nonneg)
    nonzero := f.nonzero && g.nonzero }

/-- The facts about a sum of two terms. -/
def add (f g : Facts) : Facts :=
  let nonneg := f.nonneg && g.nonneg
  let nonpos := f.nonpos && g.nonpos
  { real :=
      if f.real = some true ∧ g.real = some true then some true
      else if (f.real = some true ∧ g.real = some false) ∨
        (f.real = some false ∧ g.real = some true) then some false
      else none
    nonneg := nonneg
    nonpos := nonpos
    nonzero := (nonneg || nonpos) && (f.nonzero || g.nonzero) }

end Facts

/-- A rational within `2 ^ -200` of the ratio of a circle's circumference to its
diameter, by sixteen times the inverse tangent of 1/5 less four times that of
1/239. -/
def piApprox : Rat :=
  let one : Int := Nat.pow 2 256
  let rec atan (x2 : Int) : Nat → Int → Int → Int
    | 0, _, _ => 0
    | n + 1, p, k => p / k - atan x2 n (p / x2) (k + 2)
  mkRat (16 * atan 25 120 (one / 5) 1 - 4 * atan 57121 60 (one / 239) 1) (Nat.pow 2 256)

namespace Expr

mutual
/-- The value of an expression without symbols and named functions, close to the
exact one; none where there is no such real value. -/
def approx : Expr → Option Rat
  | .scalar s => s.toRat?
  | .constant .pi => some piApprox
  | .sum ts => approxSum ts
  | .product fs => approxProduct fs
  | .power b e =>
    match approx b, approx e with
    | some p, some q =>
      if p = 0 then (if 0 < q then some 0 else none)
      else if q.den = 1 ∧ q.num.natAbs ≤ 4096 then
        some (if 0 ≤ q.num then p ^ q.num.toNat else 1 / p ^ (-q.num).toNat)
      else if 0 < p then some (Binary.powApprox p q)
      else none
    | _, _ => none
  | .apply .abs [a] => (approx a).map Rat.abs
  | .apply .log [a] =>
    match approx a with
    | some q => if 0 < q then some (Fixed.toRat (Fixed.ln q)) else none
    | none => none
  | _ => none

def approxSum : List Expr → Option Rat
  | [] => some 0
  | a :: as =>
    match approx a, approxSum as with
    | some p, some q => some (p + q)
    | _, _ => none

def approxProduct : List Expr → Option Rat
  | [] => some 1
  | a :: as =>
    match approx a, approxProduct as with
    | some p, some q => some (p * q)
    | _, _ => none
end

mutual
/-- Whether the expression holds no symbol and no named function. -/
def isNumber : Expr → Bool
  | .symbol _ => false
  | .scalar _ => true
  | .constant _ => true
  | .truth _ => false
  | .sum ts => allNumbers ts
  | .product fs => allNumbers fs
  | .power b e => isNumber b && isNumber e
  | .apply (.named _) _ => false
  | .apply (.rel _) _ => false
  | .apply .and _ => false
  | .apply .or _ => false
  | .apply .xor _ => false
  | .apply .not _ => false
  | .apply _ as => allNumbers as

def allNumbers : List Expr → Bool
  | [] => true
  | a :: as => isNumber a && allNumbers as
end

/-- The facts about a number, from its approximate value; values closer to zero
than any rounding error count as zero. -/
def numberFacts (e : Expr) : Facts :=
  match approx e with
  | some q => Facts.ofRat (if Rat.abs q < twoPow (-200) then 0 else q)
  | none => {}

/-- The facts about a power, from those about base and exponent. -/
def powerFacts (base : Facts) (exponent : Expr) (exp : Facts) : Facts :=
  let whole := exponent.isInteger
  let even := scalarIs (fun s => match s.toInt? with | some n => n % 2 == 0 | none => false) exponent
  let real := base.real = some true ∧ exp.real = some true
  if base.positive ∧ exp.real = some true then
    { real := some true, nonneg := true, nonzero := true }
  else if real ∧ base.nonneg ∧ exp.positive then
    { real := some true, nonneg := true, nonzero := base.nonzero }
  else if real ∧ even then
    { real := if exp.nonneg || base.nonzero then some true else none, nonneg := true, nonzero := base.nonzero }
  else if real ∧ whole ∧ base.negative then
    { real := some true, nonpos := true, nonzero := true }
  else if real ∧ whole ∧ exp.nonneg then { real := some true }
  else {}

mutual
/-- What is known of the value of an expression. -/
def facts : Expr → Facts
  | .symbol _ => {}
  | .scalar s => Facts.ofScalar s
  | .constant .pi => Facts.ofRat 3
  | .constant .imaginary => { real := some false, nonzero := true }
  | .constant .undirected => { real := some false, nonzero := true }
  | .truth _ => {}
  | .sum ts => if allNumbers ts then numberFacts (.sum ts) else sumFacts ts
  | .product fs => if allNumbers fs ∧ (approxProduct fs).isSome then numberFacts (.product fs) else productFacts fs
  | .power b e => powerFacts (facts b) e (facts e)
  | .apply .abs [a] => { real := some true, nonneg := true, nonzero := (facts a).nonzero }
  | .apply .log [a] =>
    if isNumber a then numberFacts (.apply .log [a])
    else if (facts a).positive then { real := some true } else {}
  | .apply .max as =>
    let fs := factsList as
    let nonneg := fs.any (·.nonneg)
    let positive := fs.any (·.positive)
    let negative := fs.all (·.negative)
    { real := if nonneg || negative || fs.all (·.real = some true) then some true else none
      nonneg := nonneg, nonpos := negative, nonzero := positive || negative }
  | .apply .min as =>
    let fs := factsList as
    let nonneg := fs.all (·.nonneg)
    let positive := fs.all (·.positive)
    let negative := fs.any (·.negative)
    { real := if nonneg || negative || fs.all (·.real = some true) then some true else none
      nonneg := nonneg, nonpos := negative, nonzero := positive || negative }
  | .apply _ _ => {}

/-- The facts about each expression of a list. -/
def factsList : List Expr → List Facts
  | [] => []
  | a :: as => facts a :: factsList as

/-- The facts about the sum of a list. -/
def sumFacts : List Expr → Facts
  | [] => Facts.ofRat 0
  | [a] => facts a
  | a :: as => (facts a).add (sumFacts as)

/-- The facts about the product of a list. -/
def productFacts : List Expr → Facts
  | [] => Facts.ofRat 1
  | [a] => facts a
  | a :: as => (facts a).mul (productFacts as)
end

/-- Whether the expression is an infinity. -/
def isInfinity : Expr → Bool
  | .scalar s => s.isInfinite
  | .constant .undirected => true
  | _ => false

end Expr

end FactorPlan
