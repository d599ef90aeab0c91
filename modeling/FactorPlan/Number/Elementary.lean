import FactorPlan.Number.Binary

/-!
Logarithm, exponential and real powers of positive rationals. Values are
computed in fixed point with 256 fraction bits, far beyond the 53 bits that a
result keeps, and rounded once at the end.

Correspondence:
  `mpf_log` ↔ `Binary.ln`
  `mpf_exp` ↔ `Fixed.exp`
  `mpf_pow` ↔ `Binary.pow`
-/

namespace FactorPlan

namespace Fixed

/-- The fraction bits of a fixed point number: `n` stands for `n / 2 ^ bits`. -/
def bits : Nat := 256

/-- The number of terms taken from a power series. -/
def terms : Nat := 72

def one : Int := Nat.pow 2 bits

def ofRat (q : Rat) : Int := (q * (one : Rat)).floor

def toRat (x : Int) : Rat := mkRat x (Nat.pow 2 bits)

def mul (x y : Int) : Int := x * y / one

/-- The terms `p / k`, `p * t / (k + 2)`, ... of the series of the inverse
hyperbolic tangent, added up. -/
def atanhSum (t2 : Int) : Nat → Int → Int → Int
  | 0, _, _ => 0
  | n + 1, p, k => p / k + atanhSum t2 n (mul p t2) (k + 2)

/-- Twice the inverse hyperbolic tangent of a number of size at most one third. -/
def twiceAtanh (t : Int) : Int := 2 * atanhSum (mul t t) terms t 1

/-- The natural logarithm of two. -/
def lnTwo : Int := 2 * atanhSum (ofRat (1 / 9)) 96 (ofRat (1 / 3)) 1

/-- The natural logarithm of `q > 0`. -/
def ln (q : Rat) : Int :=
  let k := leadingBit q
  let y := q * twoPow (-k)
  let (y, k) := if y > 4 / 3 then (y / 2, k + 1) else (y, k)
  twiceAtanh (ofRat ((y - 1) / (y + 1))) + k * lnTwo

/-- The terms of the exponential series from the `k`-th on, `p` being the `k`-th. -/
def expSum (r : Int) : Nat → Int → Int → Int
  | 0, _, _ => 0
  | n + 1, p, k => p + expSum r n (mul p r / (k + 1)) (k + 1)

/-- The exponential, as a rational close to the exact value. -/
def exp (y : Int) : Rat :=
  let k := (2 * y + lnTwo) / (2 * lnTwo)
  toRat (expSum (y - k * lnTwo) terms one 0) * twoPow k

end Fixed

namespace Binary

/-- The natural logarithm of `q > 0`. -/
def ln (q : Rat) : Binary := if q = 1 then zero else ofRat (Fixed.toRat (Fixed.ln q))

/-- The power `b ^ e` of a base `b > 0` with a real exponent, before rounding. -/
def powApprox (b e : Rat) : Rat :=
  if e.den = 1 then (if 0 ≤ e.num then b ^ e.num.toNat else 1 / b ^ (-e.num).toNat)
  else Fixed.exp ((Fixed.ln b * e.num) / (e.den : Int))

/-- The power `b ^ e` of a base `b > 0` with a real exponent. -/
def pow (b e : Rat) : Binary := ofRat (powApprox b e)

end Binary

end FactorPlan
