import FactorPlan.Number.Elementary

/-!
Scalars: the numbers that stand in expressions. A scalar is an exact rational, a
binary number, an infinity or not a number. Exact and binary numbers mix by
rounding the exact one first; a binary result of zero is the exact zero.

Correspondence:
  `Rational`, `Float`, `oo`, `nan`           ↔ `Scalar`
  `Number.__add__`, `__mul__`, `__truediv__` ↔ `add`, `mul`, `div`
  `Number.__lt__`                            ↔ `lt`, `order?`
  `Number.__eq__`                            ↔ `sameValue`
-/

namespace FactorPlan

/-- A number of an expression. -/
inductive Scalar where
  | exact (q : Rat)
  | binary (x : Binary)
  | inf (negative : Bool)
  | nan
  deriving DecidableEq, Repr, Inhabited

namespace Scalar

def zero : Scalar := .exact 0
def one : Scalar := .exact 1
def negOne : Scalar := .exact (-1)

/-- A binary result; zero is exact. -/
def ofBinary (x : Binary) : Scalar := if x.isZero then zero else .binary x

/-- The exact value of a finite scalar. -/
def toRat? : Scalar → Option Rat
  | .exact q => some q
  | .binary x => some x.toRat
  | _ => none

/-- The value rounded to a binary number; zero for the scalars without one. -/
def toBinary : Scalar → Binary
  | .exact q => Binary.ofRat q
  | .binary x => x
  | _ => .zero

def isExact : Scalar → Bool
  | .exact _ => true
  | _ => false

def isBinary : Scalar → Bool
  | .binary _ => true
  | _ => false

/-- Whether the scalar is an exact whole number. -/
def isInteger : Scalar → Bool
  | .exact q => q.den == 1
  | _ => false

def isFinite : Scalar → Bool
  | .exact _ => true
  | .binary _ => true
  | _ => false

def isInfinite : Scalar → Bool
  | .inf _ => true
  | _ => false

def isZero : Scalar → Bool
  | .exact q => q == 0
  | .binary x => x.isZero
  | _ => false

def isNegative : Scalar → Bool
  | .exact q => q < 0
  | .binary x => x.isNegative
  | .inf n => n
  | .nan => false

def isPositive : Scalar → Bool
  | .exact q => 0 < q
  | .binary x => x.isPositive
  | .inf n => !n
  | .nan => false

def neg : Scalar → Scalar
  | .exact q => .exact (-q)
  | .binary x => .binary x.neg
  | .inf n => .inf !n
  | .nan => .nan

def abs (s : Scalar) : Scalar := if s.isNegative then s.neg else s

def add : Scalar → Scalar → Scalar
  | .nan, _ => .nan
  | _, .nan => .nan
  | .inf a, .inf b => if a = b then .inf a else .nan
  | .inf a, _ => .inf a
  | _, .inf b => .inf b
  | .exact a, .exact b => .exact (a + b)
  | a, b => ofBinary (a.toBinary.add b.toBinary)

def sub (a b : Scalar) : Scalar := a.add b.neg

def mul : Scalar → Scalar → Scalar
  | .nan, _ => .nan
  | _, .nan => .nan
  | .inf a, b => if b.isZero then .nan else .inf (a != b.isNegative)
  | a, .inf b => if a.isZero then .nan else .inf (a.isNegative != b)
  | .exact a, .exact b => .exact (a * b)
  | a, b => ofBinary (a.toBinary.mul b.toBinary)

/-- The quotient by a scalar other than zero. -/
def div : Scalar → Scalar → Scalar
  | .nan, _ => .nan
  | _, .nan => .nan
  | .inf _, .inf _ => .nan
  | .inf a, b => .inf (a != b.isNegative)
  | _, .inf _ => zero
  | .exact a, .exact b => .exact (a / b)
  | a, b => ofBinary (a.toBinary.div b.toBinary)

/-- The order of the values; none when one is not a number. -/
def order? : Scalar → Scalar → Option Ordering
  | .nan, _ => none
  | _, .nan => none
  | .inf a, .inf b => some (compare b.toNat a.toNat)
  | .inf a, _ => some (if a then .lt else .gt)
  | _, .inf b => some (if b then .gt else .lt)
  | a, b =>
    match a.toRat?, b.toRat? with
    | some p, some q => some (if p < q then .lt else if p = q then .eq else .gt)
    | _, _ => none

def lt (a b : Scalar) : Bool := a.order? b == some .lt

/-- Equality of values, whatever the kinds of the two scalars. -/
def sameValue (a b : Scalar) : Bool := a.order? b == some .eq

/-- A total order by value, with not-a-number last. -/
def order (a b : Scalar) : Ordering :=
  match a.order? b with
  | some o => o
  | none => compare (a == .nan).toNat (b == .nan).toNat

/-- The exact whole number, if the scalar is one. -/
def toInt? : Scalar → Option Int
  | .exact q => if q.den == 1 then some q.num else none
  | _ => none

end Scalar

end FactorPlan
