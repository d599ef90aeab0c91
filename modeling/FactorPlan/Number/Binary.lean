/-!
Binary numbers: an integer mantissa times a power of two, with no bound on the
exponent. Arithmetic is exact arithmetic followed by one rounding to 53
significant bits, a half going to the even neighbour. Decimal text is written
from the exact value, to fifteen significant digits.

Correspondence:
  the mantissa and exponent of a `Float` ↔ `Binary`
  `from_man_exp` at 53 bits              ↔ `ofRat`, `normal`
  `mpf_add`, `mpf_mul`, `mpf_div`        ↔ `add`, `mul`, `div`
  `mpf_pow_int`                          ↔ `powInt`
  `to_str` at 15 digits                  ↔ `text`
-/

namespace FactorPlan

/-- The power of two with exponent `e`. -/
def twoPow (e : Int) : Rat :=
  if 0 ≤ e then (Nat.pow 2 e.toNat : Rat) else mkRat 1 (Nat.pow 2 (-e).toNat)

/-- The power of ten with exponent `e`. -/
def tenPow (e : Int) : Rat :=
  if 0 ≤ e then (Nat.pow 10 e.toNat : Rat) else mkRat 1 (Nat.pow 10 (-e).toNat)

/-- The quotient `n / d` rounded to the nearest natural number, a half going to
the even one. -/
def roundDiv (n d : Nat) : Nat :=
  let q := n / d
  let r := n % d
  if 2 * r < d then q
  else if d < 2 * r then q + 1
  else if q % 2 = 0 then q else q + 1

/-- The number of decimal digits of `n`. -/
def decimalLength (n : Nat) : Nat := (Nat.toDigits 10 n).length

/-- The position of the leading decimal digit of `q ≠ 0`:
`10 ^ k ≤ |q| < 10 ^ (k + 1)`. -/
def leadingDecimal (q : Rat) : Int :=
  let k : Int := (decimalLength q.num.natAbs : Int) - decimalLength q.den
  if (q.num.natAbs : Rat) < (q.den : Rat) * tenPow k then k - 1 else k

/-- The position of the leading bit of `q ≠ 0`: `2 ^ k ≤ |q| < 2 ^ (k + 1)`. -/
def leadingBit (q : Rat) : Int :=
  let k : Int := (q.num.natAbs.log2 : Int) - q.den.log2
  if (q.num.natAbs : Rat) < (q.den : Rat) * twoPow k then k - 1 else k

/-- The number `mantissa * 2 ^ exponent`. Values made by this module have an odd
mantissa, or are `0 * 2 ^ 0`, so equal numbers are equal structures. -/
structure Binary where
  mantissa : Int
  exponent : Int
  deriving DecidableEq, Repr, Inhabited

namespace Binary

/-- The significant bits kept by arithmetic. -/
def precision : Nat := 53

def zero : Binary := ⟨0, 0⟩

/-- Moves factors of two from the mantissa to the exponent, at most `fuel` of
them. -/
def shiftOut : Nat → Nat → Int → Nat × Int
  | 0, m, e => (m, e)
  | fuel + 1, m, e => if m % 2 = 0 then shiftOut fuel (m / 2) (e + 1) else (m, e)

/-- The normal form of `m * 2 ^ e`. -/
def normal (m e : Int) : Binary :=
  if m = 0 then zero
  else
    let (n, e) := shiftOut (m.natAbs.log2 + 1) m.natAbs e
    ⟨if m < 0 then -(n : Int) else n, e⟩

/-- The exact value. -/
def toRat (x : Binary) : Rat := (x.mantissa : Rat) * twoPow x.exponent

/-- The multiple of `2 ^ e` nearest to `q`, a half going to the even multiple. -/
def roundAt (q : Rat) (e : Int) : Binary :=
  let s := q * twoPow (-e)
  let m : Int := roundDiv s.num.natAbs s.den
  normal (if s.num < 0 then -m else m) e

/-- The nearest number with at most `bits` significant bits. -/
def ofRatBits (bits : Nat) (q : Rat) : Binary :=
  if q = 0 then zero else roundAt q (leadingBit q - (bits - 1))

/-- The nearest number with 53 significant bits. -/
def ofRat (q : Rat) : Binary := ofRatBits precision q

def isZero (x : Binary) : Bool := x.mantissa == 0
def isNegative (x : Binary) : Bool := x.mantissa < 0
def isPositive (x : Binary) : Bool := 0 < x.mantissa

/-- Whether the value is a whole number. -/
def isWhole (x : Binary) : Bool := x.toRat.den == 1

def neg (x : Binary) : Binary := ⟨-x.mantissa, x.exponent⟩
def abs (x : Binary) : Binary := ⟨x.mantissa.natAbs, x.exponent⟩
def add (x y : Binary) : Binary := ofRat (x.toRat + y.toRat)
def sub (x y : Binary) : Binary := ofRat (x.toRat - y.toRat)
def mul (x y : Binary) : Binary := ofRat (x.toRat * y.toRat)
def div (x y : Binary) : Binary := ofRat (x.toRat / y.toRat)

/-- Whole powers; a negative exponent takes the reciprocal of the power. -/
def powInt (x : Binary) (n : Int) : Binary :=
  if 0 ≤ n then ofRat (x.toRat ^ n.toNat)
  else ofRat (1 / x.toRat ^ (-n).toNat)

/-- The order of sign, mantissa and exponent, in that order. It tells apart
numbers that stand at the same place of two expressions; it is not the order of
their values. -/
def structural (x y : Binary) : Ordering :=
  (compare x.isNegative.toNat y.isNegative.toNat).then
    ((compare x.mantissa.natAbs y.mantissa.natAbs).then (compare x.exponent y.exponent))

/-! ## Decimal text -/

/-- The fifteen leading decimal digits of a positive number, rounded half up,
and the decimal position of the first of them. -/
def leadingDigits (q : Rat) : String × Int :=
  let k := leadingDecimal q
  let t := (q * tenPow (15 - k)).floor.toNat
  let d := if 5 ≤ t % 10 then t / 10 + 1 else t / 10
  if d = Nat.pow 10 15 then ("100000000000000", k + 1)
  else (String.ofList (Nat.toDigits 10 d), k)

/-- Drops zeros at the end of a decimal fraction and keeps one digit after the
point. -/
def dropZeros (s : String) : String :=
  let kept := (s.toList.reverse.dropWhile (· == '0')).reverse
  if kept.getLast? = some '.' then String.ofList (kept ++ ['0']) else String.ofList kept

/-- The number with fifteen significant digits: positional when the leading digit
stands between the positions -4 and 14, with an exponent otherwise. With
`short`, zeros at the end of the fraction are dropped. -/
def text (x : Binary) (short : Bool) : String :=
  if x.isZero then "0.0"
  else
    let sign := if x.isNegative then "-" else ""
    let (digits, k) := leadingDigits x.abs.toRat
    let (digits, split, k) :=
      if -5 < k ∧ k < 15 then
        if k < 0 then (String.ofList (List.replicate (-k).toNat '0') ++ digits, 1, 0)
        else (digits, k.toNat + 1, 0)
      else (digits, 1, k)
    let cs := digits.toList
    let body := String.ofList (cs.take split) ++ "." ++ String.ofList (cs.drop split)
    let body := if short then dropZeros body else body
    if k = 0 then sign ++ body
    else if 0 ≤ k then sign ++ body ++ "e+" ++ toString k
    else sign ++ body ++ "e" ++ toString k

end Binary

end FactorPlan
