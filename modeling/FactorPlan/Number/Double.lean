import FactorPlan.Number.Elementary

/-!
Doubles: the numbers that a decimal constant of a formula denotes, with their
signed zero, infinities and not-a-number. Arithmetic is exact arithmetic and one
rounding to 53 bits within the bounded range of exponents. Text is the shortest
decimal that reads back, or a fixed number of places.

Correspondence:
  `float`                      ↔ `Double`
  `+`, `-`, `*`, `/` of floats ↔ `add`, `sub`, `mul`, `div`
  `repr` of a float            ↔ `text`
  the format `.nf` of a float  ↔ `fixed`
-/

namespace FactorPlan

/-- A double. `finite` holds numbers with at most 53 bits, zero included;
`negZero` is the zero with a minus sign. -/
inductive Double where
  | finite (x : Binary)
  | negZero
  | inf (negative : Bool)
  | nan
  deriving DecidableEq, Repr, Inhabited

namespace Double

def zero : Double := .finite .zero

/-- The least exponent a mantissa can be scaled by. -/
def minExponent : Int := -1074

/-- The double nearest to a rational, a half going to the even mantissa; beyond
the largest double the result is infinite. -/
def ofRat (q : Rat) : Double :=
  if q = 0 then zero
  else
    let x := Binary.roundAt q (max (leadingBit q - 52) minExponent)
    if x.isZero then (if q < 0 then negZero else zero)
    else if twoPow 1024 ≤ x.abs.toRat then .inf (q < 0)
    else .finite x

/-- The exact value of a finite double. -/
def toRat? : Double → Option Rat
  | .finite x => some x.toRat
  | .negZero => some 0
  | _ => none

def isZero : Double → Bool
  | .finite x => x.isZero
  | .negZero => true
  | _ => false

def isNegative : Double → Bool
  | .finite x => x.isNegative
  | .negZero => true
  | .inf n => n
  | .nan => false

def neg : Double → Double
  | .finite x => if x.isZero then .negZero else .finite x.neg
  | .negZero => zero
  | .inf n => .inf !n
  | .nan => .nan

def abs (x : Double) : Double := if x.isNegative then x.neg else x

/-- A zero with the given sign. -/
def signedZero (negative : Bool) : Double := if negative then .negZero else zero

def add : Double → Double → Double
  | .nan, _ => .nan
  | _, .nan => .nan
  | .inf a, .inf b => if a = b then .inf a else .nan
  | .inf a, _ => .inf a
  | _, .inf b => .inf b
  | .negZero, y => y
  | x, .negZero => x
  | .finite x, .finite y => ofRat (x.toRat + y.toRat)

def sub (x y : Double) : Double := add x y.neg

def mul (x y : Double) : Double :=
  let negative := x.isNegative != y.isNegative
  match x, y with
  | .nan, _ => .nan
  | _, .nan => .nan
  | .inf _, y => if y.isZero then .nan else .inf negative
  | x, .inf _ => if x.isZero then .nan else .inf negative
  | .finite a, .finite b =>
    if a.isZero || b.isZero then signedZero negative
    else
      let r := ofRat (a.toRat * b.toRat)
      if r.isZero then signedZero negative else r
  | _, _ => signedZero negative

/-- The quotient; a zero divisor is the caller's error. -/
def div (x y : Double) : Double :=
  let negative := x.isNegative != y.isNegative
  match x, y with
  | .nan, _ => .nan
  | _, .nan => .nan
  | .inf _, .inf _ => .nan
  | .inf _, _ => .inf negative
  | _, .inf _ => signedZero negative
  | x, y =>
    match x.toRat?, y.toRat? with
    | some a, some b =>
      if b = 0 then (if a = 0 then .nan else .inf negative)
      else if a = 0 then signedZero negative
      else
        let r := ofRat (a / b)
        if r.isZero then signedZero negative else r
    | _, _ => .nan

/-- The order of two doubles; none when one is not a number. -/
def order? : Double → Double → Option Ordering
  | .nan, _ => none
  | _, .nan => none
  | .inf a, .inf b => some (compare b.toNat a.toNat)
  | .inf a, _ => some (if a then .lt else .gt)
  | _, .inf b => some (if b then .gt else .lt)
  | x, y =>
    match x.toRat?, y.toRat? with
    | some a, some b => some (if a < b then .lt else if a = b then .eq else .gt)
    | _, _ => none

/-! ## Decimal text -/

/-- The two neighbours of `q > 0` on the grid of decimals with `n` significant
digits, as multiples of the unit, the nearer one first, with the position of the
last digit. -/
def gridNeighbours (q : Rat) (n : Nat) : List Nat × Int :=
  let u : Int := leadingDecimal q - (n - 1)
  let s := q * tenPow (-u)
  let low := s.floor.toNat
  if s - (low : Rat) ≤ 1 / 2 then ([low, low + 1], u) else ([low + 1, low], u)

/-- The fewest decimal digits that read back as `x`, with the position of the
last digit: the first number of digits from `n` on, `fuel` tries at most. -/
def shortestFrom (x : Double) (q : Rat) : Nat → Nat → Nat × Int
  | 0, n => let (ds, u) := gridNeighbours q n; (ds.headD 0, u)
  | fuel + 1, n =>
    let (ds, u) := gridNeighbours q n
    match ds.find? (fun (d : Nat) => decide (ofRat ((d : Rat) * tenPow u) = x)) with
    | some d => (d, u)
    | none => shortestFrom x q fuel (n + 1)

/-- The exponent mark: a sign and at least two digits. -/
def exponentText (k : Int) : String :=
  let d := toString k.natAbs
  "e" ++ (if k < 0 then "-" else "+") ++ (if d.length < 2 then "0" ++ d else d)

/-- The fewest digits that read back; positional when the leading digit stands
between the positions -4 and 15, and then with at least one digit after the point. -/
def text : Double → String
  | .nan => "nan"
  | .inf n => if n then "-inf" else "inf"
  | .negZero => "-0.0"
  | .finite x =>
    if x.isZero then "0.0"
    else
      let q := x.abs.toRat
      let (d, u) := shortestFrom (.finite x.abs) q 16 1
      let digits := (Nat.toDigits 10 d).reverse.dropWhile (· == '0') |>.reverse
      let k : Int := u + (decimalLength d - 1)
      let sign := if x.isNegative then "-" else ""
      let body :=
        if -4 ≤ k ∧ k < 16 then
          if k < 0 then "0." ++ String.ofList (List.replicate (-k - 1).toNat '0' ++ digits)
          else
            let n := k.toNat + 1
            let whole := digits.take n ++ List.replicate (n - digits.length) '0'
            let rest := digits.drop n
            String.ofList whole ++ "." ++ (if rest.isEmpty then "0" else String.ofList rest)
        else
          let head := digits.take 1
          let rest := digits.drop 1
          String.ofList head ++ (if rest.isEmpty then "" else "." ++ String.ofList rest) ++ exponentText k
      sign ++ body

/-- The value with `places` decimals, a half going to the even last digit; the
sign is written also for a zero. -/
def fixed (places : Nat) (x : Double) : String :=
  match x with
  | .nan => "nan"
  | .inf n => if n then "-inf" else "inf"
  | x =>
    let q := (x.toRat?.getD 0) * tenPow places
    let d := toString (roundDiv q.num.natAbs q.den)
    let d := String.ofList (List.replicate (places + 1 - d.length) '0') ++ d
    let cs := d.toList
    let n := cs.length - places
    (if x.isNegative then "-" else "") ++ String.ofList (cs.take n) ++
      (if places = 0 then "" else "." ++ String.ofList (cs.drop n))

instance : Add Double := ⟨add⟩
instance : Sub Double := ⟨sub⟩
instance : Mul Double := ⟨mul⟩
instance : Div Double := ⟨div⟩
instance : IntCast Double := ⟨fun n => ofRat n⟩

end Double

end FactorPlan
