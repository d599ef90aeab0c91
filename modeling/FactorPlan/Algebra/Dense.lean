/-!
Polynomials with whole coefficients in several variables, and their greatest
common divisor. A polynomial in `n + 1` variables is the list of its coefficients
by powers of the first variable, lowest first, each a polynomial in the other `n`
variables; no such list ends with zero.

Correspondence:
  `dmp_add`, `dmp_mul`, `dmp_neg` ↔ `add`, `mul`, `neg`
  `dmp_exquo`, `dmp_prem`         ↔ `divide`, `pseudoRemainder`
  `dmp_gcd`                       ↔ `gcd`
-/

namespace FactorPlan

/-- Polynomials in `n` variables. -/
def Dense : Nat → Type
  | 0 => Int
  | n + 1 => List (Dense n)

namespace Dense

/-! ## Lists of coefficients -/

/-- Drops zeros at the end. -/
def trim {α : Type} (isZero : α → Bool) : List α → List α
  | [] => []
  | a :: as =>
    match trim isZero as with
    | [] => if isZero a then [] else [a]
    | bs => a :: bs

/-- Adds coefficient by coefficient. -/
def addLists {α : Type} (add : α → α → α) : List α → List α → List α
  | [], bs => bs
  | as, [] => as
  | a :: as, b :: bs => add a b :: addLists add as bs

/-- Multiplies every coefficient of one list with every one of the other. -/
def mulLists {α : Type} (add mul : α → α → α) (zero : α) : List α → List α → List α
  | [], _ => []
  | a :: as, bs => addLists add (bs.map (mul a)) (zero :: mulLists add mul zero as bs)

/-! ## Arithmetic -/

def zero : (n : Nat) → Dense n
  | 0 => (0 : Int)
  | n + 1 => ([] : List (Dense n))

/-- A whole number as a polynomial. -/
def ofInt : (n : Nat) → Int → Dense n
  | 0, c => c
  | n + 1, c => if c = 0 then ([] : List (Dense n)) else [ofInt n c]

def isZero : (n : Nat) → Dense n → Bool
  | 0, (c : Int) => c == 0
  | _ + 1, cs => List.isEmpty cs

def neg : (n : Nat) → Dense n → Dense n
  | 0, (c : Int) => (-c : Int)
  | n + 1, (cs : List (Dense n)) => cs.map (neg n)

def add : (n : Nat) → Dense n → Dense n → Dense n
  | 0, (a : Int), (b : Int) => (a + b : Int)
  | n + 1, (as : List (Dense n)), (bs : List (Dense n)) => trim (isZero n) (addLists (add n) as bs)

def mul : (n : Nat) → Dense n → Dense n → Dense n
  | 0, (a : Int), (b : Int) => (a * b : Int)
  | n + 1, (as : List (Dense n)), (bs : List (Dense n)) =>
    trim (isZero n) (mulLists (add n) (mul n) (zero n) as bs)

def sub (n : Nat) (a b : Dense n) : Dense n := add n a (neg n b)

/-- The coefficient of the leading term, earlier variables counting more. -/
def leading : (n : Nat) → Dense n → Int
  | 0, (c : Int) => c
  | n + 1, (cs : List (Dense n)) =>
    match cs.getLast? with
    | some c => leading n c
    | none => 0

/-! ## Division -/

/-- Divides lists of coefficients; none when the division leaves a remainder. The
dividend loses its leading coefficient in each of at most `fuel` steps. -/
def divideLists {α : Type} (isZero : α → Bool) (sub mul : α → α → α) (zero : α)
    (divide : α → α → Option α) (bs : List α) : Nat → List α → Option (List α)
  | 0, as => if as.isEmpty then some [] else none
  | fuel + 1, as =>
    match as.getLast?, bs.getLast? with
    | none, _ => some []
    | _, none => none
    | some a, some b =>
      if as.length < bs.length then none
      else
        match divide a b with
        | none => none
        | some q =>
          let shift := as.length - bs.length
          let taken := List.replicate shift zero ++ bs.map (mul q)
          let rest := trim isZero (addLists sub as.dropLast taken.dropLast)
          (divideLists isZero sub mul zero divide bs fuel rest).map (fun qs =>
            qs ++ List.replicate (shift - qs.length) zero ++ [q])

/-- The quotient of two polynomials, if the second divides the first. -/
def divide : (n : Nat) → Dense n → Dense n → Option (Dense n)
  | 0, (a : Int), (b : Int) => if b = 0 then none else if a % b = 0 then some (a / b : Int) else none
  | n + 1, (as : List (Dense n)), (bs : List (Dense n)) =>
    divideLists (isZero n) (sub n) (mul n) (zero n) (divide n) bs (as.length + 1) as

/-- The remainder of a division in which the dividend is multiplied by leading
coefficients of the divisor as needed, in at most `fuel` steps. -/
def pseudoRemainder (n : Nat) (bs : List (Dense n)) : Nat → List (Dense n) → List (Dense n)
  | 0, as => as
  | fuel + 1, as =>
    match as.getLast?, bs.getLast? with
    | some a, some b =>
      if as.length < bs.length then as
      else
        let taken := List.replicate (as.length - bs.length) (zero n) ++ bs.map (mul n a)
        let rest := addLists (sub n) (as.dropLast.map (mul n b)) taken.dropLast
        pseudoRemainder n bs fuel (trim (isZero n) rest)
    | _, _ => as

/-! ## Greatest common divisor -/

/-- The greatest common divisor of a list of coefficients. -/
def contentOf (n : Nat) (gcd : Dense n → Dense n → Dense n) (as : List (Dense n)) : Dense n :=
  as.foldl gcd (zero n)

/-- Divides all coefficients by a common divisor. -/
def divideAll (n : Nat) (d : Dense n) (as : List (Dense n)) : List (Dense n) :=
  as.map (fun a => (divide n a d).getD a)

/-- The greatest common divisor of two polynomials without common coefficients,
by the sequence of remainders, each reduced by its content. -/
def remainders (n : Nat) (gcd : Dense n → Dense n → Dense n) :
    Nat → List (Dense n) → List (Dense n) → List (Dense n)
  | 0, _, _ => [ofInt n 1]
  | fuel + 1, as, bs =>
    match bs with
    | [] => as
    | [_] => [ofInt n 1]
    | bs =>
      let r := pseudoRemainder n bs (as.length + 1) as
      remainders n gcd fuel bs (divideAll n (contentOf n gcd r) r)

/-- The greatest common divisor. -/
def gcd : (n : Nat) → Dense n → Dense n → Dense n
  | 0, (a : Int), (b : Int) => ((Int.gcd a b : Nat) : Int)
  | n + 1, (as : List (Dense n)), (bs : List (Dense n)) =>
    if as.isEmpty then bs
    else if bs.isEmpty then as
    else
      let ca := contentOf n (gcd n) as
      let cb := contentOf n (gcd n) bs
      let c := gcd n ca cb
      let pa := divideAll n ca as
      let pb := divideAll n cb bs
      let (pa, pb) := if pa.length < pb.length then (pb, pa) else (pa, pb)
      (remainders n (gcd n) (pa.length + pb.length + 1) pa pb).map (mul n c)

/-! ## Monomials -/

/-- A number times powers of the variables, the exponent of the first variable
first. -/
def monomial : (n : Nat) → List Nat → Int → Dense n
  | 0, _, c => c
  | n + 1, exps, c =>
    if c = 0 then ([] : List (Dense n))
    else List.replicate (exps.headD 0) (zero n) ++ [monomial n exps.tail c]

/-- The sum of the listed monomials. -/
def ofTerms (n : Nat) (ts : List (List Nat × Int)) : Dense n :=
  ts.foldl (fun p t => add n p (monomial n t.1 t.2)) (zero n)

/-- The monomials of a polynomial, the leading one first. -/
def toTerms : (n : Nat) → Dense n → List (List Nat × Int)
  | 0, (c : Int) => if c = 0 then [] else [([], c)]
  | n + 1, (cs : List (Dense n)) =>
    (cs.mapIdx (fun i c => (toTerms n c).map (fun t => (i :: t.1, t.2)))).reverse.flatten

end Dense

end FactorPlan
