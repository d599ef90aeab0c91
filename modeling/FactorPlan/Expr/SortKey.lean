import FactorPlan.Expr.Arith

/-!
The display order of expressions. A node has a key: the rank of its kind, its
name, the keys of its arguments, the key of its exponent and its coefficient, so
that multiples and powers of one expression stand together. Terms of a sum are
displayed by descending powers of their factors.

Correspondence:
  `default_sort_key`, `sort_key` ↔ `sortKey`
  `class_key`                    ↔ `displayKind`
  `as_ordered_terms`             ↔ `orderedTerms`
  `as_ordered_factors`           ↔ `orderedFactors`
  `as_terms`                     ↔ `termShape`
  `ordered`                      ↔ `sortDisplay`, `sortBySize`
-/

namespace FactorPlan

/-- A key of the display order. `label` is the text of a leaf; `exponent` has one
key, or none for a number. -/
inductive SortKey where
  | mk (rank sub : Nat) (name : String) (label : Option String) (args : List SortKey)
      (exponent : List SortKey) (coeff : Scalar)
  deriving Inhabited

namespace SortKey

/-- The key of a number. -/
def ofScalar (s : Scalar) : SortKey := .mk 1 0 "Number" none [] [] s

def one : SortKey := ofScalar .one

mutual
/-- The order of two keys. -/
def order : SortKey → SortKey → Ordering
  | .mk r s n l as e c, .mk r' s' n' l' as' e' c' =>
    (compare r r').then <| (compare s s').then <| (compare n n').then <|
    (compare (as.length + l.isSome.toNat) (as'.length + l'.isSome.toNat)).then <|
    (compare (l.getD "") (l'.getD "")).then <|
    (orderList as as').then <| (orderList e e').then (c.order c')

/-- The order of two lists of keys, from left to right, the shorter first. -/
def orderList : List SortKey → List SortKey → Ordering
  | [], [] => .eq
  | [], _ :: _ => .lt
  | _ :: _, [] => .gt
  | a :: as, b :: bs => (order a b).then (orderList as bs)
end

end SortKey

namespace Scalar

/-- The text of a scalar. With `short`, a binary number drops zeros at its end. -/
def text (s : Scalar) (short : Bool) : String :=
  match s with
  | .exact q => if q.den = 1 then toString q.num else toString q.num ++ "/" ++ toString q.den
  | .binary x => x.text short
  | .inf n => if n then "-oo" else "oo"
  | .nan => "nan"

end Scalar

namespace Expr

/-- The text of a leaf. -/
def atomText : Expr → String
  | .symbol n => n
  | .scalar s => s.text false
  | .constant .pi => "pi"
  | .constant .imaginary => "I"
  | .constant .undirected => "zoo"
  | .truth b => if b then "True" else "False"
  | _ => ""

/-- Rank, rank within it and name of the kind of a node, for display. -/
def displayKind (e : Expr) : Nat × Nat × String :=
  match e with
  | .scalar _ => (1, 0, "Number")
  | .symbol _ => (2, 0, e.kindName)
  | .constant _ => (2, 0, e.kindName)
  | .product _ => (3, 0, e.kindName)
  | .sum _ => (3, 1, e.kindName)
  | .power _ _ => (3, 2, e.kindName)
  | .apply (.named n) _ => (4, if n = "exp" then 10 else if n = "log" then 11 else 0, n)
  | .apply .log _ => (4, 11, e.kindName)
  | .apply .abs _ => (4, 10000, e.kindName)
  | .apply .floor _ => (4, 10000, e.kindName)
  | .apply .mod _ => (4, 10000, e.kindName)
  | e => (5, 0, e.kindName)

/-- A factor as a base with a whole exponent: `x ** (2*n)` is `x ** n` squared. -/
def wholePower (e : Expr) : Expr × Int :=
  let (b, x) := e.baseExponent
  match x with
  | .scalar (.exact q) =>
    if q.den = 1 then (b, q.num) else (.power b (ofRat (mkRat 1 q.den)), q.num)
  | .scalar _ => (e, 1)
  | x =>
    let (c, tail) := x.splitExactCoeff
    match c with
    | .exact q =>
      if q = -1 then (.power b tail, -1)
      else if q = 1 then (e, 1)
      else (.power b (keepCoeff (.exact (mkRat 1 q.den)) tail), q.num)
    | _ => (e, 1)

/-- A term as a real and an imaginary coefficient, whole powers of its other factors,
the last power of a base counting, and the factors that keep their place. -/
structure TermShape where
  re : Rat := 0
  im : Rat := 0
  powers : List (Expr × Int) := []
  fixed : List Expr := []

/-- The value of a number as real and imaginary part. -/
def complexValue? : Expr → Option (Rat × Rat)
  | .constant .imaginary => some (0, 1)
  | .scalar (.inf n) => some (if n then -(twoPow 1100) else twoPow 1100, 0)
  | e => e.approx.map (·, 0)

/-- Sets the power of a base. -/
def setPower (b : Expr) (n : Int) : List (Expr × Int) → List (Expr × Int)
  | [] => [(b, n)]
  | (d, m) :: rest => if d = b then (d, n) :: rest else (d, m) :: setPower b n rest

def termShape (t : Expr) : TermShape :=
  let (c, rest) := match t with
    | .scalar s => (s, one)
    | t => t.splitCoeff
  let start : TermShape := { re := (complexValue? (.scalar c)).map (·.1) |>.getD 0 }
  if rest = one then start
  else rest.factors.foldl (fun sh f =>
    match (if f.isNumber then complexValue? f else none) with
    | some (a, b) => { sh with re := sh.re * a - sh.im * b, im := sh.re * b + sh.im * a }
    | none =>
      if f.commutes then
        let (b, n) := f.wholePower
        { sh with powers := setPower b n sh.powers }
      else { sh with fixed := sh.fixed ++ [f] }) start

/-- The order of exponent lists, larger exponents first. -/
def descending : List Int → List Int → Ordering
  | a :: as, b :: bs => (compare b a).then (descending as bs)
  | _, _ => .eq

def ratOrder (a b : Rat) : Ordering := if a < b then .lt else if a = b then .eq else .gt

/-- Whether the sum is a positive number less a multiple of one factor, which is
displayed with the number first. -/
def numberFirst? (ts : List Expr) : Option (List Expr) :=
  let isNum (e : Expr) : Bool := e.isScalar || e == .constant .pi
  let ts := ts.filter isNum ++ ts.filter (!isNum ·)
  match ts with
  | [n, .product [a, b]] =>
    let (a, _) := if isNum a then (a, b) else if isNum b then (b, a) else (a, b)
    if isNum n && n.facts.positive && scalarIs Scalar.isNegative a then some ts else none
  | _ => none

mutual
/-- The display key of an expression. -/
def sortKeyF : Nat → Expr → SortKey
  | 0, _ => .one
  | fuel + 1, e =>
    match e with
    | .scalar s => .ofScalar s
    | .truth _ => let (r, s, n) := displayKind e; .mk r s n none [] [.one] .one
    | e =>
      if e.isLogical then
        let (r, s, n) := displayKind e
        .mk r s n none (e.args.map (sortKeyF fuel)) [.one] .one
      else
        let (c, b) := e.splitCoeff
        let (b, x) := match b with
          | .power b x => (b, x)
          | b => (b, one)
        let (r, s, n) := displayKind b
        let exponent := [sortKeyF fuel x]
        if b.isAtom then .mk r s n (some b.atomText) [] exponent c
        else
          let args := match b with
            | .sum _ => orderedTermsF fuel b
            | .product _ => orderedFactorsF fuel b
            | b => b.args
          .mk r s n none (args.map (sortKeyF fuel)) exponent c

/-- The terms of a sum in display order. -/
def orderedTermsF : Nat → Expr → List Expr
  | 0, e => e.terms
  | fuel + 1, e =>
    match numberFirst? e.terms with
    | some ts => if e.isSum then ts else e.terms
    | none =>
      let shapes := e.terms.map (fun t => (t, t.termShape))
      let bases := (shapes.flatMap (fun p => p.2.powers.map (·.1))).eraseDups
      let keyed := bases.map (fun b => (b, sortKeyF fuel b))
      let bases := (sortBy (fun a b => a.2.order b.2 != .gt) keyed).map (·.1)
      let exponents (sh : TermShape) : List Int := bases.map (fun b => (sh.powers.lookup b).getD 0)
      let keyed := shapes.map (fun p => (p.1, exponents p.2, p.2.fixed.map (sortKeyF fuel), p.2.re, p.2.im))
      let before (a b : Expr × List Int × List SortKey × Rat × Rat) : Bool :=
        ((descending a.2.1 b.2.1).then <|
          (SortKey.orderList a.2.2.1 b.2.2.1).then <|
          (compare (a.2.2.2.2 != 0).toNat (b.2.2.2.2 != 0).toNat).then <|
          (ratOrder a.2.2.2.2 b.2.2.2.2).then (ratOrder a.2.2.2.1 b.2.2.2.1)) != .gt
      (sortBy before keyed).map (·.1)

/-- The factors of a product in display order; a negative number shows as -1 and
its size. -/
def orderedFactorsF : Nat → Expr → List Expr
  | 0, e => e.factors
  | fuel + 1, e =>
    let fs : List Expr := match e.factors with
      | .scalar s :: rest =>
        if s.isNegative && s ≠ Scalar.negOne then negOne :: .scalar s.neg :: rest else .scalar s :: rest
      | fs => fs
    let keyed := (fs.filter (·.commutes)).map (fun f => (f, sortKeyF fuel f))
    (sortBy (fun a b => a.2.order b.2 != .gt) keyed).map (·.1) ++ fs.filter (!·.commutes)
end

/-- Steps enough to find the key of an expression. -/
def keyBudget (e : Expr) : Nat := 4 + 3 * e.size

def sortKey (e : Expr) : SortKey := sortKeyF (keyBudget e) e
def orderedTerms (e : Expr) : List Expr := orderedTermsF (keyBudget e) e
def orderedFactors (e : Expr) : List Expr := orderedFactorsF (keyBudget e) e

/-- Sorts expressions into display order. -/
def sortDisplay (es : List Expr) : List Expr :=
  let keyed := es.map (fun e => (e, e.sortKey))
  (sortBy (fun a b => a.2.order b.2 != .gt) keyed).map (·.1)

mutual
/-- Twice the number of nodes, a binary number counting half a node. -/
def weight : Expr → Nat
  | .scalar (.binary _) => 1
  | .sum ts => 2 + weightList ts
  | .product fs => 2 + weightList fs
  | .power b e => 2 + weight b + weight e
  | .apply _ as => 2 + weightList as
  | _ => 2

def weightList : List Expr → Nat
  | [] => 0
  | a :: as => weight a + weightList as
end

/-- Sorts expressions by their number of nodes, then into display order. -/
def sortBySize (es : List Expr) : List Expr :=
  let keyed := es.map (fun e => (e, e.weight, e.sortKey))
  (sortBy (fun a b => ((compare a.2.1 b.2.1).then (a.2.2.order b.2.2)) != .gt) keyed).map (·.1)

end Expr

end FactorPlan
