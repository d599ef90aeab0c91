import FactorPlan.Expr.Facts

/-!
Sums, products and powers that evaluate as they are built. Equal terms of a sum
are collected, equal bases of a product get one exponent, numbers are computed,
and the parts are put into canonical order with the number first. A number times
a sum is distributed over the sum.

Correspondence:
  `Add.flatten`                                   ↔ `sumOf`
  `Mul.flatten`                                   ↔ `productOf`
  `Pow.__new__`, `Pow._eval_power`                ↔ `powerOfBase`
  `Integer._eval_power`, `Float._eval_power`      ↔ `scalarPower`
  `_keep_coeff`                                   ↔ `keepCoeff`
  `Expr.__add__`, `__mul__`, `__pow__`, `__neg__` ↔ `add`, `mul`, `pow`, `neg`
-/

namespace FactorPlan

namespace Scalar

/-- The `n`-th root of a natural number, if it is one: a search among `0 .. m`
by halving, with `fuel` steps. -/
def exactRoot (m n : Nat) : Option Nat :=
  let rec go : Nat → Nat → Nat → Option Nat
    | 0, lo, _ => if lo.pow n = m then some lo else none
    | fuel + 1, lo, hi =>
      let mid := (lo + hi) / 2
      if mid.pow n = m then some mid
      else if mid.pow n < m then go fuel (mid + 1) hi else go fuel lo mid
  go (m.log2 + 2) 0 (m + 1)

/-- Whole powers of a rational; none for zero to a negative power. -/
def ratPow? (q : Rat) (n : Int) : Option Rat :=
  if 0 ≤ n then some (q ^ n.toNat)
  else if q = 0 then none
  else some (1 / q ^ (-n).toNat)

end Scalar

namespace Expr

/-! ## Powers of numbers -/

/-- The power of two scalars where it is a number again; none where the power is
kept as it stands. -/
def scalarPower (b e : Scalar) : Option Expr :=
  if b.isZero then
    if e.isPositive then some (.scalar b) else if e.isNegative then some undirected else none
  else
    match b, e with
    | .nan, _ => some nan
    | _, .nan => some nan
    | .exact p, .exact q =>
      if q.den = 1 then (Scalar.ratPow? p q.num).map ofRat
      else if 0 < p then
        match Scalar.exactRoot p.num.natAbs q.den, Scalar.exactRoot p.den q.den with
        | some n, some d => (Scalar.ratPow? (mkRat n d) q.num).map ofRat
        | _, _ => none
      else none
    | .inf n, e =>
      if e.isNegative then some zero
      else if !n then some (.scalar (.inf false))
      else match e.toInt? with
        | some k => some (.scalar (.inf (k % 2 != 0)))
        | none => none
    | b, .inf n =>
      let big := Scalar.one.lt b.abs
      if b.isNegative then (if big != n then some undirected else some zero)
      else if b.sameValue .one then some nan
      else some (if big != n then .scalar (.inf false) else zero)
    | b, e =>
      match b, e with
      | .binary x, .exact q =>
        if q.den = 1 then some (.scalar (.ofBinary (x.powInt q.num)))
        else if x.isPositive then some (.scalar (.ofBinary (Binary.pow x.toRat (Binary.ofRat q).toRat)))
        else none
      | b, e =>
        let x := b.toBinary
        let y := e.toBinary
        if y.isWhole then some (.scalar (.ofBinary (x.powInt y.toRat.num)))
        else if x.isPositive then some (.scalar (.ofBinary (Binary.pow x.toRat y.toRat)))
        else none

/-! ## Sums -/

/-- Adds `c` to the coefficient listed for `s`; a new entry goes to the end. -/
def addCoeff (s : Expr) (c : Scalar) : List (Expr × Scalar) → List (Expr × Scalar)
  | [] => [(s, c)]
  | (t, d) :: rest => if t = s then (t, d.add c) :: rest else (t, d) :: addCoeff s c rest

/-- A power of a number that has a value. -/
def openPower? : Expr → Option Expr
  | .power (.scalar b) (.scalar e) =>
    if e.isInteger || (e.isExact && e.isNegative) then scalarPower b e else none
  | _ => none

/-- What a term contributes at a later place: the terms of a nested sum, or the
value of a power of numbers. -/
def nestedTerms (e : Expr) : List Expr :=
  match e with
  | .sum ts => ts
  | e => (openPower? e).toList

/-- The terms with nested sums opened; opened terms come after the others. -/
def spreadTerms : Nat → List Expr → List Expr
  | 0, es => es
  | fuel + 1, es =>
    let now := es.filter (fun e => !e.isSum && (openPower? e).isNone)
    let later := es.flatMap nestedTerms
    if later.isEmpty then now else now ++ spreadTerms fuel later

/-- The number and the collected terms of a sum. The number is none for the
undirected infinity. -/
structure Collected where
  number : Option Scalar := some .zero
  terms : List (Expr × Scalar) := []

/-- Takes one more term; none when the sum is not a number. -/
def Collected.add (c : Collected) : Expr → Option Collected
  | .scalar s =>
    match c.number with
    | some n =>
      let r := n.add s
      if r = .nan then none else some { c with number := some r }
    | none => if s.isFinite then some c else none
  | .constant .undirected =>
    match c.number with
    | some n => if n.isFinite then some { c with number := none } else none
    | none => none
  | e =>
    let (k, s) := match e with
      | .product _ => e.splitCoeff
      | _ => (.one, e)
    some { c with terms := addCoeff s k c.terms }

/-- A number times an expression that is no number. -/
def scaled (c : Scalar) (s : Expr) : Expr :=
  if c = .one then s
  else match s with
    | .product fs => .product (.scalar c :: fs)
    | s => .product [.scalar c, s]

/-- The terms that remain beside the number of the sum: an infinity swallows the
finite real ones. -/
def beside (number : Option Scalar) (ts : List Expr) : List Expr :=
  match number with
  | some (.inf false) =>
    ts.filter (fun t => let f := t.facts; !(f.nonneg || f.real == some true))
  | some (.inf true) =>
    ts.filter (fun t => let f := t.facts; !(f.nonpos || f.real == some true))
  | none => ts.filter (fun t => !t.isNumber)
  | _ => ts

/-- The evaluated sum of the listed terms. -/
def sumOf (es : List Expr) : Expr :=
  let es := es.filter (· ≠ zero)
  match es with
  | [] => zero
  | [a] => a
  | [a, b] =>
    if b.isExact && a.isProduct then .sum [b, a]
    else if a.isExact && b.isProduct then .sum [a, b]
    else general [a, b]
  | es => general es
where
  general (es : List Expr) : Expr :=
    match (spreadTerms (sizeList es) es).foldlM Collected.add ({} : Collected) with
    | none => nan
    | some c =>
      let ts := (c.terms.filter (fun p => !p.2.isZero)).map (fun p => scaled p.2 p.1)
      let ts := sortCanonical (beside c.number ts)
      match c.number with
      | some n => if n = .zero then rawSum ts else rawSum (.scalar n :: ts)
      | none => rawSum (undirected :: ts)

/-! ## Products and powers -/

/-- The negative of an expression that is no sum. -/
def negateTerm : Expr → Expr
  | .scalar s => .scalar s.neg
  | .constant .undirected => undirected
  | .product (.scalar s :: rest) =>
    if s = .negOne then rawProduct rest else .product (.scalar s.neg :: rest)
  | .product fs => .product (negOne :: fs)
  | e => .product [negOne, e]

/-- A number times a factor, kept as a product where the factor is a sum. -/
def keepCoeff (c : Scalar) (e : Expr) : Expr :=
  if e = one then .scalar c
  else if c = .one then e
  else match e with
    | .scalar s => .scalar (c.mul s)
    | .sum ts =>
      if c = .negOne && commutesAll ts then
        let (r, rest) := splitConstant (.sum ts)
        let negated := sortCanonical (rest.terms.map negateTerm)
        if r.isZero then .sum negated else .sum (.scalar r.neg :: negated)
      else .product [.scalar c, .sum ts]
    | e =>
      if c = .negOne then negateTerm e
      else match e with
        | .product (.scalar s :: rest) =>
          let k := s.mul c
          if k.sameValue .one then rawProduct rest else .product (.scalar k :: rest)
        | .product fs => .product (.scalar c :: fs)
        | e => .product [.scalar c, e]

/-- An exact number times a sum, term by term. -/
def distribute (c : Scalar) (e : Expr) : Expr :=
  let (r, rest) := splitConstant e
  let ts := sortCanonical (rest.terms.map (keepCoeff c))
  let n := c.mul r
  if n.isZero then rawSum ts else rawSum (.scalar n :: ts)

/-- The factors with nested products opened; opened factors come after the
others. -/
def spreadFactors : Nat → List Expr → List Expr
  | 0, es => es
  | fuel + 1, es =>
    let now := es.filter (!·.isProduct)
    let later := es.flatMap (fun e => match e with | .product fs => fs | _ => [])
    if later.isEmpty then now else now ++ spreadFactors fuel later

/-- Exponents listed for a base, each as a number times a tail. -/
abbrev Powers := List (Expr × List (Expr × Scalar))

/-- Adds an exponent to those listed for a base. -/
def addExponent (b e : Expr) : Powers → Powers
  | [] => let (c, t) := e.splitCoeff; [(b, [(t, c)])]
  | (d, es) :: rest =>
    if d = b then
      let (c, t) := e.splitCoeff
      (d, addCoeff t c es) :: rest
    else (d, es) :: addExponent b e rest

/-- Adds an exact exponent to that listed for a number. -/
def addRoot (b : Rat) (e : Rat) : List (Rat × Rat) → List (Rat × Rat)
  | [] => [(b, e)]
  | (d, f) :: rest => if d = b then (d, f + e) :: rest else (d, f) :: addRoot b e rest

/-- What has been met of a product: its number (none for the undirected
infinity), powers of expressions, powers of numbers with a symbolic exponent,
roots of numbers, and the exponent of -1. -/
structure Gathered where
  number : Option Scalar := some .one
  powers : List (Expr × Expr) := []
  numberPowers : List (Expr × Expr) := []
  roots : List (Rat × Rat) := []
  turns : Rat := 0

/-- Multiplies the number; none when the product is not a number. -/
def Gathered.scale (g : Gathered) (s : Scalar) : Option Gathered :=
  match g.number with
  | some n =>
    let r := n.mul s
    if r = .nan then none else some { g with number := some r }
  | none => if s.isZero || s = .nan then none else some g

/-- Takes one more factor; none when the product is not a number. -/
def Gathered.mul (g : Gathered) (e : Expr) : Option Gathered :=
  match e with
  | .scalar s => g.scale s
  | .constant .undirected =>
    match g.number with
    | some n => if n.isZero then none else some { g with number := none }
    | none => some g
  | .constant .imaginary => some { g with turns := g.turns + 1 / 2 }
  | .power (.scalar b) (.scalar (.exact q)) =>
    match b with
    | .exact p =>
      if q.den = 1 then
        match scalarPower b (.exact q) with
        | some (.scalar v) => g.scale v
        | some (.constant .undirected) => some { g with number := none }
        | _ => none
      else
        let (p, q) := if p.num = 1 ∧ p.den ≠ 1 then ((p.den : Rat), -q) else (p, q)
        let whole : Int := q.floor
        let frac := q - (whole : Rat)
        let g := if p < 0 then { g with turns := g.turns + frac } else g
        match Scalar.ratPow? p whole with
        | some v =>
          let a := if p < 0 then -p else p
          let g := if a = 1 then g else { g with roots := addRoot a frac g.roots }
          g.scale (.exact v)
        | none => none
    | b =>
      match scalarPower b (.exact q) with
      | some (.scalar v) => g.scale v
      | _ => some { g with powers := g.powers ++ [(.scalar b, .scalar (.exact q))] }
  | .power (.scalar b) x =>
    let (b', x) := baseExponent (.power (.scalar b) x)
    if b.isPositive then some { g with numberPowers := g.numberPowers ++ [(b', x)] }
    else some { g with powers := g.powers ++ [(b', x)] }
  | e =>
    let (b, x) := e.baseExponent
    some { g with powers := g.powers ++ [(b, x)] }

/-- Whether a list of expressions has a repetition. -/
def hasRepeat : List Expr → Bool
  | [] => false
  | a :: as => as.contains a || hasRepeat as

/-- The sign that known factors give to an infinity, and the factors of unknown
sign. -/
def besideInfinity : List Expr → List Expr × Bool
  | [] => ([], false)
  | a :: as =>
    let (rest, flip) := besideInfinity as
    let f := a.facts
    if f.positive then (rest, flip)
    else if f.negative then (rest, !flip)
    else (a :: rest, flip)

/-- The factors by which a power of a product may be taken apart: the numbers and
others known not to be negative, and the rest. -/
def nonnegFactors (fs : List Expr) : List Expr × List Expr :=
  let nonneg := fs.filter (·.facts.nonneg)
  let other := fs.filter (fun f => !f.facts.nonneg && !f.facts.nonpos)
  let neg := fs.filter (fun f => !f.facts.nonneg && f.facts.nonpos)
  match neg, other with
  | [n], _ :: _ =>
    if n.isScalar && n ≠ negOne then (nonneg ++ [negateTerm n], other ++ [negOne])
    else (nonneg, other ++ [n])
  | neg, other =>
    if neg.length ≤ 1 then (nonneg, other ++ neg)
    else
      let (lead, neg') := match other, neg with
        | [], n :: rest => if n.isScalar then ([n], rest) else ([], neg)
        | _, _ => ([], neg)
      let sign := if neg'.length % 2 = 1 then [negOne] else []
      (nonneg ++ neg'.map negateTerm, other ++ lead ++ sign)

/-- The size of the largest coefficient in a sum with binary coefficients, when
it is not one. -/
def largestCoeff? (ts : List Expr) : Option Scalar :=
  let cs := ts.map (fun t => t.splitCoeff.1)
  if cs.any Scalar.isBinary then
    let big := cs.foldl (fun b c => if c.abs.lt b then b else c.abs) (.exact (-1))
    if big.isPositive && !big.sameValue .one then some big else none
  else none

mutual
/-- The evaluated product of the listed factors. -/
def productF : Nat → List Expr → Expr
  | 0, es => rawProduct es
  | fuel + 1, es =>
    let es := es.filter (· ≠ one)
    match es with
    | [] => one
    | [a] => a
    | [a, b] =>
      let (a, b) := if b.isExact then (b, a) else (a, b)
      match a with
      | .scalar (.exact q) =>
        if q = 0 then productGeneral fuel [a, b]
        else
          let (r, s) := b.splitCoeff
          if s.isSum && s.commutes then
            if r = .one then distribute (.exact q) s
            else
              let k := (Scalar.exact q).mul r
              if k = .one then s else .product [.scalar k, s]
          else productGeneral fuel [a, b]
      | a => productGeneral fuel [a, b]
    | es => productGeneral fuel es

/-- The product of the listed factors, from their powers. -/
def productGeneral : Nat → List Expr → Expr
  | 0, es => rawProduct es
  | fuel + 1, es =>
    let es := spreadFactors (sizeList es) es
    let fixed := joinFixed fuel [] (es.filter (!·.commutes))
    let es := es.filter (·.commutes) ++ fixed.filter (·.commutes)
    let fixed := fixed.filter (!·.commutes)
    match es.foldlM Gathered.mul ({} : Gathered) with
    | none => nan
    | some g =>
      let (number, parts) := collectPowers fuel 2 g.number g.powers
      let numberPowers := gatherExponents fuel g.numberPowers
      let bases := numberPowers.foldl (fun (acc : List (Expr × List Expr)) p =>
        if acc.any (·.1 = p.2) then acc.map (fun q => if q.1 = p.2 then (q.1, q.2 ++ [p.1]) else q)
        else acc ++ [(p.2, [p.1])]) []
      let parts := parts ++ (bases.filter (·.1 ≠ zero)).map
        (fun p => powerF fuel (productF fuel p.2) p.1)
      let (number, roots) := g.roots.foldl (fun (acc : Option Scalar × List Expr) p =>
        let whole : Int := p.2.floor
        let frac := p.2 - (whole : Rat)
        let number := acc.1.map (fun n => n.mul (.exact ((Scalar.ratPow? p.1 whole).getD 1)))
        if frac = 0 then (number, acc.2)
        else (number, acc.2 ++ [.power (ofRat p.1) (ofRat frac)])) (number, [])
      let whole : Int := g.turns.floor
      let frac := g.turns - (whole : Rat)
      let number := if whole % 2 = 0 then number else number.map Scalar.neg
      let turned : List Expr :=
        if frac = 0 then [] else if frac = 1 / 2 then [.constant .imaginary]
        else [.power negOne (ofRat frac)]
      finishProduct fuel number (parts ++ turned ++ roots) fixed

/-- Joins neighbouring powers of one base among the factors that keep their place;
`met` are those before, the last one first. -/
def joinFixed : Nat → List Expr → List Expr → List Expr
  | 0, met, es => met.reverse ++ es
  | _, met, [] => met.reverse
  | fuel + 1, [], e :: es => joinFixed fuel [e] es
  | fuel + 1, m :: met, e :: es =>
    let (b, x) := m.baseExponent
    let (c, y) := e.baseExponent
    let z := sumOf [x, y]
    if b = c ∧ ¬ z.isSum then
      let p := powerF fuel b z
      if p = one then joinFixed fuel met es else joinFixed fuel met (p :: es)
    else joinFixed fuel (e :: m :: met) es

/-- Puts number and factors of a product together. -/
def finishProduct : Nat → Option Scalar → List Expr → List Expr → Expr
  | 0, _, parts, fixed => rawProduct (parts ++ fixed)
  | fuel + 1, number, parts, fixed =>
    match number with
    | none =>
      rawProduct (undirected ::
        sortCanonical (parts.filter (fun p => !(p.facts.nonzero && p.facts.real.isSome))) ++ fixed)
    | some n =>
      if n.isZero then (if parts.any isInfinity then nan else .scalar n)
      else
        let (parts, flip) := if n.isInfinite then besideInfinity parts else (parts, false)
        let n := if flip then n.neg else n
        let n := parts.foldl (fun n p => match p with | .scalar s => n.mul s | _ => n) n
        let parts := sortCanonical (parts.filter (!·.isScalar))
        if n = .nan then nan
        else if n = .one then rawProduct (parts ++ fixed)
        else match parts, fixed with
          | [.sum ts], [] =>
            if n.isFinite then sumOf (ts.map (fun t => productF fuel [.scalar n, t]))
            else .product [.scalar n, .sum ts]
          | parts, fixed => rawProduct (.scalar n :: parts ++ fixed)

/-- Adds up the exponents of equal bases. -/
def gatherExponents : Nat → List (Expr × Expr) → List (Expr × Expr)
  | 0, ps => ps
  | fuel + 1, ps =>
    let table := ps.foldl (fun (t : Powers) p => addExponent p.1 p.2 t) []
    table.flatMap (fun p => p.2.map (fun q =>
      (p.1, if q.1 = one then .scalar q.2
            else if q.2.isZero then zero
            else productF fuel [.scalar q.2, q.1])))

/-- Takes the powers of gathered bases; where a base changes in the process and
meets an equal one, the bases are gathered again, `rounds` times at most. -/
def collectPowers : Nat → Nat → Option Scalar → List (Expr × Expr) → Option Scalar × List Expr
  | 0, _, number, ps => (number, ps.map (fun p => if p.2 = one then p.1 else .power p.1 p.2))
  | _, 0, number, ps => (number, ps.map (fun p => if p.2 = one then p.1 else .power p.1 p.2))
  | fuel + 1, rounds + 1, number, ps =>
    let ps := (gatherExponents fuel ps).filter (fun p => !p.2.facts.zero)
    let out := ps.map (fun p =>
      if p.2 = one then (p.1, p.1, p.2, false)
      else
        let q := powerF fuel p.1 p.2
        if q.isPower && !p.1.isPower then
          let (b, e) := q.baseExponent
          (q, b, e, b ≠ p.1)
        else (q, p.1, p.2, false))
    let changed := out.any (fun o => o.2.2.2)
    if changed && hasRepeat (out.map (fun o => o.2.1)) && 0 < rounds then
      collectPowers fuel rounds number (out.map (fun o => (o.2.1, o.2.2.1)))
    else
      let number := out.foldl (fun n o => match o.1, n with
        | .scalar s, some n => some (n.mul s)
        | _, n => n) number
      (number, (out.map (·.1)).filter (!·.isScalar))

/-- The evaluated power. -/
def powerF : Nat → Expr → Expr → Expr
  | 0, b, e => .power b e
  | fuel + 1, b, e =>
    if e = undirected then nan
    else if e = zero then one
    else if e = one then b
    else if scalarIs Scalar.isZero b && scalarIs (Scalar.sameValue .negOne) e then undirected
    else if b = nan || e = nan then nan
    else if b = one then (if e.isInfinity then nan else one)
    else
      let negative := match b with
        | .scalar s => s.isNegative
        | .product (.scalar s :: rest) => s.isNegative && allNumbers rest
        | _ => false
      match e with
      | .scalar (.exact q) =>
        if negative && q.den = 1 && !b.isInfinity then
          if q.num % 2 = 0 then powerOf fuel (negateTerm b) e
          else negateTerm (powerF fuel (negateTerm b) e)
        else powerOf fuel b e
      | e => powerOf fuel b e

/-- The power of a base by its kind. -/
def powerOf : Nat → Expr → Expr → Expr
  | 0, b, e => .power b e
  | fuel + 1, b, e =>
    if e = one then b else
    match b, e with
    | .scalar s, .scalar t => (scalarPower s t).getD (.power b e)
    | .constant .undirected, .scalar t =>
      if t.isPositive then undirected else if t.isNegative then zero else .power b e
    | .constant .imaginary, .scalar (.exact q) =>
      if q.den = 1 then
        let r := q.num % 4
        if r = 0 then one else if r = 1 then b else if r = 2 then negOne else .product [negOne, b]
      else .power b e
    | .product fs, .scalar t =>
      let fixed := fs.filter (!·.commutes)
      if t.isInteger then
        productF fuel ((fs.filter (·.commutes)).map (fun f => .power f e) ++
          (if fixed.isEmpty then [] else [.power (rawProduct fixed) e]))
      else if !fixed.isEmpty then .power b e
      else if t.isFinite then
        let (nonneg, other) := nonnegFactors fs
        let rest := if other.isEmpty then [] else [.power (productF fuel other) e]
        productF fuel (nonneg.map (fun f => powerF fuel f e) ++ rest)
      else .power b e
    | .power c x, e =>
      let joined := powerF fuel c (productF fuel [x, e])
      if e.isInteger then joined
      else
        match x with
        | .scalar s =>
          if s.abs.lt .one || s.sameValue .one || c.facts.nonneg then joined else .power b e
        | x => if x.facts.real = some true && c.facts.nonneg then joined else .power b e
    | .sum ts, .scalar t =>
      if t.isFinite && !t.abs.sameValue .one && !(t.isExact && allNumbers ts) then
        match largestCoeff? ts with
        | some big =>
          let ts := ts.map (fun u =>
            let (c, m) := u.splitCoeff
            let c := if c.abs.sameValue big then (if c.isNegative then Scalar.negOne else .one)
              else c.div big
            productF fuel [.scalar c, m])
          productF fuel [powerF fuel (.scalar big) e, powerF fuel (sumOf ts) e]
        | none => .power b e
      else .power b e
    | b, e => .power b e
end

/-- Steps enough to build a node over the listed arguments. -/
def budget (es : List Expr) : Nat := 16 + 8 * sizeList es

/-- The evaluated product of the listed factors. -/
def productOf (es : List Expr) : Expr := productF (budget es) es

/-- The evaluated power. -/
def powerOfBase (b e : Expr) : Expr := powerF (budget [b, e]) b e

def add (a b : Expr) : Expr := sumOf [a, b]
def mul (a b : Expr) : Expr := productOf [a, b]
def pow (b e : Expr) : Expr := powerOfBase b e

/-- The negative of an expression. -/
def neg : Expr → Expr
  | .sum ts => if commutesAll ts then productOf [negOne, .sum ts] else .product [negOne, .sum ts]
  | e => negateTerm e

def sub (a b : Expr) : Expr := sumOf [a, neg b]

/-- The quotient: a product with the reciprocal. -/
def div (a b : Expr) : Expr :=
  let r := pow b negOne
  if a = one then r else mul a r

end Expr

end FactorPlan
