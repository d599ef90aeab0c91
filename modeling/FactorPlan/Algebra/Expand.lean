import FactorPlan.Algebra.Fraction

/-!
Expansion: products of sums are multiplied out, whole powers of sums too, and the
logarithm of a product of positive factors becomes a sum.

Correspondence:
  `expand`                               ↔ `expand`
  `expand_mul`, `_mexpand`, `expand_log` ↔ `expandProducts`, `expandPowers`, `expandLogs`
  `Mul._eval_expand_mul`                 ↔ `expandProduct`
  `Pow._eval_expand_multinomial`         ↔ `expandPower`
-/

namespace FactorPlan

namespace Expr

/-- The products of one term from each sum; the lists are halved, so that terms
collect early. -/
def crossTerms : Nat → List (List Expr) → List Expr
  | 0, _ => []
  | _, [] => [one]
  | _, [ts] => ts
  | fuel + 1, sums =>
    let l := crossTerms fuel (sums.take (sums.length / 2))
    let r := crossTerms fuel (sums.drop (sums.length / 2))
    (sumOf (l.flatMap (fun a => r.map (fun b => productOf [a, b])))).terms

/-- Multiplies out the sums among the factors of a product. -/
def multiplyOut (e : Expr) : Expr :=
  match e with
  | .product fs =>
    let isOpen (f : Expr) : Bool := f.isSum || !f.commutes
    if fs.any (·.isSum) then
      let plain := productOf (fs.filter (!isOpen ·))
      let sums := (fs.filter isOpen).map (fun f => if f.isSum then f.terms else [f])
      sumOf ((crossTerms (sums.length + 1) sums).map (fun t => productOf [plain, t]))
    else e
  | e => e

/-- Multiplies out a product; a denominator that is a product is multiplied out
first. -/
def expandProduct (e : Expr) : Expr :=
  if e.isProduct then
    let (n, d) := e.fraction
    let (n, d) := if d.isProduct then (multiplyOut n, multiplyOut d) else (n, d)
    multiplyOut (div n d)
  else e

/-- Multiplies out a whole power of a sum. -/
def expandPower (e : Expr) : Expr :=
  match e with
  | .power (.sum ts) (.scalar (.exact q)) =>
    if q.den = 1 then
      let n := q.num.natAbs
      if 0 < q then sumOf (crossTerms (n + 1) (List.replicate n ts))
      else if 1 < n then pow (sumOf (crossTerms (n + 1) (List.replicate n ts))) negOne
      else e
    else e
  | .power (.scalar b) (.sum xs) =>
    if b.isZero then e else productOf (xs.map (fun x => pow (.scalar b) x))
  | e => e

/-- The largest way of writing a natural number as a power: base and exponent. -/
def perfectPower (n : Nat) : Nat × Nat :=
  let found := (List.range (n.log2 + 1)).reverse.findSome? (fun k =>
    if 2 ≤ k then (Scalar.exactRoot n k).map (·, k) else none)
  found.getD (n, 1)

/-- The logarithm of a number or of a product of positive factors as a sum. -/
def expandLog : Nat → Expr → Expr
  | 0, e => e
  | fuel + 1, e =>
    match e with
    | .apply .log [.scalar (.exact q)] =>
      if q.den = 1 then
        let (b, k) := perfectPower q.num.natAbs
        if k = 1 then e else mul (ofInt k) (logOf (ofInt b))
      else sub (expandLog fuel (logOf (ofInt q.num))) (expandLog fuel (logOf (ofInt q.den)))
    | .apply .log [.product fs] =>
      let positive := fs.filter (·.facts.positive)
      let negative := fs.filter (fun f => !f.facts.positive && f.facts.negative)
      let unknown := fs.filter (fun f => !f.facts.positive && !f.facts.negative)
      if positive.isEmpty && negative.isEmpty then e
      else
        let outside := positive.map (fun f => expandLog fuel (logOf f)) ++ negative.map (fun f => logOf (neg f))
        sumOf (outside ++ [logOf (productOf (negative.map (fun _ => negOne) ++ unknown))])
    | .apply .log [.power b x] =>
      let inside := x.facts.real = some true &&
        (b.facts.positive || ((add x one).facts.positive && (sub x one).facts.nonpos))
      if inside then mul x (expandLog fuel (logOf b)) else e
    | e => e

/-- Applies a rule at every node from the bottom up. -/
def everywhere (rule : Expr → Expr) (e : Expr) : Expr := mapBottomUp rebuild rule e

/-- Repeats a step until nothing changes, `fuel` times at most. -/
def untilStable (step : Expr → Expr) : Nat → Expr → Expr
  | 0, e => e
  | fuel + 1, e =>
    let r := step e
    if r = e then e else untilStable step fuel r

/-- Multiplies out all products of sums. -/
def expandProducts (e : Expr) : Expr := untilStable (everywhere expandProduct) 16 e

/-- Multiplies out whole powers of sums, then products of sums. -/
def expandPowers (e : Expr) : Expr := expandProducts (everywhere expandPower e)

/-- Expands the logarithms in an expression. -/
def expandLogs (e : Expr) : Expr := everywhere (fun x => expandLog (x.size + 2) x) e

/-- Expands an expression in every way. -/
def expand (e : Expr) : Expr :=
  untilStable (fun x => expandLogs (everywhere expandProduct (everywhere expandPower x))) 16
    (everywhere expandProduct (everywhere expandPower (expandLogs e)))

end Expr

end FactorPlan
