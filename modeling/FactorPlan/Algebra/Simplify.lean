import FactorPlan.Algebra.AbsProduct
import FactorPlan.Algebra.Cancel
import FactorPlan.Algebra.Connective
import FactorPlan.Algebra.Univariate

/-!
Simplification: of several equivalent forms of an expression the shortest is
chosen. The arguments of applied functions are simplified first; sums, products
and powers are cancelled, brought together, factored and expanded in turn.
Relations are brought into canonical form and solved where they are linear; under a
connective they are joined in pairs.

Correspondence:
  `simplify`                              ↔ `simplify`
  `bottom_up(expr, lambda w: w.normal())` ↔ `mapBottomUp` in `shortestForm`
  `ratio=1.7`                             ↔ `isLonger`
  `Relational._eval_simplify`             ↔ `relationF`
  `done()`                                ↔ `finish`
-/

namespace FactorPlan

namespace Expr

mutual
/-- Builds every node of an expression again. -/
def reevaluate : Expr → Expr
  | .sum ts => sumOf (reevaluateList ts)
  | .product fs => productOf (reevaluateList fs)
  | .power b x => pow (reevaluate b) (reevaluate x)
  | .apply f as => rebuild (.apply f as) (reevaluateList as)
  | e => e

def reevaluateList : List Expr → List Expr
  | [] => []
  | a :: as => reevaluate a :: reevaluateList as
end

/-- Joins the number of a product with its only other factor that is no power, if
that is a sum. -/
def joinNumber (e : Expr) : Expr :=
  match e with
  | .product (.scalar s :: fs) =>
    let isBare (f : Expr) : Bool := f.commutes && f.baseExponent.2 = one
    match fs.filter isBare with
    | [.sum ts] => productOf (productOf [.scalar s, .sum ts] :: fs.filter (!isBare ·))
    | _ => e
  | e => e

mutual
/-- Builds the sums and products of an expression again, down to their parts that
are neither, and joins numbers with sums. -/
def reevaluateOuter : Expr → Expr
  | .sum ts => sumOf (reevaluateOuterList ts)
  | .product fs => joinNumber (productOf (reevaluateOuterList fs))
  | e => e

def reevaluateOuterList : List Expr → List Expr
  | [] => []
  | a :: as => reevaluateOuter a :: reevaluateOuterList as
end

/-- Whether a product only puts a number before a sum. -/
def isHollow : Expr → Bool
  | .product [.scalar _, .sum ts] => commutesAll ts
  | _ => false

/-- The last step of simplification. -/
def finish (e : Expr) : Expr :=
  let e := reevaluate e
  shorter e [collectAbs e]

/-- Whether the expression holds a logarithm. -/
def hasLog (e : Expr) : Bool := e.has (fun x => match x with | .apply .log _ => true | _ => false)

/-- The shortest form of a sum, product or power whose parts are simplified. -/
def shortestForm (e : Expr) : Expr :=
  let e := if e.commutes then e else reevaluate e
  let e := mapBottomUp rebuild (fun x => if x.args.isEmpty then x else x.normal) e
  let (c, p) := (reevaluateOuter e).contentPrimitive true
  let e := productOf [.scalar c, p]
  let cancelled := cancel e
  let cancelled := shorter cancelled [cancel (expandPowers cancelled)]
  let joined := shorter (together e) [together cancelled]
  let e := factorTerms false (shorter joined [cancelled, e])
  let e := if e.hasLog then shorter (expandLogs e) [e] else e
  let short := shorter (reevaluate e) [reevaluateOuter e, e]
  let short := shorter short [cancel short]
  let short := shorter short [factorTerms true short, expandProducts short]
  let e := replace (fun x => if x.isHollow then some (productOf x.args) else none) short
  if e.leadsWithMinus then
    let (n, d) := e.fraction
    normalSign (div (neg n) (neg d))
  else e

/-- Whether a form is long compared with another: more than 17 operations for 10. -/
def isLonger (a b : Expr) : Bool := 17 * b.cost < 10 * a.cost

mutual
/-- The simplified expression, within `fuel` levels. -/
def simplifyF : Nat → Expr → Expr
  | 0, e => e
  | fuel + 1, e =>
    match e with
    | .truth _ => e
    | .apply (.rel r) as => relationF fuel r as
    | .apply .log as =>
      let s := expandLogs (rebuild e (as.map (simplifyF fuel)))
      shorter s [e]
    | .apply .max as => rebuild e (as.map (simplifyF fuel))
    | .apply .min as => rebuild e (as.map (simplifyF fuel))
    | e =>
      if e.isLogical then
        let e := splitBounds e
        let s := rebuild e (e.args.map (simplifyF fuel))
        if s.isLogical && !s.isRelation then joinConnective (rebuild s (s.args.map (simplifyF fuel)))
        else s
      else if e.facts.zero then (if e.isScalar then e else zero)
      else
        let start := collectAbs (normalSign e)
        if start.args.isEmpty then start
        else
          let inner := mapBottomUp rebuild (fun x =>
            match x with
            | .apply _ as =>
              if x.isLogical || as.isEmpty then x else rebuild x (as.map (simplifyF fuel))
            | x => x) start
          if inner.isSum || inner.isProduct || inner.isPower then
            let short := shortestForm inner
            finish (if isLonger short start then start else short)
          else finish inner

/-- The simplified relation between two expressions. -/
def relationF : Nat → Rel → List Expr → Expr
  | 0, r, as => .apply (.rel r) as
  | fuel + 1, r, as =>
    let e := Expr.apply (.rel r) as
    match rebuild e (as.map (simplifyF fuel)) with
    | .apply (.rel r') [a, b] =>
      if a.isLogical || b.isLogical then .apply (.rel r') [a, b]
      else
        let s := canonicalRelation (.apply (.rel r') [a, b])
        let s := canonicalRelation (solved s)
        let s := if isLonger s e || 10 * s.cost = 17 * e.cost then e else s
        if r = .eq then equality s else s
    | s => s
where
  /-- The relation solved for its symbols, where it is linear in them. -/
  solved (s : Expr) : Expr :=
    match s with
    | .apply (.rel r) [a, b] =>
      match s.freeSymbols, linear? (sub a b) with
      | [x], some l => solveOne r x l
      | [x], none =>
        match coefficients? x (sub a b) with
        | some cs => solvePowers r x cs
        | none => s
      | x :: y :: rest, some l => solveSeveral r (x :: y :: rest) l
      | _, _ => s
    | s => s
  /-- An equation in one symbol, solved for it. -/
  equality (s : Expr) : Expr :=
    match s with
    | .apply (.rel .eq) [a, b] =>
      match s.freeSymbols, linear? (.sum [a, neg b]) with
      | [x], some l =>
        let m := l.coeff x
        let t := if m.facts.nonzero then
            rebuild s [.symbol x, div (neg l.constant) m]
          else rebuild s [mul m (.symbol x), neg l.constant]
        canonicalRelation (if isLonger t s then s else t)
      | _, _ => canonicalRelation s
    | s => s
end

/-- The simplified expression. -/
def simplify (e : Expr) : Expr := simplifyF (2 * e.size + 8) e

end Expr

end FactorPlan
