import FactorPlan.Expr.Sign
import FactorPlan.Expr.Replace

/-!
Applied functions that evaluate as they are built: logarithm, absolute value,
largest and smallest, relations and the logical connectives. `rebuild` makes a
node of any kind over given arguments, evaluated; `refusal` says over which arguments
there is no such node, and `build` is the two together.

Correspondence:
  `expr.func(*args)`                  ↔ `build`, `rebuild`
  the errors that it raises           ↔ `refusal`
  `Relational.__new__`, `is_ge`       ↔ `relation`, `atLeast?`
  `Relational.canonical`              ↔ `canonicalRelation`
  `log.eval`                          ↔ `logOf`, `logBase`
  `And`, `Or`, `Not`, `Xor`           ↔ `andOf`, `orOf`, `notOf`, `xorOf`
  `MinMaxBase.__new__`                ↔ `extremum`
  `_find_localzeros`, `_is_connected` ↔ `extremes`, `connection`
  `_collapse_arguments`               ↔ `absorbAll`, `factorExtremes`, `dropDecided`
  `Abs.eval`                          ↔ `absOf`
  `signsimp`                          ↔ `normalSign`
  `sub_pre`, `sub_post`               ↔ `markMinus`, `unmarkMinus`
  `floor.eval`, `Mod.eval`            ↔ `floorOf`, `modOf`
-/

namespace FactorPlan

namespace Rel

/-- The relation with its sides exchanged. -/
def flip : Rel → Rel
  | .lt => .gt
  | .le => .ge
  | .gt => .lt
  | .ge => .le
  | r => r

/-- The relation that holds when this one does not. -/
def negate : Rel → Rel
  | .eq => .ne
  | .ne => .eq
  | .lt => .ge
  | .le => .gt
  | .gt => .le
  | .ge => .lt

end Rel

namespace Expr

/-! ## Order -/

/-- Whether `a ≥ b`, where it can be told: both sides are real and the sign of
their difference is known. -/
def atLeast? (a b : Expr) : Option Bool :=
  if a.facts.real = some true ∧ b.facts.real = some true then
    let d := (sub a b).facts
    if d.nonneg then some true else if d.negative then some false else none
  else none

/-- Whether a relation between two expressions holds, where it can be told. -/
def holds? (r : Rel) (a b : Expr) : Option Bool :=
  match r with
  | .ge => atLeast? a b
  | .le => atLeast? b a
  | .gt => (atLeast? b a).map (!·)
  | .lt => (atLeast? a b).map (!·)
  | .eq => equal? a b
  | .ne => (equal? a b).map (!·)
where
  /-- Whether two expressions have the same value, where it can be told. -/
  equal? (a b : Expr) : Option Bool :=
    if a = b then some true
    else match a, b with
      | .truth _, .truth _ => some false
      | a, b =>
        if !(a.isSymbol || b.isSymbol) && a.isLogical != b.isLogical then some false
        else if a.isLogical || b.isLogical then none
        else if a.isInfinity != b.isInfinity && a.isNumber && b.isNumber then some false
        else
          let d := (sub a b).facts
          if d.zero then some true else if d.nonzero then some false else none

/-- The relation between two expressions, or its truth value. -/
def relation (r : Rel) (a b : Expr) : Except BuildError Expr :=
  match r with
  | .eq => .ok ((holds? .eq a b).elim (.apply (.rel .eq) [a, b]) .truth)
  | .ne => .ok ((holds? .ne a b).elim (.apply (.rel .ne) [a, b]) .truth)
  | r =>
    if [a, b].any (fun e => e.facts.real = some false || e = nan || e.isLogical) then .error .wrongKind
    else .ok ((holds? r a b).elim (.apply (.rel r) [a, b]) .truth)

/-! ## Logarithm -/

/-- The evaluated natural logarithm. -/
def logOf : Expr → Expr
  | .scalar s =>
    match s with
    | .exact q =>
      if q = 0 then undirected
      else if q = 1 then zero
      else if 0 < q then positiveLog q
      else sumOf [productOf [.constant .pi, .constant .imaginary], positiveLog (-q)]
    | .binary x =>
      if x.isZero then undirected
      else if x.isNegative then
        sumOf [productOf [.constant .pi, .constant .imaginary], .scalar (.ofBinary (Binary.ln (-x.toRat)))]
      else .scalar (.ofBinary (Binary.ln x.toRat))
    | .inf _ => .scalar (.inf false)
    | .nan => nan
  | .constant .undirected => undirected
  | e =>
    if e.isNumber && e.facts.negative then
      sumOf [productOf [.constant .pi, .constant .imaginary], .apply .log [neg e]]
    else .apply .log [e]
where
  /-- The logarithm of a positive rational; that of a reciprocal is negative. -/
  positiveLog (q : Rat) : Expr :=
    if q = 1 then zero
    else if q.num = 1 then neg (.apply .log [ofInt q.den]) else .apply .log [ofRat q]

/-- How often `b` divides `n`. -/
def multiplicity (b n : Nat) : Nat :=
  let rec go : Nat → Nat → Nat → Nat
    | 0, _, k => k
    | fuel + 1, n, k => if n % b = 0 then go fuel (n / b) (k + 1) else k
  if b < 2 then 0 else go n.log2.succ n 0

/-- The logarithm to a given base. -/
def logBase (e b : Expr) : Expr :=
  if b = one then (if e = one then nan else undirected)
  else match e.scalar?.bind Scalar.toInt?, b.scalar?.bind Scalar.toInt? with
    | some n, some m =>
      let k := if 0 < n ∧ 1 < m then multiplicity m.toNat n.toNat else 0
      let rest := div (logOf (div e (pow b (ofInt k)))) (logOf b)
      if k = 0 then rest else sumOf [ofInt k, rest]
    | _, _ => div (logOf e) (logOf b)

/-! ## Logical connectives -/

/-- The canonical form of a relation: a number goes to the right, otherwise the
sides stand in order, and a leading minus is removed from both. -/
def canonicalRelation : Expr → Expr
  | .apply (.rel r) [a, b] =>
    let (r, a, b) :=
      if b.isNumber then
        match a, b with
        | .scalar s, .scalar t => if t.lt s then (r.flip, b, a) else (r, a, b)
        | _, _ => (r, a, b)
      else if a.isNumber then (r.flip, b, a)
      else if sortBySize [a, b] != [a, b] then (r.flip, b, a)
      else (r, a, b)
    if a.isLogical || b.isLogical then .apply (.rel r) [a, b]
    else if a.leadsWithMinus then .apply (.rel r.flip) [neg a, neg b]
    else if !b.isNumber && b.leadsWithMinus && (sortBySize [a, neg b]).head? != some a then
      .apply (.rel r) [neg b, neg a]
    else .apply (.rel r) [a, b]
  | e => e

/-- The relation that holds when the given one does not. -/
def negatedRelation : Expr → Expr
  | .apply (.rel r) as => .apply (.rel r.negate) as
  | e => e

/-- Drops relations that repeat one already met; none when one contradicts it. -/
def mergeRelations : List Expr → List Expr → Option (List Expr)
  | _, [] => some []
  | seen, e :: rest =>
    if e.isRelation then
      let c := canonicalRelation e
      if seen.contains c then mergeRelations seen rest
      else if seen.contains (canonicalRelation (negatedRelation c)) then none
      else (mergeRelations (c :: seen) rest).map (e :: ·)
    else (mergeRelations seen rest).map (e :: ·)

/-- A conjunction (`unit` true) or disjunction (`unit` false) of logical
expressions and symbols. -/
def connect (f : Func) (unit : Bool) (es : List Expr) : Expr :=
  let es := es.flatMap (fun e => match e with
    | .apply g as => if g = f then as else [e]
    | e => [e])
  if es.contains (.truth !unit) then .truth !unit
  else
    let es := (es.filter (· ≠ .truth unit)).eraseDups
    match mergeRelations [] (if unit then sortBySize es else es) with
    | none => .truth !unit
    | some [] => .truth unit
    | some [e] => e
    | some es => .apply f (sortBySize es)

/-- The truth value that a number stands for among logical expressions. -/
def asTruth (e : Expr) : Expr :=
  if e = zero then .truth false else if e = one then .truth true else e

def andOf (es : List Expr) : Expr := connect .and true es
def orOf (es : List Expr) : Expr := connect .or false es

/-- The evaluated negation. -/
def notOf : Expr → Expr
  | .truth b => .truth !b
  | .apply .not [e] => e
  | e => if e.isRelation then negatedRelation e else .apply .not [e]

/-- Puts an expression into a list, or takes it out if it is there. -/
def toggle (es : List Expr) (e : Expr) : List Expr :=
  if es.contains e then es.erase e else es ++ [e]

/-- The evaluated exclusive disjunction. -/
def xorOf (es : List Expr) : Expr :=
  let es := es.flatMap (fun e => match e with
    | .apply .xor as => as
    | e => [e])
  let es := (es.filter (· ≠ .truth false)).foldl toggle []
  let flip := es.contains (.truth true)
  match es.filter (· ≠ .truth true) with
  | [] => .truth flip
  | [e] => if flip then notOf e else e
  | es =>
    let x := .apply .xor (sortBySize es)
    if flip then .apply .not [x] else x

/-! ## Largest and smallest -/

/-- How two arguments of a largest or smallest are connected. -/
inductive Connection where
  | none | same | larger | smaller
  deriving DecidableEq

/-- Whether two expressions are comparable: equal, or the first is the larger or
the smaller. -/
def connection (x y : Expr) : Connection :=
  if x = y then .same
  else match atLeast? x y with
    | some true => .larger
    | some false => .smaller
    | none =>
      match atLeast? y x with
      | some true => .smaller
      | some false => .larger
      | none =>
        let d := sub x y
        if d = zero then .same
        else match atLeast? d zero with
          | some true => .larger
          | some false => .smaller
          | none =>
            match atLeast? zero d with
            | some true => .smaller
            | some false => .larger
            | none => .none

/-- The extreme values among the arguments, each new one taking the place of those
it exceeds. -/
def extremes (larger : Bool) (es : List Expr) : List Expr :=
  es.foldl (fun zs v =>
    if zs.contains v then zs
    else
      let cs := zs.map (fun z => (z, connection v z))
      let wins (c : Connection) : Bool :=
        c = .same || c = (if larger then Connection.larger else Connection.smaller)
      if cs.any (fun p => p.2 ≠ .none) then
        let kept := (cs.filter (fun p => !wins p.2)).map (·.1)
        if cs.any (fun p => wins p.2) then kept ++ [v] else kept
      else zs ++ [v]) []

/-- The other of largest and smallest. -/
def otherExtreme : Func → Func
  | .max => .min
  | _ => .max

/-- The arguments that are not implied by a simpler one: of an argument `a`, a
nested extreme of the other kind that holds `a` too is dropped, and one of the
same kind loses `a`. -/
def absorb (f : Func) (a : Expr) : Nat → Expr → Expr
  | 0, e => e
  | fuel + 1, e =>
    match e with
    | .apply g as =>
      if g = .max ∨ g = .min then
        if !as.contains a then .apply g (as.map (absorb f a fuel))
        else if g = f then
          match (as.filter (· ≠ a)).map (absorb f a fuel) with
          | [b] => b
          | bs => .apply g bs
        else a
      else e
    | e => e

/-- Lets each argument absorb the later ones. -/
def absorbAll (f : Func) : Nat → List Expr → List Expr
  | 0, es => es
  | _, [] => []
  | fuel + 1, a :: rest => a :: absorbAll f fuel (rest.map (fun e => absorb f a e.size e))

/-- Takes out what all nested extremes of the other kind have in common. -/
def factorExtremes (f : Func) (es : List Expr) : List Expr :=
  let g := otherExtreme f
  let isOther (e : Expr) : Bool := match e with | .apply h _ => h = g | _ => false
  let others := es.filter isOther
  let rest := es.filter (!isOther ·)
  match others with
  | o :: _ :: _ =>
    let common := o.args.filter (fun a => others.all (fun p => p.args.contains a))
    if common.isEmpty then es
    else
      let diffs := others.map (fun p => p.args.filter (!common.contains ·))
      let parts :=
        if diffs.all (!·.isEmpty) then
          common ++ [.apply f (sortBySize (diffs.map (fun d => match d with
            | [a] => a
            | d => .apply g (sortBySize d))))]
        else common
      rest ++ [match parts with | [a] => a | ps => .apply g (sortBySize ps)]
  | _ => es

/-- Drops nested extremes of the other kind that a number among the arguments
already decides. -/
def dropDecided (f : Func) (es : List Expr) : List Expr :=
  let g := otherExtreme f
  match es.filter (·.isNumber) with
  | [] => es
  | n :: ns =>
    let exceeds (a b : Expr) : Bool := holds? (if f = .max then .gt else .lt) a b = some true
    let bound := ns.foldl (fun b a => if exceeds a b then a else b) n
    es.filter (fun e => match e with
      | .apply h (a :: _) => !(h = g && a.isNumber && exceeds bound a)
      | _ => true)

/-- The largest or the smallest of the listed expressions. -/
def extremum (f : Func) (es : List Expr) : Except BuildError Expr :=
  if es.any (fun e => e.isLogical || e.facts.real = some false ||
      (e.isNumber && e.approx.isNone && !e.isInfinity) || e = nan) then .error .incomparable
  else
    let top : Expr := .scalar (.inf (f == .min))
    let bottom : Expr := .scalar (.inf (f == .max))
    if es.contains top then .ok top
    else
      let es := (es.filter (· ≠ bottom)).flatMap (fun e => match e with
        | .apply g as => if g = f then as else [e]
        | e => [e])
      let es := dropDecided f (sortBySize es.eraseDups)
      let es := factorExtremes f (absorbAll f es.length es)
      match (extremes (f == .max) es).eraseDups with
      | [] => .ok bottom
      | [e] => .ok e
      | es => .ok (.apply f (sortBySize es))

/-! ## Absolute value and rebuilding -/

/-- The numerator and denominator factors of a product or power, by the signs of
the exponents. -/
def splitReciprocals (e : Expr) : List Expr × List Expr :=
  e.factors.foldl (fun acc f =>
    match f with
    | .power b x =>
      if x.splitCoeff.1.isNegative then
        (acc.1, acc.2 ++ [if x = negOne then b else .power b (neg x)])
      else (acc.1 ++ [f], acc.2)
    | .scalar (.exact q) => (acc.1 ++ [ofInt q.num], if q.den = 1 then acc.2 else acc.2 ++ [ofInt q.den])
    | f => (acc.1 ++ [f], acc.2)) ([], [])

/-- Whether negating twice changes a product. -/
def isOpenNegative (e : Expr) : Bool := e.isProduct && neg (neg e) != e

/-- Takes the minus out of sums that lead with one. What still leads with one after
a first round is marked by a factor 1, so that it can be told from a product. -/
def markMinus (rebuild : Rebuild) (e : Expr) : Expr :=
  let sums := e.nodes.filter (·.isSum)
  let first (x : Expr) : Option Expr :=
    if x.isSum && x.leadsWithMinus then some (.product [negOne, neg x]) else none
  let second (x : Expr) : Option Expr :=
    if x.isSum && x.leadsWithMinus then
      some (if sums.contains x then .product [negOne, neg x] else .product [one, negOne, neg x])
    else none
  replaceWith rebuild second (replaceWith rebuild first e)

/-- What a marked product stands for. -/
def unmarked? : Expr → Option Expr
  | .product (a :: b :: rest) =>
    if a = one ∧ b = negOne then some (neg (rawProduct rest)) else none
  | _ => none

/-- Removes the marks of sums whose minus was taken out twice. -/
def unmarkMinus (rebuild : Rebuild) (e : Expr) : Expr :=
  (e.nodes.filter (fun x => (unmarked? x).isSome)).foldl (fun e n =>
    replaceWith rebuild (fun x => if x = n then unmarked? n else none) e) e

/-- The whole number nearest below a rational. -/
def floorOf (e : Expr) : Expr :=
  let whole := e.terms.filter (·.isInteger)
  let rest := e.terms.filter (!·.isInteger)
  match rest with
  | [] => e
  | rest =>
    let inner := sumOf rest
    match inner.approx with
    | some q => sumOf (whole ++ [ofInt q.floor])
    | none => sumOf (whole ++ [.apply .floor [inner]])

/-- The remainder of a division, evaluated for numbers. -/
def modOf (a b : Expr) : Expr :=
  match a, b with
  | .scalar (.exact p), .scalar (.exact q) =>
    if q = 0 then nan else ofRat (p - q * ((p / q).floor : Rat))
  | .scalar s, .scalar t =>
    match s.toRat?, t.toRat? with
    | some p, some q =>
      if q = 0 then nan else .scalar (.ofBinary (Binary.ofRat (p - q * ((p / q).floor : Rat))))
    | _, _ => .apply .mod [a, b]
  | a, b => if a = b then zero else .apply .mod [a, b]

/-- The absolute value of a factor, and whether it stays unknown. -/
def knownAbs (abs : Expr → Expr) (f : Expr) : Expr × Bool :=
  match abs f with
  | .apply .abs _ => (f, true)
  | c => (c, false)

/-- The absolute value of the power `e` of `b` by `x`. -/
def powerAbs (abs : Expr → Expr) (e b x : Expr) : Expr :=
  if b.facts.real = some true then
    match x with
    | .scalar (.exact q) =>
      if q.den = 1 then (if q.num % 2 = 0 then e else pow (abs b) x)
      else if b.facts.nonneg then e else .apply .abs [e]
    | x => if b.facts.nonneg && x.facts.real = some true then e else .apply .abs [e]
  else .apply .abs [e]

mutual
/-- The evaluated absolute value, within `fuel` steps. -/
def absF : Nat → Expr → Expr
  | 0, e => .apply .abs [e]
  | fuel + 1, e =>
    let s := signF fuel false e
    match s with
    | .product fs =>
      let (num, den) := splitReciprocals s
      if num.all (·.isNumber) && den.any (!·.isNumber) && !den.isEmpty then
        div (absF fuel (productOf num)) (absF fuel (productOf den))
      else
        let parts := fs.map (fun f =>
          match f with
          | .power b (.scalar (.exact q)) =>
            if q.den = 1 ∧ q < 0 then
              match absF fuel b with
              | .apply .abs _ => (f, true)
              | c => (pow c (ofRat q), false)
            else knownAbs (absF fuel) f
          | f => knownAbs (absF fuel) f)
        let unknown := (parts.filter (·.2)).map (·.1)
        let rest := (parts.filter (!·.2)).map (·.1)
        let product := productOf rest
        if unknown.isEmpty then product else mul product (.apply .abs [productOf unknown])
    | .scalar x => .scalar x.abs
    | .constant .undirected => .scalar (.inf false)
    | .constant .imaginary => one
    | .power b x =>
      if x.splitCoeff.1.isNegative then
        let (_, den) := splitReciprocals s
        if den.any (!·.isNumber) then div one (absF fuel (productOf den)) else powerAbs (absF fuel) e b x
      else powerAbs (absF fuel) e b x
    | s =>
      let f := s.facts
      if f.zero then zero
      else if f.nonneg then s
      else if f.nonpos then neg s
      else .apply .abs [e]

/-- Brings the sums of an expression to the sign with fewer minus signs. Without
`evaluate`, a sum that leads with minus becomes -1 times its negative. -/
def signF : Nat → Bool → Expr → Expr
  | 0, _, e => e
  | fuel + 1, evaluate, e =>
    if e.isAtom then e
    else
      let settle := mapBottomUp (rebuildF fuel) (fun x => if isOpenNegative x then neg (neg x) else x)
      let e := settle e
      let e := unmarkMinus (rebuildF fuel) (markMinus (rebuildF fuel) e)
      match e with
      | .sum ts =>
        let r := sumOf (ts.map (signF fuel true))
        if !evaluate && r.isSum && r.leadsWithMinus then .product [negOne, neg r] else r
      | e => if evaluate && !e.isAtom then settle e else e

/-- A node of the kind of the given one over new arguments, evaluated. -/
def rebuildF : Nat → Expr → List Expr → Expr
  | 0, e, as => e.withArgs as
  | fuel + 1, e, as =>
    match e, as with
    | .sum _, as => sumOf as
    | .product _, as => productOf as
    | .power _ _, [b, x] => pow b x
    | .apply .abs _, [a] => absF fuel a
    | .apply .log _, [a] => logOf a
    | .apply .floor _, [a] => floorOf a
    | .apply .mod _, [a, b] => modOf a b
    | .apply .max _, as => (extremum .max as).toOption.getD (.apply .max as)
    | .apply .min _, as => (extremum .min as).toOption.getD (.apply .min as)
    | .apply .and _, as => andOf (as.map asTruth)
    | .apply .or _, as => orOf (as.map asTruth)
    | .apply .xor _, as => xorOf as
    | .apply .not _, [a] => notOf a
    | .apply (.rel r) _, [a, b] => (relation r a b).toOption.getD (.apply (.rel r) [a, b])
    | e, as => e.withArgs as
end

/-- Steps enough to build nodes over the listed arguments. -/
def buildBudget (es : List Expr) : Nat := 8 + 2 * sizeList es

/-- The evaluated absolute value. -/
def absOf (e : Expr) : Expr := absF (buildBudget [e]) e

/-- Brings the sums of an expression to the sign with fewer minus signs. -/
def normalSign (e : Expr) : Expr := signF (buildBudget [e]) true e

/-- A node of the kind of the given one over new arguments, evaluated, where there is one. -/
def rebuild (e : Expr) (as : List Expr) : Expr := rebuildF (buildBudget as) e as

/-- Whether factors cannot be multiplied because of logical ones among them. One that commutes
has no base and exponent, and one that does not can neither be multiplied by another nor by a
number alone. -/
def unmultiplied (as : List Expr) : Bool :=
  let fs := as.filter (· ≠ one)
  let ls := fs.filter (·.isLogical)
  2 ≤ fs.length && (ls.any (·.commutes) || 2 ≤ ls.length ||
    (fs.length == 2 && !ls.isEmpty && fs.any (fun f => f.isExact && f ≠ zero)))

/-- Whether an expression may stand in a conjunction or disjunction. -/
def connects (e : Expr) : Bool := e.isLogical || e.isSymbol || e = zero || e = one

/-- Why there is no node of the kind of the given one over the arguments. -/
def refusal (e : Expr) (as : List Expr) : Option BuildError :=
  match e, as with
  | .sum _, as => when (as.any (·.isRelation)) .wrongKind
  | .product _, as => (when (as.any (·.isRelation)) .wrongKind).or (when (unmultiplied as) .unsupported)
  | .power _ _, [b, x] =>
    (when (b.isRelation || x.isRelation) .wrongKind).or
      (when (x ≠ zero && x ≠ one && x ≠ nan && (b.isLogical || x.isLogical && !x.isAtom)) .unsupported)
  | .apply .abs _, [a] => when a.isLogical .wrongKind
  | .apply .log _, [a] => when a.isLogical .unsupported
  | .apply .floor _, [a] => when a.isLogical .wrongKind
  | .apply .mod _, [a, b] =>
    (when b.facts.zero .zeroDivisor).or (when (a.isLogical || b.isLogical) .wrongKind)
  | .apply .max _, as => failure? (extremum .max as)
  | .apply .min _, as => failure? (extremum .min as)
  | .apply .and _, as => when (!as.all connects) .wrongKind
  | .apply .or _, as => when (!as.all connects) .wrongKind
  | .apply (.rel r) _, [a, b] => failure? (relation r a b)
  | _, _ => none
where
  /-- The error under a condition. -/
  when (b : Bool) (x : BuildError) : Option BuildError := if b then some x else none
  /-- The error of a result. -/
  failure? : Except BuildError Expr → Option BuildError
    | .error x => some x
    | .ok _ => none

/-- A node of the kind of the given one over new arguments, evaluated, or why there is none. -/
def build (e : Expr) (as : List Expr) : Except BuildError Expr :=
  match refusal e as with
  | some x => .error x
  | none => .ok (rebuild e as)

/-- The expression with nodes replaced from the top down, changed nodes being
evaluated again. -/
def replace (rule : Expr → Option Expr) (e : Expr) : Expr := replaceWith rebuild rule e

end Expr

end FactorPlan
