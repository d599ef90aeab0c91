import FactorPlan.Algebra.Cost

/-!
The rational content of an expression: the number that can be taken out of its
sums, products and powers.

Correspondence:
  `as_content_primitive` ↔ `contentPrimitive`
  `_keep_coeff`          ↔ `keepNumber`
-/

namespace FactorPlan

namespace Expr

/-- How a number is put before an expression. With `clear`, a fraction stands
before a sum even when some terms are whole multiples; with `sign`, -1 stands
before a sum too. -/
structure Keep where
  clear : Bool := true
  sign : Bool := false

/-- Whether a rational coefficient of a term is whole. -/
def wholeCoeff (e : Expr) : Bool := e.splitCoeff.1.isInteger

/-- A number before an expression, kept apart where the expression is a sum. -/
def keepNumber (k : Keep) (c : Scalar) (e : Expr) : Expr :=
  match e with
  | .sum ts =>
    if c = .one then e
    else if c = .negOne && !k.sign then neg e
    else
      match c with
      | .exact q =>
        if !k.clear && q.den ≠ 1 then
          let parts := ts.map (fun t => let (d, m) := t.splitCoeff; (c.mul d, m))
          if parts.any (fun p => p.1.isInteger) then
            .sum (parts.map (fun p =>
              if p.1.sameValue .one then p.2
              else if p.2 = one then .scalar p.1
              else match p.2 with
                | .product fs => .product (.scalar p.1 :: fs)
                | m => .product [.scalar p.1, m]))
          else .product [.scalar c, e]
        else .product [.scalar c, e]
      | _ => .product [.scalar c, e]
  | e => keepCoeff c e

/-- The rational content and the rest, within `fuel` levels. -/
def contentPrimitiveF : Nat → Bool → Expr → Scalar × Expr
  | 0, _, e => (.one, e)
  | fuel + 1, clear, e =>
    match e with
    | .scalar (.exact q) =>
      if q = 0 then (.one, e) else if 0 < q then (.exact q, one) else (.exact (-q), negOne)
    | .sum ts =>
      let ts := ts.map (fun t => let (c, p) := contentPrimitiveF fuel clear t; keepCoeff c p)
      let s := sumOf ts
      let (c, p) := s.primitive
      if !clear && c.den ≠ 1 && p.isSum then
        let reduced := mul p (ofRat (mkRat 1 c.den))
        if reduced.terms.any wholeCoeff then (.exact c.num, reduced) else (.exact c, p)
      else (.exact c, p)
    | .product fs =>
      let parts := fs.map (contentPrimitiveF fuel clear)
      let c := parts.foldl (fun c p => c.mul p.1) Scalar.one
      (c, productOf ((parts.map (·.2)).filter (· ≠ one)))
    | .power _ _ =>
      let (b, x) := e.baseExponent
      let (cb, pb) := contentPrimitiveF fuel clear b
      let b := keepCoeff cb pb
      let (cx, px) := contentPrimitiveF fuel clear x
      let x := keepCoeff cx px
      match b, x with
      | .product _, .scalar (.exact _) =>
        let (h, t) := contentPrimitiveF fuel clear b
        let (c, m) := (pow (.scalar h) x).splitCoeff
        let (m, mx) := m.baseExponent
        if m = one || mx = x then
          (c, pow (if m = one then t else keepFactor m t) x)
        else (.one, pow b x)
      | b, x => (.one, pow b x)
    | e => (.one, e)
where
  /-- A number or other factor before an expression. -/
  keepFactor (m t : Expr) : Expr :=
    match m with
    | .scalar s => keepCoeff s t
    | m => mul m t

/-- The rational content of an expression and the rest. -/
def contentPrimitive (clear : Bool) (e : Expr) : Scalar × Expr :=
  contentPrimitiveF (2 * e.size + 2) clear e

end Expr

end FactorPlan
