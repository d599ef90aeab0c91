import FactorPlan.Expr.SortKey

/-!
The leading sign of an expression: which of an expression and its negative is the
one displayed with fewer minus signs.

Correspondence:
  `could_extract_minus_sign` ↔ `leadsWithMinus`
-/

namespace FactorPlan

namespace Expr

/-- Whether the expression is displayed with a leading minus. A sum is when more
than half of its terms are; at exactly half, the display order of the sum and of
its negative decides. -/
def leadsWithMinus : Expr → Bool
  | .scalar s => s.isNegative
  | .product (.scalar s :: _) => s.isNegative
  | .sum ts =>
    let minus := (ts.filter termLeads).length
    let plus := ts.length - minus
    if minus < plus then false
    else if plus < minus then true
    else (Expr.sum ts).sortKey.order (neg (.sum ts)).sortKey == .lt
  | _ => false
where
  /-- The leading sign of a term that is no sum. -/
  termLeads : Expr → Bool
    | .scalar s => s.isNegative
    | .product (.scalar s :: _) => s.isNegative
    | _ => false

end Expr

end FactorPlan
